import Mathlib.Data.Set.Function
import Mathlib.Order.Bounds.Basic
import Mathlib.Order.BooleanAlgebra.Set

/-!
# What a store holds

Three views of the contents of a store, none of which depends on what the values are.

A keyed store holds, for each kind, a map from fields to values. An edit puts one value, or replaces the
whole maps of some kinds and leaves the other kinds alone. After a history of edits, the map of a kind
is the one of the last replacement that named it, overlaid by the values that were put since
(`Contents.after`).

A register holds a value or nothing, and a value gives way to one of a higher version.
`Versioned.Highest` says that a register holds what is left of its first value and a set of values that
were written, in whatever order: the first value or a written one, of a version that no other exceeds.
Where versions tell the values apart, there is only one such value (`Versioned.Highest.unique`).

Two sets are one map: each of their elements is marked with a truth value, `true` for those of the first
set and `false` for those of the second alone, so that the first takes precedence (`Marks.marks`); where
both sets are empty there is no map at all (`Marks.marked`). Two pairs of sets give the same map exactly if
they have the first set in common, and the second set outside of it (`Marks.marked_eq_iff`).
-/

/-! ## Maps and edits -/

namespace RedisStore

/-- For each kind of `κ`, a map from fields of `φ` to values of `α`. -/
abbrev Contents (κ φ α : Type*) := κ → φ → Option α

namespace Contents

variable {κ φ α β : Type*}

/-- An edit of the contents. -/
inductive Edit (κ φ α : Type*) where
  /-- The value of one field. -/
  | put (k : κ) (f : φ) (a : α)
  /-- The maps of the kinds for which one is given. -/
  | replace (maps : κ → Option (φ → Option α))

variable [DecidableEq κ] [DecidableEq φ]

/-- The contents after an edit. -/
def Edit.apply (m : Contents κ φ α) : Edit κ φ α → Contents κ φ α
  | put k f a => fun k' f' => if k' = k ∧ f' = f then some a else m k' f'
  | replace maps => fun k => (maps k).getD (m k)

/-- The contents after a history of edits. -/
def after (m : Contents κ φ α) (edits : List (Edit κ φ α)) : Contents κ φ α :=
  edits.foldl Edit.apply m

@[simp] theorem apply_put (m : Contents κ φ α) (k k' : κ) (f f' : φ) (a : α) :
    (Edit.put k f a).apply m k' f' = if k' = k ∧ f' = f then some a else m k' f' := rfl

@[simp] theorem apply_replace (m : Contents κ φ α) (maps : κ → Option (φ → Option α)) (k : κ) :
    (Edit.replace maps).apply m k = (maps k).getD (m k) := rfl

@[simp] theorem after_nil (m : Contents κ φ α) : after m [] = m := rfl

/-- One edit more. -/
@[simp] theorem after_concat (m : Contents κ φ α) (edits : List (Edit κ φ α)) (e : Edit κ φ α) :
    after m (edits ++ [e]) = e.apply (after m edits) := by
  simp [after]

end Contents

end RedisStore

/-! ## Values with versions -/

namespace RedisStore.Versioned

variable {α ν : Type*} [LinearOrder ν] {version : α → Option ν} {stored final final' : Option α}
  {written : Set α}

/-- The version of the register's content is at least `v`. -/
def AtLeast (version : α → Option ν) (content : Option α) (v : ν) : Prop :=
  ∃ w, content.bind version = some w ∧ v ≤ w

/-- What is left of the stored value and the written ones. -/
structure Highest (version : α → Option ν) (stored : Option α) (written : Set α)
    (final : Option α) : Prop where
  /-- It is one of them. -/
  source : final = stored ∨ ∃ a ∈ written, final = some a
  /-- The stored value's version is not higher. -/
  stored_le : ∀ v, stored.bind version = some v → AtLeast version final v
  /-- Nor is a written one's. -/
  written_le : ∀ a ∈ written, ∀ v, version a = some v → AtLeast version final v

/-- Where every written value has a version, and no two of the stored and written values have the
same, what is left is determined. -/
theorem Highest.unique (h : Highest version stored written final)
    (h' : Highest version stored written final') (hver : ∀ a ∈ written, ∃ v, version a = some v)
    (hinj : Set.InjOn version written)
    (hne : ∀ a ∈ written, stored.bind version ≠ version a) : final = final' := by
  -- A written value is what is left in one only if it is in the other: its version is the highest.
  have key : ∀ {f f' : Option α}, Highest version stored written f →
      Highest version stored written f' → ∀ a ∈ written, f = some a → f' = some a := by
    intro f f' hf hf' a ha hfa
    obtain ⟨v, hv⟩ := hver a ha
    obtain ⟨w, hw, hvw⟩ := hf'.written_le a ha v hv
    have hle : AtLeast version f w := by
      rcases hf'.source with hs | ⟨b, hb, hs⟩
      · exact hf.stored_le w (hs ▸ hw)
      · rw [hs, Option.bind_some] at hw
        exact hf.written_le b hb w hw
    obtain ⟨x, hx, hwx⟩ := hle
    rw [hfa, Option.bind_some, hv] at hx
    obtain rfl : v = w := le_antisymm hvw (Option.some.inj hx ▸ hwx)
    rcases hf'.source with hs | ⟨b, hb, hs⟩
    · rw [hs, ← hv] at hw
      exact absurd hw (hne a ha)
    · rw [hs, Option.bind_some, ← hv] at hw
      rw [hs, hinj hb ha hw]
  rcases h.source with hs | ⟨a, ha, hs⟩
  · rcases h'.source with hs' | ⟨a, ha, hs'⟩
    · rw [hs, hs']
    · rw [hs', key h' h a ha hs']
  · rw [hs, key h h' a ha hs]

/-- The version of what is left is the greatest one. -/
theorem Highest.isGreatest_iff (h : Highest version stored written final) (v : ν) :
    final.bind version = some v ↔
      IsGreatest ({w | stored.bind version = some w} ∪ {w | ∃ a ∈ written, version a = some w}) v := by
  have hmem : ∀ w, final.bind version = some w →
      w ∈ {w | stored.bind version = some w} ∪ {w | ∃ a ∈ written, version a = some w} := by
    intro w hw
    rcases h.source with hs | ⟨a, ha, hs⟩
    · exact .inl (hs ▸ hw)
    · exact .inr ⟨a, ha, by rwa [hs] at hw⟩
  have hle : ∀ w ∈ {w | stored.bind version = some w} ∪ {w | ∃ a ∈ written, version a = some w},
      AtLeast version final w := by
    rintro w (hw | ⟨a, ha, hw⟩)
    · exact h.stored_le w hw
    · exact h.written_le a ha w hw
  constructor
  · intro hv
    refine ⟨hmem v hv, fun w hw => ?_⟩
    obtain ⟨x, hx, hwx⟩ := hle w hw
    rw [hv] at hx
    exact (Option.some.inj hx) ▸ hwx
  · rintro ⟨hv, hupper⟩
    obtain ⟨w, hw, hvw⟩ := hle v hv
    rw [hw, le_antisymm (hupper (hmem w hw)) hvw]

end RedisStore.Versioned

/-! ## Two sets as one map -/

namespace RedisStore.Marks

variable {φ : Type*} {yes no yes' no' : Set φ}

open Classical in
/-- The mark of an element, if it is in one of the sets. -/
noncomputable def marks (yes no : Set φ) (x : φ) : Option Bool :=
  if x ∈ yes then some true else if x ∈ no then some false else none

open Classical in
/-- The map, if there is an element to mark. -/
noncomputable def marked (yes no : Set φ) : Option (φ → Option Bool) :=
  if yes = ∅ ∧ no = ∅ then none else some (marks yes no)

/-- The first set can be read off the map. -/
theorem marks_eq_some_true {x : φ} : marks yes no x = some true ↔ x ∈ yes := by
  unfold marks
  split_ifs <;> simp [*]

/-- So can the second, outside of the first. -/
theorem marks_eq_some_false {x : φ} : marks yes no x = some false ↔ x ∈ no \ yes := by
  unfold marks
  split_ifs <;> simp [*]

/-- The sets that give the same map. -/
theorem marks_eq_iff : marks yes no = marks yes' no' ↔ yes = yes' ∧ no \ yes = no' \ yes' := by
  constructor
  · intro h
    refine ⟨Set.ext fun x => ?_, Set.ext fun x => ?_⟩
    · calc x ∈ yes ↔ marks yes no x = some true := marks_eq_some_true.symm
        _ ↔ marks yes' no' x = some true := by rw [h]
        _ ↔ x ∈ yes' := marks_eq_some_true
    · calc x ∈ no \ yes ↔ marks yes no x = some false := marks_eq_some_false.symm
        _ ↔ marks yes' no' x = some false := by rw [h]
        _ ↔ x ∈ no' \ yes' := marks_eq_some_false
  · rintro ⟨hyes, hno⟩
    funext x
    -- An element has the mark that its set gives it, in both.
    by_cases hx : x ∈ yes
    · rw [marks_eq_some_true.2 hx, marks_eq_some_true.2 (hyes ▸ hx)]
    · by_cases hx' : x ∈ no
      · have hmem : x ∈ no \ yes := ⟨hx', hx⟩
        rw [marks_eq_some_false.2 hmem, marks_eq_some_false.2 (hno ▸ hmem)]
      · have hmem : x ∉ no' := by
          intro h
          have hdiff : x ∈ no' \ yes' := ⟨h, hyes ▸ hx⟩
          rw [← hno] at hdiff
          exact hx' hdiff.1
        unfold marks
        rw [if_neg hx, if_neg hx', if_neg (hyes ▸ hx), if_neg hmem]

/-- Without a mark both sets are empty. -/
theorem marked_eq_none : marked yes no = none ↔ yes = ∅ ∧ no = ∅ := by
  unfold marked
  split_ifs with h <;> simp [h]

/-- Without a mark the map marks nothing. -/
theorem marks_eq_marks_empty : marks yes no = marks ∅ ∅ ↔ yes = ∅ ∧ no = ∅ := by
  rw [marks_eq_iff]
  constructor
  · rintro ⟨rfl, hno⟩
    rw [Set.sdiff_empty, Set.sdiff_empty] at hno
    exact ⟨rfl, hno⟩
  · rintro ⟨rfl, rfl⟩
    exact ⟨rfl, rfl⟩

/-- The sets that give the same map, or none. -/
theorem marked_eq_iff : marked yes no = marked yes' no' ↔ yes = yes' ∧ no \ yes = no' \ yes' := by
  rw [← marks_eq_iff]
  unfold marked
  split_ifs with h h' h'
  · rw [marks_eq_marks_empty.2 h, marks_eq_marks_empty.2 h']
    exact iff_of_true rfl rfl
  · rw [marks_eq_marks_empty.2 h, @eq_comm _ _ (marks yes' no'), marks_eq_marks_empty]
    exact iff_of_false id h'
  · rw [marks_eq_marks_empty.2 h', marks_eq_marks_empty]
    exact iff_of_false id h
  · exact Option.some_inj

end RedisStore.Marks
