import Mathlib.Data.List.Nodup
import Mathlib.Data.List.Sublists

/-!
# Linearizability

A history of events in which calls of an object's operations are made and answered (`View`). It is
linearizable when the calls can be put in one sequence that the object could have gone through call by
call, that has every answered call with its answer, and that keeps the order of calls of which one was
answered before the other was made (`Linearizes`).

To prove it one names an event between the call and the answer at which the operation takes effect, its
point. A history follows its points if each event keeps three rules (`FollowsPoints`): at a point the
object moves as the specification says; a call that is made has no point yet; and a call that is
answered has had its point, with this answer. The points in their order are then such a sequence
(`FollowsPoints.linearizes`).
-/

namespace RedisStore.Linear

/-- What an object's operations make of its state, and what they may answer. -/
structure Spec (σ ω α : Type*) where
  next : σ → ω → σ
  gives : σ → ω → α → Prop

/-- The events that make a call, that are its point, and that answer it. -/
structure View (ε κ ω α : Type*) where
  made : ε → Option (κ × ω)
  point : ε → Option (κ × ω × α)
  answered : ε → Option (κ × α)

variable {σ ε κ ω α : Type*} {S : Spec σ ω α} {V : View ε κ ω α} {a b : σ} {log : List ε}

/-- The object goes through the calls one after the other, from `a` to `b`. -/
inductive Legal (S : Spec σ ω α) (a : σ) : List (κ × ω × α) → σ → Prop
  | nil : Legal S a [] a
  | snoc {calls : List (κ × ω × α)} {b : σ} (h : Legal S a calls b) (k : κ) {op : ω} {ans : α} (hans : S.gives b op ans) :
    Legal S a (calls ++ [(k, op, ans)]) (S.next b op)

/-- The sequence `calls` is a linearization of a history. -/
structure Linearizes (S : Spec σ ω α) (V : View ε κ ω α) (a : σ) (log : List ε)
    (calls : List (κ × ω × α)) (b : σ) : Prop where
  legal : Legal S a calls b
  /-- No call is in it twice. -/
  once : (calls.map Prod.fst).Nodup
  /-- Only calls that were made are in it. -/
  made : ∀ x ∈ calls, ∃ e ∈ log, V.made e = some (x.1, x.2.1)
  /-- Every answered call is in it, with its answer. -/
  answered : ∀ e ∈ log, ∀ k ans, V.answered e = some (k, ans) → ∃ op, (k, op, ans) ∈ calls
  /-- A call that was answered before another was made comes before it. -/
  order : ∀ e e' k ans k' op', [e, e'].Sublist log → V.answered e = some (k, ans) →
    V.made e' = some (k', op') → ∀ y ∈ calls, y.1 = k' → ∃ x ∈ calls, x.1 = k ∧ [x, y].Sublist calls

/-- What an event must keep after a history with the points `points`, as the object moves from `b` to
`b'`. -/
structure KeepsPoints (S : Spec σ ω α) (V : View ε κ ω α) (log : List ε) (b : σ) (e : ε) (b' : σ) :
    Prop where
  moves : ∀ k op ans, V.point e = some (k, op, ans) →
    S.gives b op ans ∧ b' = S.next b op ∧ (∃ e' ∈ log, V.made e' = some (k, op)) ∧
      ∀ x ∈ log.filterMap V.point, x.1 ≠ k
  stays : V.point e = none → b' = b
  fresh : ∀ k op, V.made e = some (k, op) → ∀ x ∈ log.filterMap V.point, x.1 ≠ k
  answered : ∀ k ans, V.answered e = some (k, ans) → ∃ op, (k, op, ans) ∈ log.filterMap V.point

/-- Every event of the history keeps the rules, and the object goes from `a` to `b`. -/
inductive FollowsPoints (S : Spec σ ω α) (V : View ε κ ω α) (a : σ) : List ε → σ → Prop
  | nil : FollowsPoints S V a [] a
  | snoc {log : List ε} {b : σ} (h : FollowsPoints S V a log b) {e : ε} {b' : σ}
    (he : KeepsPoints S V log b e b') : FollowsPoints S V a (log ++ [e]) b'

/-- The points after one more event. -/
theorem filterMap_point_concat (e : ε) :
    (log ++ [e]).filterMap V.point = log.filterMap V.point ++ (V.point e).toList := by
  rw [List.filterMap_append]
  cases h : V.point e with
  | none => rw [List.filterMap_cons_none h]; rfl
  | some x => rw [List.filterMap_cons_some h]; rfl

/-- Events that make no call and are no points, and answer calls that have had theirs. -/
theorem FollowsPoints.append (h : FollowsPoints S V a log b) {es : List ε}
    (hmade : ∀ e ∈ es, V.made e = none) (hpoint : ∀ e ∈ es, V.point e = none)
    (hanswered : ∀ e ∈ es, ∀ k ans, V.answered e = some (k, ans) →
      ∃ op, (k, op, ans) ∈ log.filterMap V.point) : FollowsPoints S V a (log ++ es) b := by
  induction es generalizing log with
  | nil =>
    rw [List.append_nil]
    exact h
  | cons e es ih =>
    have he : V.point e = none := hpoint e List.mem_cons_self
    have hsame : (log ++ [e]).filterMap V.point = log.filterMap V.point := by
      rw [filterMap_point_concat, he, Option.toList_none, List.append_nil]
    have hone : FollowsPoints S V a (log ++ [e]) b := by
      refine h.snoc ⟨fun k op ans hk => ?_, fun _ => rfl, fun k op hk => ?_, ?_⟩
      · cases he.symm.trans hk
      · cases (hmade e List.mem_cons_self).symm.trans hk
      · exact hanswered e List.mem_cons_self
    rw [List.append_cons]
    refine ih hone (fun e' he' => hmade e' (List.mem_cons_of_mem _ he'))
      (fun e' he' => hpoint e' (List.mem_cons_of_mem _ he')) fun e' he' => ?_
    rw [hsame]
    exact hanswered e' (List.mem_cons_of_mem _ he')

/-- The object goes through the points. -/
theorem FollowsPoints.legal (h : FollowsPoints S V a log b) :
    Legal S a (log.filterMap V.point) b := by
  induction h with
  | nil => exact .nil
  | snoc h he ih =>
    rw [filterMap_point_concat]
    cases hpoint : V.point _ with
    | none =>
      rw [he.stays hpoint, Option.toList_none, List.append_nil]
      exact ih
    | some x =>
      obtain ⟨hgives, hnext, -, -⟩ := he.moves x.1 x.2.1 x.2.2 hpoint
      rw [hnext]
      exact ih.snoc x.1 hgives

/-- No call has two points. -/
theorem FollowsPoints.once (h : FollowsPoints S V a log b) :
    ((log.filterMap V.point).map Prod.fst).Nodup := by
  induction h with
  | nil => exact List.nodup_nil
  | snoc h he ih =>
    rw [filterMap_point_concat]
    cases hpoint : V.point _ with
    | none =>
      rw [Option.toList_none, List.append_nil]
      exact ih
    | some x =>
      obtain ⟨-, -, -, hnew⟩ := he.moves x.1 x.2.1 x.2.2 hpoint
      rw [Option.toList_some, List.map_append, List.nodup_append]
      refine ⟨ih, List.nodup_singleton _, fun k hk k' hk' => ?_⟩
      obtain rfl := List.mem_singleton.1 hk'
      obtain ⟨y, hy, rfl⟩ := List.mem_map.1 hk
      exact hnew y hy

/-- Every point is one of a call that was made. -/
theorem FollowsPoints.made (h : FollowsPoints S V a log b) :
    ∀ x ∈ log.filterMap V.point, ∃ e ∈ log, V.made e = some (x.1, x.2.1) := by
  induction h with
  | nil => simp
  | snoc h he ih =>
    rw [filterMap_point_concat]
    intro x hx
    rcases List.mem_append.mp hx with hx | hx
    · obtain ⟨e', he', hmade⟩ := ih x hx
      exact ⟨e', List.mem_append_left _ he', hmade⟩
    · obtain ⟨-, -, ⟨e', he', hmade⟩, -⟩ := he.moves x.1 x.2.1 x.2.2 (Option.mem_toList.1 hx)
      exact ⟨e', List.mem_append_left _ he', hmade⟩

/-- Every answered call has its point. -/
theorem FollowsPoints.answered (h : FollowsPoints S V a log b) :
    ∀ e ∈ log, ∀ k ans, V.answered e = some (k, ans) → ∃ op, (k, op, ans) ∈ log.filterMap V.point := by
  induction h with
  | nil => simp
  | snoc h he ih =>
    intro e' he' k ans hans
    rw [filterMap_point_concat]
    rcases List.mem_append.mp he' with he' | he'
    · obtain ⟨op, hop⟩ := ih e' he' k ans hans
      exact ⟨op, List.mem_append_left _ hop⟩
    · obtain rfl := List.mem_singleton.1 he'
      obtain ⟨op, hop⟩ := he.answered k ans hans
      exact ⟨op, List.mem_append_left _ hop⟩

/-- Two elements of a list, one after the other, are in a longer list too. -/
theorem pair_sublist_concat {β : Type*} {x y z : β} {xs : List β} :
    [x, y].Sublist (xs ++ [z]) ↔ [x, y].Sublist xs ∨ x ∈ xs ∧ y = z := by
  constructor
  · intro h
    obtain ⟨l₁, l₂, hsplit, h₁, h₂⟩ := List.sublist_append_iff.1 h
    match l₁, hsplit with
    | [], hsplit =>
      have hlength := h₂.length_le
      rw [← show [x, y] = l₂ from hsplit] at hlength
      simp at hlength
    | [u], hsplit =>
      obtain ⟨rfl, hl₂⟩ := List.cons.inj hsplit
      rw [← show [y] = l₂ from hl₂, List.singleton_sublist, List.mem_singleton] at h₂
      exact .inr ⟨List.singleton_sublist.1 h₁, h₂⟩
    | u :: v :: rest, hsplit =>
      obtain ⟨rfl, hrest⟩ := List.cons.inj hsplit
      obtain ⟨rfl, hnil⟩ := List.cons.inj hrest
      obtain ⟨rfl, -⟩ := List.append_eq_nil_iff.1 hnil.symm
      exact .inl h₁
  · rintro (h | ⟨hx, rfl⟩)
    · exact h.trans (List.sublist_append_left _ _)
    · exact (List.singleton_sublist.2 hx).append (List.Sublist.refl [y])

/-- Of two calls of which one was answered before the other was made, the point of the one is before
that of the other. -/
theorem FollowsPoints.order (h : FollowsPoints S V a log b) {e e' : ε} {k k' : κ} {ans : α} {op' : ω}
    (hlog : [e, e'].Sublist log) (hans : V.answered e = some (k, ans))
    (hmade : V.made e' = some (k', op')) :
    ∀ y ∈ log.filterMap V.point, y.1 = k' →
      ∃ x ∈ log.filterMap V.point, x.1 = k ∧ [x, y].Sublist (log.filterMap V.point) := by
  induction h with
  | nil => cases hlog
  | @snoc log b h d b' hd ih =>
    intro y hy hyk
    rw [filterMap_point_concat] at hy ⊢
    -- The one call was answered before the last event, so that its point is before it.
    have hbefore : e ∈ log := by
      rcases pair_sublist_concat.1 hlog with hlog | ⟨he, -⟩
      · exact hlog.subset List.mem_cons_self
      · exact he
    obtain ⟨op, hop⟩ := h.answered e hbefore k ans hans
    rcases List.mem_append.mp hy with hold | hnew
    · -- The other has its point before the last event, so that it was made before it.
      rcases pair_sublist_concat.1 hlog with hlog | ⟨-, rfl⟩
      · obtain ⟨x, hx, hxk, hxy⟩ := ih hlog y hold hyk
        exact ⟨x, List.mem_append_left _ hx, hxk, hxy.trans (List.sublist_append_left _ _)⟩
      · exact absurd hyk (hd.fresh k' op' hmade y hold)
    · refine ⟨(k, op, ans), List.mem_append_left _ hop, rfl, ?_⟩
      exact (List.singleton_sublist.2 hop).append (List.singleton_sublist.2 hnew)

/-- A history that follows its points is linearized by them. -/
theorem FollowsPoints.linearizes (h : FollowsPoints S V a log b) :
    Linearizes S V a log (log.filterMap V.point) b where
  legal := h.legal
  once := h.once
  made := h.made
  answered := h.answered
  order _ _ _ _ _ _ hlog hans hmade := h.order hlog hans hmade

/-! ## What a call leaves for the later ones -/

/-- What one of the calls brings about, and every other keeps, holds at the end. -/
theorem Legal.holds {I : σ → Prop} {calls : List (κ × ω × α)} (h : Legal S a calls b)
    (hkeep : ∀ x ∈ calls, ∀ b, I b → I (S.next b x.2.1)) {x : κ × ω × α}
    (hx : ∀ b, S.gives b x.2.1 x.2.2 → I (S.next b x.2.1)) (hmem : x ∈ calls) : I b := by
  induction h with
  | nil => cases hmem
  | @snoc calls b h k op ans hans ih =>
    rcases List.mem_append.mp hmem with hmem | hmem
    · have hlast : (k, op, ans) ∈ calls ++ [(k, op, ans)] :=
        List.mem_append_right _ (List.mem_singleton_self _)
      exact hkeep _ hlast b (ih (fun x hx => hkeep x (List.mem_append_left _ hx)) hmem)
    · obtain rfl := List.mem_singleton.1 hmem
      exact hx _ hans

/-- And every later call finds it. -/
theorem Legal.finds {I : σ → Prop} {calls : List (κ × ω × α)} (h : Legal S a calls b)
    (hkeep : ∀ x ∈ calls, ∀ b, I b → I (S.next b x.2.1)) {x y : κ × ω × α}
    (hx : ∀ b, S.gives b x.2.1 x.2.2 → I (S.next b x.2.1)) (hxy : [x, y].Sublist calls) :
    ∃ b, I b ∧ S.gives b y.2.1 y.2.2 := by
  induction h with
  | nil => cases hxy
  | snoc h k hans ih =>
    have hkeep' := fun x hx => hkeep x (List.mem_append_left _ hx)
    rcases pair_sublist_concat.1 hxy with hxy | ⟨hmem, rfl⟩
    · exact ih hkeep' hxy
    · exact ⟨_, h.holds hkeep' hx hmem, hans⟩

/-- In a linearization: what a call brings about, and every other keeps, is found by each call that was
made after its answer. -/
theorem Linearizes.finds {I : σ → Prop} {calls : List (κ × ω × α)} (h : Linearizes S V a log calls b)
    (hkeep : ∀ x ∈ calls, ∀ b, I b → I (S.next b x.2.1)) {e e' : ε} {k k' : κ} {op op' : ω} {ans ans' : α}
    (hlog : [e, e'].Sublist log) (hans : V.answered e = some (k, ans))
    (hmade : V.made e' = some (k', op')) (hx : (k, op, ans) ∈ calls) (hy : (k', op', ans') ∈ calls)
    (hbrings : ∀ b, S.gives b op ans → I (S.next b op)) : ∃ b, I b ∧ S.gives b op' ans' := by
  obtain ⟨x, hxmem, hxk, hxy⟩ := h.order e e' k ans k' op' hlog hans hmade _ hy rfl
  -- The call is in the sequence once.
  obtain rfl : x = (k, op, ans) := List.inj_on_of_nodup_map h.once hxmem hx hxk
  exact h.legal.finds hkeep hbrings hxy

end RedisStore.Linear
