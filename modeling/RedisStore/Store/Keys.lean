import RedisStore.Store.BigSegment

/-!
# The keys of the stores

Every key is the prefix with its colon, followed by one of a few endings. The endings are not escaped,
and a prefix may contain colons and the endings' words, so that one prefix can extend another through
a reserved word. Still a key determines its prefix and its ending (`key_eq_iff`): what follows the last
colon is a user hash, with its 44 characters, or one of the fixed words, all of other lengths.
-/

namespace RedisStore

open Redis

/-- The two namespaces differ. -/
theorem Kind.namespaceName_injective : Function.Injective Kind.namespaceName := by
  intro a b h
  cases a <;> cases b <;> first | rfl | exact absurd h (by decide)

/-- Keys with one prefix differ as their ends do. -/
theorem itemsKey_inj {state : StoreState} {kind kind' : Kind} :
    itemsKey state kind = itemsKey state kind' ↔ kind = kind' := by
  rw [itemsKey, itemsKey, String.append_right_inj, Kind.namespaceName_injective.eq_iff]

/-- The key of the init marker is the key of no kind, whatever the prefixes. -/
theorem itemsKey_ne_initedKey (state state' : StoreState) (kind : Kind) :
    itemsKey state kind ≠ initedKey state' := by
  intro h
  have hlast := congrArg (fun key : String => key.toList.getLast?) h
  cases kind <;> simp [itemsKey, initedKey, Kind.namespaceName] at hlast

/-- A key depends on the prefix alone. -/
theorem itemsKey_congr {state state' : StoreState} (h : state.itemsPrefix = state'.itemsPrefix)
    (kind : Kind) : itemsKey state kind = itemsKey state' kind := by
  rw [itemsKey, itemsKey, h]

/-! ## All keys -/

/-- A user hash as the SDK passes it: 44 characters of base64. -/
structure UserHash where
  text : String
  length_eq : text.length = 44
  base64 : ∀ c ∈ text.toList, c.isAlphanum ∨ c ∈ ['+', '/', '=']

/-- The keys of the two stores, by what they append to the prefix. -/
inductive StoreKey where
  | items (kind : Kind)
  /-- The key for a name in the data of an init that every object inherits. -/
  | undefinedItems
  | inited
  | lastUpToDate
  | userInclude (userHash : UserHash)
  | userExclude (userHash : UserHash)

namespace StoreKey

/-- What a key appends to the prefix. -/
def ending : StoreKey → String
  | items kind => kind.namespaceName
  | undefinedItems => "undefined"
  | inited => "$inited"
  | lastUpToDate => keyLastUpToDate
  | userInclude userHash => keyUserInclude ++ userHash.text
  | userExclude userHash => keyUserExclude ++ userHash.text

/-- The key is one of the feature store's data. -/
def ofData : StoreKey → Bool
  | items _ => true
  | undefinedItems => true
  | inited => true
  | _ => false

/-- The key, as the stores build it. -/
def key (state : StoreState) (k : StoreKey) : Key := state.itemsPrefix ++ k.ending

/-- The part of an ending up to its colon, with the colon of the prefix. -/
def middle : StoreKey → String
  | userInclude _ => ":big_segment_include"
  | userExclude _ => ":big_segment_exclude"
  | _ => ""

/-- What follows the last colon of a key. -/
def tail : StoreKey → String
  | userInclude userHash => userHash.text
  | userExclude userHash => userHash.text
  | k => k.ending

/-- A key splits at its last colon. -/
theorem append_ending (p : String) (k : StoreKey) :
    p ++ ":" ++ k.ending = p ++ k.middle ++ ":" ++ k.tail := by
  have hinclude : ":" ++ keyUserInclude = ":big_segment_include" ++ ":" := by decide
  have hexclude : ":" ++ keyUserExclude = ":big_segment_exclude" ++ ":" := by decide
  cases k with
  | userInclude userHash =>
    calc p ++ ":" ++ (keyUserInclude ++ userHash.text)
        = p ++ (":" ++ keyUserInclude) ++ userHash.text := by simp only [String.append_assoc]
      _ = p ++ ":big_segment_include" ++ ":" ++ userHash.text := by
        simp only [hinclude, String.append_assoc]
  | userExclude userHash =>
    calc p ++ ":" ++ (keyUserExclude ++ userHash.text)
        = p ++ (":" ++ keyUserExclude) ++ userHash.text := by simp only [String.append_assoc]
      _ = p ++ ":big_segment_exclude" ++ ":" ++ userHash.text := by
        simp only [hexclude, String.append_assoc]
  | _ =>
    exact congrArg (· ++ ":" ++ _) (String.append_empty).symm

theorem colon_notMem_tail (k : StoreKey) : ':' ∉ k.tail.toList := by
  cases k with
  | items kind => cases kind <;> decide
  | userInclude userHash => exact fun h => absurd (userHash.base64 ':' h) (by decide)
  | userExclude userHash => exact fun h => absurd (userHash.base64 ':' h) (by decide)
  | _ => decide

/-- Only a user hash has 44 characters. -/
theorem length_middle (k : StoreKey) :
    k.middle.length = if k.tail.length = 44 then 20 else 0 := by
  cases k with
  | items kind => cases kind <;> decide
  | userInclude userHash => rw [tail, userHash.length_eq, middle]; decide
  | userExclude userHash => rw [tail, userHash.length_eq, middle]; decide
  | _ => decide

/-- The two parts determine the ending. -/
theorem eq_of_middle_of_tail {k k' : StoreKey} (hmiddle : k.middle = k'.middle)
    (htail : k.tail = k'.tail) : k = k' := by
  have huser : ∀ {h h' : UserHash}, h.text = h'.text → h = h' := by
    rintro ⟨text, _, _⟩ ⟨text', _, _⟩ h
    obtain rfl : text = text' := h
    rfl
  cases k with
  | items kind =>
    cases k' with
    | items kind' => cases kind <;> cases kind' <;> first | rfl | exact absurd htail (by decide)
    | userInclude _ => simp [middle] at hmiddle
    | userExclude _ => simp [middle] at hmiddle
    | _ => cases kind <;> exact absurd htail (by decide)
  | userInclude userHash =>
    cases k' with
    | userInclude userHash' => rw [huser htail]
    | _ => simp [middle] at hmiddle
  | userExclude userHash =>
    cases k' with
    | userExclude userHash' => rw [huser htail]
    | _ => simp [middle] at hmiddle
  | _ =>
    cases k' with
    | items kind => cases kind <;> exact absurd htail (by decide)
    | userInclude _ => simp [middle] at hmiddle
    | userExclude _ => simp [middle] at hmiddle
    | _ => first | rfl | exact absurd htail (by decide)

end StoreKey

/-- A list is split in one way at the last occurrence of an element. -/
theorem append_cons_inj_of_notMem_right {α : Type} {a : α} {x₁ x₂ z₁ z₂ : List α} (h₁ : a ∉ z₁)
    (h₂ : a ∉ z₂) (h : x₁ ++ a :: z₁ = x₂ ++ a :: z₂) : x₁ = x₂ ∧ z₁ = z₂ := by
  -- If the fronts differ in length, the longer one ends in the other's last part.
  rcases List.append_eq_append_iff.1 h with ⟨c, rfl, hc⟩ | ⟨c, rfl, hc⟩
  · cases c with
    | nil => exact ⟨(List.append_nil x₁).symm, (List.cons.inj hc).2⟩
    | cons b c => exact absurd (by rw [(List.cons.inj hc).2]; simp) h₁
  · cases c with
    | nil => exact ⟨List.append_nil x₂, (List.cons.inj hc).2.symm⟩
    | cons b c => exact absurd (by rw [(List.cons.inj hc).2]; simp) h₂

/-- A key determines its prefix and its ending. -/
theorem key_eq_iff {state state' : StoreState} {p q : String} (hp : state.itemsPrefix = p ++ ":")
    (hq : state'.itemsPrefix = q ++ ":") (k k' : StoreKey) :
    k.key state = k'.key state' ↔ p = q ∧ k = k' := by
  constructor
  · intro h
    rw [StoreKey.key, StoreKey.key, hp, hq, StoreKey.append_ending, StoreKey.append_ending] at h
    have hlist := congrArg String.toList h
    simp only [String.toList_append, List.append_assoc] at hlist
    rw [← List.append_assoc, ← List.append_assoc q.toList] at hlist
    -- Both keys are split at their last colon.
    obtain ⟨hfront, htail⟩ := append_cons_inj_of_notMem_right k.colon_notMem_tail
      k'.colon_notMem_tail hlist
    have htail := String.toList_injective htail
    -- The same tail has a middle part of the same length before it.
    have hlength : k.middle.toList.length = k'.middle.toList.length := by
      rw [String.length_toList, String.length_toList, StoreKey.length_middle,
        StoreKey.length_middle, htail]
    obtain ⟨hpq, hmiddle⟩ := List.append_inj' hfront hlength
    exact ⟨String.toList_injective hpq,
      StoreKey.eq_of_middle_of_tail (String.toList_injective hmiddle) htail⟩
  · rintro ⟨rfl, rfl⟩
    rw [StoreKey.key, StoreKey.key, hp, hq]

end RedisStore
