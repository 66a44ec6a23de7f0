import Mathlib.Tactic
import Mathlib.Data.List.AList
import RedisStore.Json.RoundTrip

/-!
# JavaScript's conversions of parsed values

What the language does to a value that came out of `JSON.parse`: its truth value, its properties,
its number in a comparison, and its assignment to a property of an object literal. A parsed value
has no functions in it, so that a conversion to a primitive finds no callable `toString` or
`valueOf` of the value's own: an own `toString` hides the inherited one and the conversion throws.
-/

namespace RedisStore

/-- The exceptions that the built-in functions throw. -/
inductive Exn where
  | syntaxError
  | typeError
deriving DecidableEq

/-! ## Decimal literals as numbers -/

namespace Decimal

/-- The literal of an integer denotes it. -/
@[simp] theorem value_ofInt (z : ℤ) : (ofInt z).value = z := by
  have hcast : ((z.natAbs : ℕ) : ℚ) = |(z : ℚ)| := by
    rw [← Int.cast_abs, Int.abs_eq_natAbs]
    rfl
  simp only [value, ofInt, List.length_nil, pow_zero, mul_one, ofDigits, List.foldl_nil, add_zero,
    Nat.cast_zero, sub_zero, zpow_zero, decide_eq_true_eq, hcast]
  split_ifs with h
  · rw [abs_of_neg (by exact_mod_cast h)]
    ring
  · rw [abs_of_nonneg (by exact_mod_cast not_lt.mp h)]
    ring

/-- A literal denotes the integer that `toInt?` gives. -/
theorem toInt?_eq_some {d : Decimal} {z : ℤ} : d.toInt? = some z ↔ d.value = z := by
  unfold toInt?
  split_ifs with h
  · rw [Option.some.injEq]
    constructor
    · rintro rfl
      exact (Rat.den_eq_one_iff _).1 h |>.symm
    · intro hv
      rw [hv, Rat.num_intCast]
  · constructor
    · intro hv
      cases hv
    · intro hv
      rw [hv, Rat.den_intCast] at h
      exact absurd rfl h

/-- The literal of an integer is read as that integer. -/
@[simp] theorem toInt?_ofInt (z : ℤ) : (ofInt z).toInt? = some z :=
  toInt?_eq_some.2 (value_ofInt z)

end Decimal

/-! ## Numbers -/

/-- A number of JavaScript. -/
inductive JsNumber where
  | nan
  | infinity (negative : Bool)
  | finite (d : Decimal)

/-- `a >= b` on numbers. -/
def JsNumber.ge : JsNumber → JsNumber → Bool
  | .nan, _ => false
  | _, .nan => false
  | .infinity false, _ => true
  | .infinity true, .infinity true => true
  | .infinity true, _ => false
  | .finite _, .infinity negative => negative
  | .finite a, .finite b => b.value ≤ a.value

/-- The white space and line ends that a conversion from text to number skips. -/
def isJsSpace (c : Char) : Bool :=
  c.toNat ∈ [0x09, 0x0A, 0x0B, 0x0C, 0x0D, 0x20, 0xA0, 0x1680, 0x2028, 0x2029, 0x202F, 0x205F,
    0x3000, 0xFEFF] || (0x2000 ≤ c.toNat && c.toNat ≤ 0x200A)

/-- A text without the white space at its ends. -/
def trim (cs : List Char) : List Char :=
  ((cs.dropWhile isJsSpace).reverse.dropWhile isJsSpace).reverse

/-- The number that digits of a base denote, if there is a digit and every character is one. -/
def baseNumber (base : ℕ) (cs : List Char) : JsNumber :=
  match cs.mapM Json.hexVal with
  | some (d :: ds) =>
    if (d :: ds).all (· < base) then .finite (.ofInt ((d :: ds).foldl (fun n d => base * n + d) 0))
    else .nan
  | _ => .nan

/-- A decimal literal of the language with its sign already read: `Infinity`, or digits with an
optional point, before or after which there may be none, and an optional exponent. -/
def unsignedNumber (negative : Bool) (cs : List Char) : JsNumber :=
  if cs = "Infinity".toList then .infinity negative
  else
    let int := (Json.spanDigits cs).1
    let (frac, rest) := match (Json.spanDigits cs).2 with
      | '.' :: cs => Json.spanDigits cs
      | cs => ([], cs)
    if int = [] ∧ frac = [] then .nan
    else
      match Json.parseExp rest with
      | some (exp, []) => .finite ⟨negative, Decimal.ofDigits int, frac, exp⟩
      | _ => .nan

/-- The number that a text is converted to. -/
def textToNumber (cs : List Char) : JsNumber :=
  match trim cs with
  | [] => .finite (.ofInt 0)
  | '0' :: 'x' :: cs => baseNumber 16 cs
  | '0' :: 'X' :: cs => baseNumber 16 cs
  | '0' :: 'o' :: cs => baseNumber 8 cs
  | '0' :: 'O' :: cs => baseNumber 8 cs
  | '0' :: 'b' :: cs => baseNumber 2 cs
  | '0' :: 'B' :: cs => baseNumber 2 cs
  | '-' :: cs => unsignedNumber true cs
  | '+' :: cs => unsignedNumber false cs
  | cs => unsignedNumber false cs

/-- The integer that the text starts with; `none` is `NaN`. `parseInt(s)` rounds it to a double, which
changes no safe integer. -/
def parseInt (s : String) : Option ℤ :=
  let signed : Bool × List Char := match s.toList.dropWhile isJsSpace with
    | '-' :: cs => (true, cs)
    | '+' :: cs => (false, cs)
    | cs => (false, cs)
  let n : Option ℕ := match signed.2 with
    | '0' :: 'x' :: cs => hexPart cs
    | '0' :: 'X' :: cs => hexPart cs
    | cs => if (Json.spanDigits cs).1 = [] then none else some (Decimal.ofDigits (Json.spanDigits cs).1)
  n.map fun n => if signed.1 then -(n : ℤ) else n
where
  /-- The hexadecimal number that a text starts with. -/
  hexPart (cs : List Char) : Option ℕ :=
    match cs.map Json.hexVal |>.takeWhile Option.isSome with
    | [] => none
    | ds => some (ds.foldl (fun n d => 16 * n + d.getD 0) 0)

namespace Json

/-! ## Truth and properties -/

/-- The truth value of a parsed value. -/
def truthy : Json → Bool
  | .null => false
  | .bool b => b
  | .num d => d.value ≠ 0
  | .str s => s ≠ ""
  | .arr _ => true
  | .obj _ => true

/-- An own property of an object, among its members. -/
def lookup (ps : List (String × Json)) (name : String) : Option Json := ps.reverse.lookup name

/-- The property `name` of a parsed value, for a name that no prototype has; `none` is
`undefined`. -/
def prop : Json → String → Option Json
  | .obj ps, name => lookup ps name
  | _, _ => none

/-- The truth value of what reading a property gave. -/
def propTruthy (j : Json) (name : String) : Bool := ((j.prop name).map truthy).getD false

/-! ## Conversion to a number -/

mutual

/-- The text that a parsed value is converted to. An array joins its elements with commas; an
object with a `toString` of its own has no callable one. -/
def toText : Json → Except Exn (List Char)
  | .null => .ok "null".toList
  | .bool b => .ok (if b then "true".toList else "false".toList)
  | .num d => .ok (numChars d)
  | .str s => .ok s.toList
  | .arr xs => joinText xs
  | .obj ps => if (lookup ps "toString").isSome then .error .typeError else .ok "[object Object]".toList

/-- The elements of an array joined with commas; `null` is joined as the empty text. -/
def joinText : List Json → Except Exn (List Char)
  | [] => .ok []
  | x :: xs => do
    let head ← elemText x
    let rest ← joinText xs
    return if xs.isEmpty then head else head ++ ',' :: rest

/-- An element's part of the joined text. -/
def elemText : Json → Except Exn (List Char)
  | .null => .ok []
  | .bool b => .ok (if b then "true".toList else "false".toList)
  | .num d => .ok (numChars d)
  | .str s => .ok s.toList
  | .arr xs => joinText xs
  | .obj ps => if (lookup ps "toString").isSome then .error .typeError else .ok "[object Object]".toList

end

mutual

/-- A parsed value can be converted to a text: no object in it has a `toString` of its own. Only
arrays convert what is in them. -/
def hasText : Json → Bool
  | .arr xs => allHaveText xs
  | .obj ps => (lookup ps "toString").isNone
  | _ => true

/-- The elements of an array can be converted to texts. -/
def allHaveText : List Json → Bool
  | [] => true
  | x :: xs => hasText x && allHaveText xs

end

/-- An element's part is its text, but for `null`, which has both. -/
theorem elemText_isOk (j : Json) :
    (∃ cs, elemText j = .ok cs) ↔ ∃ cs, toText j = .ok cs := by
  cases j with
  | null => exact ⟨fun _ => ⟨_, by rw [toText]⟩, fun _ => ⟨_, by rw [elemText]⟩⟩
  | _ => rw [elemText, toText]

/-- The elements' texts are joined exactly if each has one. -/
theorem joinText_cons_isOk (x : Json) (xs : List Json) :
    (∃ cs, joinText (x :: xs) = .ok cs) ↔
      (∃ cs, toText x = .ok cs) ∧ ∃ cs, joinText xs = .ok cs := by
  rw [joinText, ← elemText_isOk]
  rcases elemText x with e | head <;> rcases joinText xs with e' | rest <;>
    simp [bind, Except.bind, pure, Except.pure]

mutual

theorem toText_isOk : ∀ j : Json, (∃ cs, toText j = .ok cs) ↔ j.hasText = true
  | .null | .bool _ | .num _ | .str _ => by simp [toText, hasText]
  | .arr xs => by
    rw [toText, hasText]
    exact joinText_isOk xs
  | .obj ps => by
    rw [toText, hasText]
    cases lookup ps "toString" <;> simp

theorem joinText_isOk : ∀ xs : List Json, (∃ cs, joinText xs = .ok cs) ↔ allHaveText xs = true
  | [] => by simp [joinText, allHaveText]
  | x :: xs => by
    rw [joinText_cons_isOk, allHaveText, Bool.and_eq_true, toText_isOk x, joinText_isOk xs]

end

/-- The number that a property's value is converted to, `undefined` included. -/
def toNumber : Option Json → Except Exn JsNumber
  | none => .ok .nan
  | some .null => .ok (.finite (.ofInt 0))
  | some (.bool b) => .ok (.finite (.ofInt (if b then 1 else 0)))
  | some (.num d) => .ok (.finite d)
  | some j => (toText j).map textToNumber

/-- `a >= b` for a property's value `a` and a number `b`: both sides are compared as numbers. -/
def geNumber (a : Option Json) (b : Decimal) : Except Exn Bool :=
  (toNumber a).map fun n => n.ge (.finite b)

/-- The comparison does not throw exactly if the value can be converted. -/
theorem geNumber_isOk (a : Option Json) (b : Decimal) :
    (∃ r, geNumber a b = .ok r) ↔ ∀ j ∈ a, j.hasText = true := by
  -- A string, an array, and an object are converted to a number by their text.
  have htext : ∀ j : Json, toNumber (some j) = (toText j).map textToNumber →
      ((∃ r, geNumber (some j) b = .ok r) ↔ ∀ j' ∈ some j, j'.hasText = true) := by
    intro j hj
    have hmap : (∃ r, geNumber (some j) b = .ok r) ↔ ∃ cs, toText j = .ok cs := by
      rw [geNumber, hj]
      cases toText j <;> simp [Except.map]
    rw [hmap, toText_isOk]
    simp
  rcases a with _ | (_ | _ | _ | s | xs | ps)
  case some.str => exact htext (.str s) rfl
  case some.arr => exact htext (.arr xs) rfl
  case some.obj => exact htext (.obj ps) rfl
  all_goals exact ⟨fun _ j hj => by cases hj <;> rfl, fun _ => ⟨_, rfl⟩⟩

/-- Whether an object may be the prototype of another. -/
def isPrototype : Json → Bool
  | .null => true
  | .arr _ => true
  | .obj _ => true
  | _ => false

/-! ## Items -/

/-- The version of a value that is an object with an integer `version`. -/
def itemVersion (j : Json) : Option ℤ :=
  match j.prop "version" with
  | some (.num d) => d.toInt?
  | _ => none

/-- A value with a version is an object. -/
theorem truthy_of_itemVersion {j : Json} {v : ℤ} (h : j.itemVersion = some v) :
    j.truthy = true := by
  cases j <;> simp [itemVersion, prop] at h ⊢
  rfl

/-- Comparing an item's version with an integer compares the integers. -/
theorem geNumber_itemVersion {j : Json} {v w : ℤ} (h : j.itemVersion = some v) :
    geNumber (j.prop "version") (.ofInt w) = .ok (decide (w ≤ v)) := by
  unfold itemVersion at h
  split at h
  · next d hd =>
    have hv := Decimal.toInt?_eq_some.1 h
    rw [hd]
    simp [geNumber, toNumber, Except.map, JsNumber.ge, hv]
  · cases h

end Json

/-! ## Values to print -/

/-- A value that a program hands to `JSON.stringify`: one that JSON can express, or one on which it
throws, as a cycle or a BigInt does. -/
inductive JsValue where
  | json (j : Json)
  | unserializable

/-- `JSON.stringify`. -/
def JsValue.stringify : JsValue → Except Exn String
  | .json j => .ok j.stringify
  | .unserializable => .error .typeError

/-! ## Object literals -/

/-- An object built from `{}`: its own properties, and its prototype where it is no longer the
initial one. -/
structure PlainObject (α : Type) where
  /-- The own properties. -/
  own : AList fun _ : String => α
  /-- The prototype that was assigned, if any. -/
  prototype : Option α

/-- `{}` -/
def PlainObject.empty {α : Type} : PlainObject α := ⟨∅, none⟩

/-- `o[k] = v`. The inherited accessor `__proto__` takes the assignment of that name: it sets the
prototype to an object or `null`, ignores any other value, and never makes an own property. -/
def PlainObject.assign {α : Type} (isPrototype : α → Bool) (o : PlainObject α) (k : String) (v : α) :
    PlainObject α :=
  if k = "__proto__" then if isPrototype v then { o with prototype := some v } else o
  else { o with own := o.own.insert k v }

/-- Only `__proto__` is not assigned as an own property. -/
theorem PlainObject.lookup_assign {α : Type} (isPrototype : α → Bool) (o : PlainObject α)
    (k : String) (v : α) (name : String) :
    (o.assign isPrototype k v).own.lookup name =
      if k = "__proto__" then o.own.lookup name
      else if name = k then some v else o.own.lookup name := by
  unfold assign
  split_ifs with hk hp hname
  · rfl
  · rfl
  · subst hname
    exact AList.lookup_insert _
  · exact AList.lookup_insert_ne hname

/-- The loop that assigns a converted value for each entry: `o[k] = f(v)`. -/
def PlainObject.assignAll {α β : Type} (isPrototype : β → Bool) (f : α → Except Exn β)
    (entries : List (Sigma fun _ : String => α)) (o : PlainObject β) :
    Except Exn (PlainObject β) :=
  entries.foldlM (fun o e => do
    let b ← f e.2
    return o.assign isPrototype e.1 b) o

/-- The loop does not throw exactly if no conversion does. -/
theorem PlainObject.assignAll_isOk {α β : Type} (isPrototype : β → Bool) (f : α → Except Exn β)
    (entries : List (Sigma fun _ : String => α)) (o : PlainObject β) :
    (∃ o', assignAll isPrototype f entries o = .ok o') ↔ ∀ e ∈ entries, ∃ b, f e.2 = .ok b := by
  unfold assignAll
  induction entries generalizing o with
  | nil => simp [pure, Except.pure]
  | cons e entries ih =>
    rw [List.foldlM_cons, List.forall_mem_cons]
    cases h : f e.2 with
    | error x => simp [bind, Except.bind]
    | ok b =>
      simp only [bind, Except.bind, pure, Except.pure, Except.ok.injEq, exists_eq', true_and] at ih ⊢
      exact ih (o.assign isPrototype e.1 b)

/-- The own properties after the loop, over entries with distinct names: each entry's converted
value, save that `__proto__` never becomes a property. -/
theorem PlainObject.lookup_assignAll {α β : Type} {isPrototype : β → Bool} {f : α → Except Exn β}
    {entries : List (Sigma fun _ : String => α)} (hnd : entries.NodupKeys) {o o' : PlainObject β}
    (h : assignAll isPrototype f entries o = .ok o') (name : String) :
    o'.own.lookup name =
      if name = "__proto__" then o.own.lookup name
      else match entries.dlookup name with
        | some v => (f v).toOption
        | none => o.own.lookup name := by
  unfold assignAll at h
  induction entries generalizing o with
  | nil =>
    obtain rfl : o = o' := by simpa [pure, Except.pure] using h
    simp
  | cons e entries ih =>
    obtain ⟨k, v⟩ := e
    rw [List.foldlM_cons] at h
    cases hf : f v with
    | error x => simp [hf, bind, Except.bind] at h
    | ok b =>
      simp only [hf, bind, Except.bind, pure, Except.pure] at h ih
      have hk : k ∉ entries.keys := (List.nodupKeys_cons.1 hnd).1
      rw [ih (List.nodupKeys_cons.1 hnd).2 h, lookup_assign]
      -- The entry is assigned to `__proto__`, under this name, or under another one.
      by_cases hp : name = "__proto__"
      · subst hp
        by_cases hkp : k = "__proto__" <;> simp [hkp, eq_comm]
      · by_cases hn : name = k
        · subst hn
          rw [List.dlookup_cons_eq, List.dlookup_eq_none.2 hk]
          simp [hp, hf, Except.toOption]
        · rw [List.dlookup_cons_ne _ _ hn]
          simp only [hp, if_false, hn]
          by_cases hkp : k = "__proto__" <;> simp [hkp]

/-! ## Integers and their texts -/

/-- The characters of an integer's text: its digits, after a sign if it is negative. -/
theorem toList_toString (n : ℤ) :
    (toString n).toList = (if n < 0 then ['-'] else []) ++ Nat.toDigits 10 n.natAbs := by
  cases n with
  | ofNat m =>
    show (Nat.repr m).toList = _
    have hpos : ¬ (Int.ofNat m < 0) := not_lt.2 (Int.natCast_nonneg m)
    rw [if_neg hpos]
    simp [Nat.repr]
  | negSucc m =>
    show ("-" ++ Nat.repr (m + 1)).toList = _
    rw [if_pos (Int.negSucc_lt_zero m)]
    simp [Nat.repr]

/-- A digit is no white space. -/
theorem isJsSpace_of_isDigit {c : Char} (hc : c.isDigit = true) : isJsSpace c = false := by
  simp only [Char.isDigit, ge_iff_le, Bool.and_eq_true, decide_eq_true_eq] at hc
  have h1 : 48 ≤ c.toNat := hc.1
  have h2 : c.toNat ≤ 57 := hc.2
  simp [isJsSpace]
  omega

/-- The digits of a number are read as the number. -/
theorem parseInt_digits (cs : List Char) : (∀ c ∈ cs, c.isDigit = true) → cs ≠ [] →
    (match cs with
      | '0' :: 'x' :: cs => parseInt.hexPart cs
      | '0' :: 'X' :: cs => parseInt.hexPart cs
      | cs => if (Json.spanDigits cs).1 = [] then none
        else some (Decimal.ofDigits (Json.spanDigits cs).1)) =
      some (Decimal.ofDigits (cs.map Json.digitVal)) := by
  intro hcs hne
  have hspan : Json.spanDigits cs = (cs.map Json.digitVal, []) := by
    have hrest : ∀ c ∈ ([] : List Char).head?, c.isDigit = false := by simp
    have happend := Json.spanDigits_append hcs hrest
    rwa [List.append_nil] at happend
  split
  · have hx := hcs 'x' (by simp)
    cases hx
  · have hx := hcs 'X' (by simp)
    cases hx
  · rw [hspan, if_neg (by simpa using hne)]

/-- An integer is read back from its text. -/
theorem parseInt_toString (n : ℤ) : parseInt (toString n) = some n := by
  have hdigits := Json.isDigit_toDigits n.natAbs
  have hne : Nat.toDigits 10 n.natAbs ≠ [] := Nat.toDigits_ne_nil
  have hread := parseInt_digits _ hdigits hne
  rw [Json.ofDigits_toDigits] at hread
  unfold parseInt
  rw [toList_toString]
  by_cases hn : n < 0
  · rw [if_pos hn]
    have habs : -(n.natAbs : ℤ) = n := by omega
    refine (congrArg (fun o : Option ℕ =>
      Option.map (fun m : ℤ => -m) (o.bind fun a => some (a : ℤ))) hread).trans ?_
    exact congrArg some habs
  · rw [if_neg hn, List.nil_append]
    obtain ⟨c, cs, hcs⟩ := List.exists_cons_of_ne_nil hne
    rw [hcs] at hread ⊢
    have hc : c.isDigit = true := hdigits c (by rw [hcs]; exact List.mem_cons_self)
    have hdrop : List.dropWhile isJsSpace (c :: cs) = c :: cs := by
      rw [List.dropWhile_cons, isJsSpace_of_isDigit hc]
      rfl
    have habs : (n.natAbs : ℤ) = n := by omega
    rw [hdrop]
    dsimp only
    split
    · next heq =>
      obtain ⟨rfl, -⟩ := List.cons.inj heq
      cases hc
    · next heq =>
      obtain ⟨rfl, -⟩ := List.cons.inj heq
      cases hc
    · refine (congrArg (fun o : Option ℕ =>
        Option.map (fun m : ℤ => m) (o.bind fun a => some (a : ℤ))) hread).trans ?_
      exact congrArg some habs

end RedisStore
