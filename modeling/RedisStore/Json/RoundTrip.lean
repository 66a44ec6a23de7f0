import Mathlib.Tactic
import RedisStore.Json.Text

/-!
# Parsing inverts printing

`parse_stringify`: the parser reads back every value from its own text. The parser is the recursive
descent of `Json/Text.lean`, whose fuel is the length of the text. The proof goes bottom up, through
digits, numbers (`parseNumber_numChars`), strings (`parseString_quote`), and then the values
by induction on the fuel (`readBack`). A number has no closing character, so that what comes
after it must not continue it (`Ends`).
-/

namespace RedisStore.Json

/-- The text does not start with a character that continues a number. -/
def Ends (cs : List Char) : Prop :=
  ∀ c ∈ cs.head?, c.isDigit = false ∧ c ≠ '.' ∧ c ≠ 'e' ∧ c ≠ 'E'

theorem ends_nil : Ends [] := by simp [Ends]

/-! ## Digits -/

/-- The digits at the start of a text are taken whole. -/
theorem spanDigits_append {ds rest : List Char} (hds : ∀ c ∈ ds, c.isDigit = true)
    (hrest : ∀ c ∈ rest.head?, c.isDigit = false) :
    spanDigits (ds ++ rest) = (ds.map digitVal, rest) := by
  induction ds with
  | nil =>
    cases rest with
    | nil => rfl
    | cons c cs => simp [spanDigits, hrest c rfl]
  | cons d ds ih =>
    have hd : d.isDigit = true := hds d (by simp)
    have ih := ih fun c hc => hds c (by simp [hc])
    simp [spanDigits, hd, ih]

/-- A digit's character is read back as the digit. -/
theorem digitVal_digitChar : ∀ d : Fin 10, digitVal (Nat.digitChar d.val) = d := by decide

/-- A digit is written as a digit. -/
theorem isDigit_digitChar : ∀ d : Fin 10, (Nat.digitChar d.val).isDigit = true := by decide

/-- The value of a digit's character, as the core library computes it. -/
theorem digitVal_val {c : Char} (hc : c.isDigit = true) : (digitVal c).val = c.toNat - '0'.toNat := by
  simp only [Char.isDigit, ge_iff_le, Bool.and_eq_true, decide_eq_true_eq] at hc
  have h : c.toNat ≤ 57 := hc.2
  have h0 : '0'.toNat = 48 := rfl
  simp only [digitVal, Fin.ofNat, h0]
  omega

/-- Digits denote the number that the core library reads from them. -/
theorem ofDigits_map_digitVal {cs : List Char} (hcs : ∀ c ∈ cs, c.isDigit = true) :
    Decimal.ofDigits (cs.map digitVal) = Nat.ofDigitChars 10 cs 0 := by
  rw [Nat.ofDigitChars_eq_foldl, Decimal.ofDigits, List.foldl_map]
  apply List.foldl_ext
  intro n c hc
  rw [digitVal_val (hcs c hc)]

/-- The digits of a number are digits. -/
theorem isDigit_toDigits (n : ℕ) : ∀ c ∈ Nat.toDigits 10 n, c.isDigit = true :=
  fun _ hc => Nat.isDigit_of_mem_toDigits (by omega) (by omega) hc

/-- The digits of a number denote it. -/
theorem ofDigits_toDigits (n : ℕ) : Decimal.ofDigits ((Nat.toDigits 10 n).map digitVal) = n := by
  rw [ofDigits_map_digitVal (isDigit_toDigits n), Nat.ofDigitChars_ten_toDigits]

/-- The digits of a number are read back, up to a character that is not a digit. -/
theorem spanDigits_toDigits (n : ℕ) {rest : List Char}
    (hrest : ∀ c ∈ rest.head?, c.isDigit = false) :
    spanDigits (Nat.toDigits 10 n ++ rest) = ((Nat.toDigits 10 n).map digitVal, rest) :=
  spanDigits_append (isDigit_toDigits n) hrest

/-- The first digit of a number with more than one digit is not zero. -/
theorem head_toDigits_ne_zero (n : ℕ) (h : (Nat.toDigits 10 n).length ≠ 1) :
    ((Nat.toDigits 10 n).map digitVal).head? ≠ some 0 := by
  induction n using Nat.strong_induction_on with
  | _ n ih =>
    have hn : 10 ≤ n := by
      by_contra hlt
      rw [Nat.toDigits_of_lt_base (by omega)] at h
      exact h rfl
    rw [Nat.toDigits_of_base_le (by omega) hn, List.map_append]
    -- The first digit is that of `n / 10`, which is a digit itself or has more than one.
    by_cases h1 : (Nat.toDigits 10 (n / 10)).length = 1
    · have hlt : n / 10 < 10 := by
        have := (Nat.length_toDigits_le_iff (n := n / 10) (b := 10) (k := 1) (by omega)
          (by omega)).1 (by omega)
        simpa using this
      rw [Nat.toDigits_of_lt_base hlt]
      have hv := digitVal_digitChar ⟨n / 10, hlt⟩
      simp only at hv
      simp only [List.map_cons, List.map_nil, hv, List.cons_append, List.head?_cons, ne_eq,
        Option.some.injEq, Fin.ext_iff]
      show ¬ n / 10 = 0
      omega
    · rw [List.head?_append_of_ne_nil _ (by simp [Nat.toDigits_ne_nil])]
      exact ih (n / 10) (by omega) h1

/-! ## Numbers -/

/-- The exponent part is read back. -/
theorem parseExp_expChars (e : ℤ) {rest : List Char} (hrest : Ends rest) :
    parseExp (expChars e ++ rest) = some (e, rest) := by
  have hd : ∀ c ∈ rest.head?, c.isDigit = false := fun c hc => (hrest c hc).1
  unfold expChars
  split_ifs with h0 hneg
  · subst h0
    cases rest with
    | nil => rfl
    | cons c cs =>
      obtain ⟨-, -, he, hE⟩ := hrest c rfl
      simp [parseExp, he, hE]
  · simp only [List.cons_append, parseExp, decide_true, Bool.true_or, if_true, parseExpDigits,
      spanDigits_toDigits _ hd, List.map_eq_nil_iff, Nat.toDigits_ne_nil, if_false,
      ofDigits_toDigits, Option.some.injEq, Prod.mk.injEq, and_true]
    omega
  · simp only [List.cons_append, parseExp, decide_true, Bool.true_or, if_true, parseExpDigits,
      spanDigits_toDigits _ hd, List.map_eq_nil_iff, Nat.toDigits_ne_nil, if_false,
      ofDigits_toDigits, Option.some.injEq, Prod.mk.injEq, and_true, Bool.false_eq_true]
    omega

/-- The fraction is read back, up to what is not a digit. -/
theorem parseFrac_fracChars (ds : List (Fin 10)) {rest : List Char}
    (hd : ∀ c ∈ rest.head?, c.isDigit = false ∧ c ≠ '.') :
    parseFrac (fracChars ds ++ rest) = some (ds, rest) := by
  unfold fracChars
  split_ifs with h0
  · subst h0
    cases rest with
    | nil => rfl
    | cons c cs => simp [parseFrac, (hd c rfl).2]
  · have hspan : spanDigits (ds.map (fun d => Nat.digitChar d.val) ++ rest) = (ds, rest) := by
      rw [spanDigits_append _ fun c hc => (hd c hc).1]
      · simp [Function.comp_def, digitVal_digitChar]
      · intro c hc
        obtain ⟨d, -, rfl⟩ := List.mem_map.mp hc
        exact isDigit_digitChar d
    simp [parseFrac, hspan, h0]

/-- An exponent part starts with no digit and no point, and neither does what follows a number. -/
theorem head_expChars (e : ℤ) {rest : List Char} (hrest : Ends rest) :
    ∀ c ∈ (expChars e ++ rest).head?, c.isDigit = false ∧ c ≠ '.' := by
  unfold expChars
  split_ifs
  · exact fun c hc => ⟨(hrest c hc).1, (hrest c hc).2.1⟩
  all_goals
    intro c hc
    obtain rfl : 'e' = c := by simpa using hc
    decide

/-- A fraction starts with no digit, and neither does what follows it. -/
theorem head_fracChars (ds : List (Fin 10)) {rest : List Char}
    (hrest : ∀ c ∈ rest.head?, c.isDigit = false ∧ c ≠ '.') :
    ∀ c ∈ (fracChars ds ++ rest).head?, c.isDigit = false := by
  unfold fracChars
  split_ifs
  · exact fun c hc => (hrest c hc).1
  · intro c hc
    obtain rfl : '.' = c := by simpa using hc
    decide

/-- A number without its sign is read back. -/
theorem parseUnsigned_chars (d : Decimal) {rest : List Char} (hrest : Ends rest) :
    parseUnsigned d.negative
      (Nat.toDigits 10 d.int ++ (fracChars d.frac ++ (expChars d.exp ++ rest))) = some (d, rest) := by
  have hexp := head_expChars d.exp hrest
  -- The integer part has no leading zero, so that the parser accepts it.
  have hlead : (((Nat.toDigits 10 d.int).map digitVal).head? = some 0 &&
      ((Nat.toDigits 10 d.int).map digitVal).length ≠ 1) = false := by
    rw [Bool.and_eq_false_imp, decide_eq_true_eq, decide_eq_false_iff_not, List.length_map]
    exact fun hz hl => head_toDigits_ne_zero d.int hl hz
  simp only [parseUnsigned, spanDigits_toDigits _ (head_fracChars d.frac hexp), hlead,
    List.map_eq_nil_iff, Nat.toDigits_ne_nil, decide_false, Bool.or_self, Bool.false_eq_true,
    if_false, parseFrac_fracChars _ hexp, Option.bind_eq_bind, Option.bind_some,
    parseExp_expChars _ hrest, ofDigits_toDigits]

/-- A number starts with a sign or a digit. -/
theorem numChars_cons (d : Decimal) :
    ∃ c cs, numChars d = c :: cs ∧ (c = '-' ∨ c.isDigit = true) := by
  unfold numChars
  cases d.negative with
  | true => exact ⟨'-', _, rfl, .inl rfl⟩
  | false =>
    cases h : Nat.toDigits 10 d.int with
    | nil => exact absurd h Nat.toDigits_ne_nil
    | cons c cs => exact ⟨c, _, rfl, .inr (isDigit_toDigits d.int c (by simp [h]))⟩

/-- A number is read back. -/
theorem parseNumber_numChars (d : Decimal) {rest : List Char} (hrest : Ends rest) :
    parseNumber (numChars d ++ rest) = some (d, rest) := by
  have hu := parseUnsigned_chars d hrest
  unfold numChars
  cases hneg : d.negative with
  | true =>
    rw [hneg] at hu
    simpa [parseNumber] using hu
  | false =>
    rw [hneg] at hu
    cases h : Nat.toDigits 10 d.int with
    | nil => exact absurd h Nat.toDigits_ne_nil
    | cons c cs =>
      have hc : c.isDigit = true := isDigit_toDigits d.int c (by simp [h])
      -- A digit is no sign, so that the number is read as unsigned.
      have hminus : c ≠ '-' := by rintro rfl; exact absurd hc (by decide)
      rw [h] at hu
      simpa [parseNumber, hminus] using hu

/-! ## Strings -/

/-- A control character without a short escape is read back from its code unit. -/
theorem hex4_escape : ∀ n < 32, hex4 '0' '0' (hexDigit (n / 16)) (hexDigit (n % 16)) = some n := by
  decide

/-- A string's character is read back from its escape. -/
theorem parseChars_escape (c : Char) (fuel : ℕ) (cs : List Char) :
    parseChars (fuel + 1) (escape c ++ cs) =
      (parseChars fuel cs).map fun r => (c :: r.1, r.2) := by
  unfold escape
  split_ifs with h1 h2 h3 h4 h5 h6 h7 h8
  · subst h1; simp [parseChars, unescape]
  · subst h2; simp [parseChars, unescape]
  · subst h3; simp [parseChars, unescape]
  · subst h4; simp [parseChars, unescape]
  · subst h5; simp [parseChars, unescape]
  · subst h6; simp [parseChars, unescape]
  · subst h7; simp [parseChars, unescape]
  · -- No surrogate is below 32, so the code unit is the character.
    have hhex := hex4_escape c.toNat h8
    have hsur : ¬ (0xD800 ≤ c.toNat ∧ c.toNat ≤ 0xDBFF) := by omega
    have hchar : unitChar c.toNat = c := by
      rw [unitChar, if_neg (by omega), Char.ofNat_toNat]
    simp [parseChars, hhex, hsur, hchar]
  · simp [parseChars, h1, h2, h8]

/-- The escapes of a string, with the closing quote, are read back. -/
theorem parseChars_flatMap (s rest : List Char) (fuel : ℕ) (hfuel : s.length < fuel) :
    parseChars fuel (s.flatMap escape ++ '"' :: rest) = some (s, rest) := by
  induction s generalizing fuel with
  | nil =>
    obtain ⟨fuel, rfl⟩ := Nat.exists_eq_add_of_lt hfuel
    simp [parseChars]
  | cons c s ih =>
    obtain ⟨fuel, rfl⟩ : ∃ k, fuel = k + 1 := ⟨fuel - 1, by simp at hfuel; omega⟩
    have ih := ih fuel (by simpa using hfuel)
    rw [List.flatMap_cons, List.append_assoc, parseChars_escape, ih]
    rfl

/-- An escape has at least one character. -/
theorem length_escape_pos (c : Char) : 1 ≤ (escape c).length := by
  unfold escape
  split_ifs <;> simp

/-- Escaping does not shorten a string. -/
theorem length_le_flatMap_escape (s : List Char) : s.length ≤ (s.flatMap escape).length := by
  induction s with
  | nil => simp
  | cons c s ih =>
    have := length_escape_pos c
    simp only [List.length_cons, List.flatMap_cons, List.length_append]
    omega

/-- A string is read back, after its opening quote. -/
theorem parseString_quote (s : String) (rest : List Char) :
    parseString ((quote s).tail ++ rest) = some (s, rest) := by
  -- The fuel is the length of the text, and escaping does not shorten it.
  have hlen := length_le_flatMap_escape s.toList
  simp only [quote, List.tail_cons, List.append_assoc, List.singleton_append, parseString]
  rw [parseChars_flatMap _ _ _ (by simp only [List.length_append]; omega)]
  simp

/-! ## Values -/

/-- White space is skipped only where there is some. -/
theorem skipSpace_cons {c : Char} (hc : isSpace c = false) (cs : List Char) :
    skipSpace (c :: cs) = c :: cs := by
  simp [skipSpace, hc]

/-- A digit or a sign is none of the characters that start another kind of value. -/
theorem number_start {c : Char} (hc : c = '-' ∨ c.isDigit = true) :
    isSpace c = false ∧ c ≠ '"' ∧ c ≠ '[' ∧ c ≠ '{' ∧ c ≠ 'n' ∧ c ≠ 't' ∧ c ≠ 'f' ∧ c ≠ ']' ∧
      c ≠ '}' := by
  rcases hc with rfl | hc
  · decide
  · refine ⟨?_, ?_, ?_, ?_, ?_, ?_, ?_, ?_, ?_⟩
    · simp only [isSpace, Bool.or_eq_false_iff, decide_eq_false_iff_not]
      refine ⟨⟨⟨?_, ?_⟩, ?_⟩, ?_⟩ <;> (rintro rfl; exact absurd hc (by decide))
    all_goals (rintro rfl; exact absurd hc (by decide))

/-- A value's text starts with a character that is not white space and closes nothing. -/
theorem chars_cons (j : Json) :
    ∃ c cs, chars j = c :: cs ∧ isSpace c = false ∧ c ≠ ']' ∧ c ≠ '}' := by
  cases j with
  | null => exact ⟨_, _, by rw [chars], by decide⟩
  | bool b => cases b <;> exact ⟨_, _, by rw [chars], by decide⟩
  | num d =>
    obtain ⟨c, cs, h, hc⟩ := numChars_cons d
    obtain ⟨hs, -, -, -, -, -, -, h1, h2⟩ := number_start hc
    exact ⟨c, cs, by rw [chars, h], hs, h1, h2⟩
  | str s => exact ⟨_, _, by rw [chars, quote], by decide⟩
  | arr xs => cases xs <;> exact ⟨_, _, by rw [chars], by decide⟩
  | obj ps => rcases ps with _ | ⟨⟨k, x⟩, ps⟩ <;> exact ⟨_, _, by rw [chars], by decide⟩

/-- A member's name and its colon are read back. -/
theorem parseKey_quote (k : String) (rest : List Char) :
    parseKey (quote k ++ ':' :: rest) = some (k, rest) := by
  have hs := parseString_quote k (':' :: rest)
  have hq : quote k ++ ':' :: rest = '"' :: ((quote k).tail ++ ':' :: rest) := rfl
  rw [hq, parseKey, skipSpace_cons (by decide)]
  simp only [hs, skipSpace_cons (show isSpace ':' = false by decide)]

/-- The continuation of an array cannot continue a number. -/
theorem ends_elemsChars (xs : List Json) (rest : List Char) : Ends (elemsChars xs ++ rest) := by
  cases xs <;> (rw [elemsChars]; simp [Ends])

/-- The continuation of an object cannot continue a number. -/
theorem ends_membersChars (ps : List (String × Json)) (rest : List Char) :
    Ends (membersChars ps ++ rest) := by
  rcases ps with _ | ⟨⟨k, x⟩, ps⟩ <;> (rw [membersChars]; simp [Ends])

/-- With this much fuel, the texts of values, of the elements of arrays, and of the members of objects
that are no longer are read back. -/
structure ReadBack (fuel : ℕ) : Prop where
  value : ∀ j rest, (chars j).length ≤ fuel → Ends rest →
    parseValue fuel (chars j ++ rest) = some (j, rest)
  elems : ∀ x xs rest, (chars x ++ elemsChars xs).length ≤ fuel →
    parseElems fuel (chars x ++ elemsChars xs ++ rest) = some (x :: xs, rest)
  members : ∀ k x ps rest, (quote k ++ ':' :: (chars x ++ membersChars ps)).length ≤ fuel →
    parseMembers fuel (quote k ++ ':' :: (chars x ++ membersChars ps) ++ rest) =
      some ((k, x) :: ps, rest)

/-- Without fuel there is no text to read. -/
theorem ReadBack.zero : ReadBack 0 := by
  refine ⟨fun j rest h => ?_, fun x xs rest h => ?_, fun k x ps rest h => ?_⟩
  · obtain ⟨c, cs, hc, -⟩ := chars_cons j
    simp [hc] at h
  · obtain ⟨c, cs, hc, -⟩ := chars_cons x
    simp [hc] at h
  · simp at h

/-- A value is read back by its first character. -/
theorem ReadBack.value_succ {fuel : ℕ} (h : ReadBack fuel) (j : Json) (rest : List Char)
    (hlen : (chars j).length ≤ fuel + 1) (hrest : Ends rest) :
    parseValue (fuel + 1) (chars j ++ rest) = some (j, rest) := by
  cases j with
  | null => simp [chars, parseValue, skipSpace, isSpace, parseName]
  | bool b => cases b <;> simp [chars, parseValue, skipSpace, isSpace, parseName]
  | num d =>
    -- A number is what no other first character announces.
    obtain ⟨c, cs, hc, hstart⟩ := numChars_cons d
    obtain ⟨hs, h1, h2, h3, h4, h5, h6, -, -⟩ := number_start hstart
    have hnum := parseNumber_numChars d hrest
    rw [hc, List.cons_append] at hnum
    simp [chars, hc, parseValue, skipSpace_cons hs, h1, h2, h3, h4, h5, h6, hnum]
  | str s =>
    have hs := parseString_quote s rest
    simp only [quote, List.tail_cons] at hs
    simp [chars, quote, parseValue, skipSpace_cons (show isSpace '"' = false by decide)] at hs ⊢
    simp [hs]
  | arr xs =>
    cases xs with
    | nil => simp [chars, parseValue, skipSpace, isSpace]
    | cons x xs =>
      -- The bracket takes one unit of fuel, and the element behind it does not close the array.
      obtain ⟨c, cs, hc, hsp, hclose, -⟩ := chars_cons x
      have hlen' : (chars x ++ elemsChars xs).length ≤ fuel := by
        simp only [chars, List.length_cons] at hlen
        omega
      have he := h.elems x xs rest hlen'
      rw [hc] at he
      simp only [List.cons_append, List.append_assoc] at he
      simp [chars, hc, parseValue, skipSpace_cons (show isSpace '[' = false by decide),
        skipSpace_cons hsp, hclose, he]
  | obj ps =>
    rcases ps with _ | ⟨⟨k, x⟩, ps⟩
    · simp [chars, parseValue, skipSpace, isSpace]
    · have hlen' : (quote k ++ ':' :: (chars x ++ membersChars ps)).length ≤ fuel := by
        simp only [chars, List.length_cons] at hlen
        omega
      have hm := h.members k x ps rest hlen'
      simp only [quote, List.cons_append, List.append_assoc, List.nil_append] at hm
      simp [chars, quote, parseValue, skipSpace_cons (show isSpace '{' = false by decide),
        skipSpace_cons (show isSpace '"' = false by decide), hm]

/-- The elements of an array are read back one by one. -/
theorem ReadBack.elems_succ {fuel : ℕ} (h : ReadBack fuel) (x : Json) (xs : List Json)
    (rest : List Char) (hlen : (chars x ++ elemsChars xs).length ≤ fuel + 1) :
    parseElems (fuel + 1) (chars x ++ elemsChars xs ++ rest) = some (x :: xs, rest) := by
  -- At least a bracket follows, so that the fuel is enough for the element.
  have hpos : 1 ≤ (elemsChars xs).length := by cases xs <;> simp [elemsChars]
  have hlen' : (chars x).length ≤ fuel := by
    rw [List.length_append] at hlen
    omega
  have hx := h.value x (elemsChars xs ++ rest) hlen' (ends_elemsChars xs rest)
  rw [List.append_assoc, parseElems, hx]
  cases xs with
  | nil => simp [elemsChars, skipSpace, isSpace]
  | cons y ys =>
    have hlen'' : (chars y ++ elemsChars ys).length ≤ fuel := by
      simp only [elemsChars, List.length_append, List.length_cons] at hlen ⊢
      omega
    have hys := h.elems y ys rest hlen''
    simp only [List.append_assoc] at hys
    simp [elemsChars, skipSpace_cons (show isSpace ',' = false by decide), hys]

/-- The members of an object are read back one by one. -/
theorem ReadBack.members_succ {fuel : ℕ} (h : ReadBack fuel) (k : String) (x : Json)
    (ps : List (String × Json)) (rest : List Char)
    (hlen : (quote k ++ ':' :: (chars x ++ membersChars ps)).length ≤ fuel + 1) :
    parseMembers (fuel + 1) (quote k ++ ':' :: (chars x ++ membersChars ps) ++ rest) =
      some ((k, x) :: ps, rest) := by
  have hlen' : (chars x).length ≤ fuel := by
    simp only [List.length_append, List.length_cons] at hlen
    omega
  have hx := h.value x (membersChars ps ++ rest) hlen' (ends_membersChars ps rest)
  rw [List.append_assoc, List.cons_append, parseMembers, parseKey_quote]
  simp only [List.append_assoc, hx]
  rcases ps with _ | ⟨⟨k', y⟩, ps⟩
  · simp [membersChars, skipSpace, isSpace]
  · have hlen'' : (quote k' ++ ':' :: (chars y ++ membersChars ps)).length ≤ fuel := by
      simp only [membersChars, List.length_append, List.length_cons] at hlen ⊢
      omega
    have hps := h.members k' y ps rest hlen''
    simp only [List.append_assoc, List.cons_append] at hps
    simp [membersChars, skipSpace_cons (show isSpace ',' = false by decide), hps]

/-- Any fuel is enough for the texts that are no longer. -/
theorem readBack (fuel : ℕ) : ReadBack fuel := by
  induction fuel with
  | zero => exact .zero
  | succ fuel ih => exact ⟨ih.value_succ, ih.elems_succ, ih.members_succ⟩

/-- `JSON.parse` reads back what `JSON.stringify` writes. -/
@[simp] theorem parse_stringify (j : Json) : parse j.stringify = some j := by
  have h := (readBack ((chars j).length + 1)).value j [] (by omega) ends_nil
  rw [List.append_nil] at h
  simp [parse, stringify, h, skipSpace]

end RedisStore.Json
