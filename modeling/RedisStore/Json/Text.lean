import Mathlib.Data.Rat.Defs
import Mathlib.Algebra.Field.Rat

/-!
# JSON values and their text

The values that `JSON.parse` returns, and the two built-in functions between values and text, with
the grammar of JSON. `stringify` prints as JavaScript does without an indent argument: no white
space, the short escapes where there are any, and `\u00xx` for the other control characters.
`parse` accepts the whole grammar (white space, every escape, every form of number) and rejects the
rest, where JavaScript throws a `SyntaxError`.

A number is kept as the decimal literal that was read. Each JavaScript number prints as one such
literal, so numbers are values of `Decimal`, and comparing them compares the rationals that they
denote; the rounding of a literal with more digits than a double holds is not modelled. Strings are
Lean's, so a lone surrogate escape is read as U+FFFD, which is what it becomes on the wire.
-/

namespace RedisStore

/-- A decimal literal: sign, integer part, the digits after the point, and the exponent. -/
structure Decimal where
  /-- Whether the literal starts with a minus sign. -/
  negative : Bool
  /-- The integer part. -/
  int : ℕ
  /-- The digits after the point; none when there is no point. -/
  frac : List (Fin 10)
  /-- The exponent; zero when there is none. -/
  exp : ℤ
deriving DecidableEq

namespace Decimal

/-- The number that a list of digits denotes, most significant first. -/
def ofDigits (ds : List (Fin 10)) : ℕ := ds.foldl (fun n d => 10 * n + d.val) 0

/-- The literal of an integer. -/
def ofInt (z : ℤ) : Decimal := ⟨decide (z < 0), z.natAbs, [], 0⟩

/-- The rational that a literal denotes. -/
def value (d : Decimal) : ℚ :=
  (if d.negative then -1 else 1) *
    (d.int * 10 ^ d.frac.length + ofDigits d.frac : ℕ) * (10 : ℚ) ^ (d.exp - d.frac.length)

/-- The integer that a literal denotes, if it denotes one. -/
def toInt? (d : Decimal) : Option ℤ := if d.value.den = 1 then some d.value.num else none

end Decimal

/-- A JSON value. The properties of an object are in the order of the text; a name that occurs
twice has its last value. -/
inductive Json where
  | null
  | bool (b : Bool)
  | num (d : Decimal)
  | str (s : String)
  | arr (xs : List Json)
  | obj (ps : List (String × Json))

namespace Json

/-! ## Printing -/

/-- The character of a hexadecimal digit, in lower case. -/
def hexDigit (n : ℕ) : Char := Nat.digitChar n

/-- A character of a string, as `JSON.stringify` writes it between the quotes. -/
def escape (c : Char) : List Char :=
  if c = '"' then ['\\', '"']
  else if c = '\\' then ['\\', '\\']
  else if c = '\x08' then ['\\', 'b']
  else if c = '\x0c' then ['\\', 'f']
  else if c = '\n' then ['\\', 'n']
  else if c = '\r' then ['\\', 'r']
  else if c = '\t' then ['\\', 't']
  else if c.toNat < 32 then ['\\', 'u', '0', '0', hexDigit (c.toNat / 16), hexDigit (c.toNat % 16)]
  else [c]

/-- A string with its quotes. -/
def quote (s : String) : List Char := '"' :: (s.toList.flatMap escape ++ ['"'])

/-- The exponent part of a number. -/
def expChars (e : ℤ) : List Char :=
  if e = 0 then []
  else 'e' :: (if e < 0 then '-' else '+') :: Nat.toDigits 10 e.natAbs

/-- The point and the digits after it. -/
def fracChars (ds : List (Fin 10)) : List Char :=
  if ds = [] then [] else '.' :: ds.map fun d => Nat.digitChar d.val

/-- A number. -/
def numChars (d : Decimal) : List Char :=
  (if d.negative then ['-'] else []) ++ Nat.toDigits 10 d.int ++ fracChars d.frac ++ expChars d.exp

mutual

/-- The text of a value. -/
def chars : Json → List Char
  | .null => ['n', 'u', 'l', 'l']
  | .bool true => ['t', 'r', 'u', 'e']
  | .bool false => ['f', 'a', 'l', 's', 'e']
  | .num d => numChars d
  | .str s => quote s
  | .arr [] => ['[', ']']
  | .arr (x :: xs) => '[' :: (chars x ++ elemsChars xs)
  | .obj [] => ['{', '}']
  | .obj ((k, x) :: ps) => '{' :: (quote k ++ ':' :: (chars x ++ membersChars ps))

/-- The rest of an array after its first element. -/
def elemsChars : List Json → List Char
  | [] => [']']
  | x :: xs => ',' :: (chars x ++ elemsChars xs)

/-- The rest of an object after its first member. -/
def membersChars : List (String × Json) → List Char
  | [] => ['}']
  | (k, x) :: ps => ',' :: (quote k ++ ':' :: (chars x ++ membersChars ps))

end

/-- `JSON.stringify` on a value that JSON can express. -/
def stringify (j : Json) : String := String.ofList j.chars

/-! ## Parsing -/

/-- The white space of JSON. -/
def isSpace (c : Char) : Bool := c = ' ' || c = '\t' || c = '\n' || c = '\r'

/-- The text after its leading white space. -/
def skipSpace (cs : List Char) : List Char := cs.dropWhile isSpace

/-- The value of a digit's character. -/
def digitVal (c : Char) : Fin 10 := Fin.ofNat 10 (c.toNat - 48)

/-- The digits that a text starts with, and the rest. -/
def spanDigits : List Char → List (Fin 10) × List Char
  | [] => ([], [])
  | c :: cs =>
    if c.isDigit then (digitVal c :: (spanDigits cs).1, (spanDigits cs).2) else ([], c :: cs)

/-- The fraction of a number, if there is a point; a point needs a digit after it. -/
def parseFrac : List Char → Option (List (Fin 10) × List Char)
  | [] => some ([], [])
  | c :: cs =>
    if c = '.' then if (spanDigits cs).1 = [] then none else some (spanDigits cs)
    else some ([], c :: cs)

/-- The digits of an exponent, with the sign already read; there must be one. -/
def parseExpDigits (negative : Bool) (cs : List Char) : Option (ℤ × List Char) :=
  if (spanDigits cs).1 = [] then none
  else
    let n : ℤ := Decimal.ofDigits (spanDigits cs).1
    some (if negative then -n else n, (spanDigits cs).2)

/-- The exponent of a number, if there is one. -/
def parseExp : List Char → Option (ℤ × List Char)
  | [] => some (0, [])
  | c :: cs =>
    if c = 'e' || c = 'E' then
      match cs with
      | '-' :: cs => parseExpDigits true cs
      | '+' :: cs => parseExpDigits false cs
      | cs => parseExpDigits false cs
    else some (0, c :: cs)

/-- A number without its sign. The integer part is `0` or does not start with `0`. -/
def parseUnsigned (negative : Bool) (cs : List Char) : Option (Decimal × List Char) :=
  let ds := (spanDigits cs).1
  if ds = [] || (ds.head? = some 0 && ds.length ≠ 1) then none
  else do
    let (frac, cs) ← parseFrac (spanDigits cs).2
    let (exp, cs) ← parseExp cs
    some (⟨negative, Decimal.ofDigits ds, frac, exp⟩, cs)

/-- A number. -/
def parseNumber : List Char → Option (Decimal × List Char)
  | [] => none
  | c :: cs => if c = '-' then parseUnsigned true cs else parseUnsigned false (c :: cs)

/-- The value of a hexadecimal digit. -/
def hexVal (c : Char) : Option ℕ :=
  if c.isDigit then some (c.toNat - 48)
  else if 'a' ≤ c ∧ c ≤ 'f' then some (c.toNat - 87)
  else if 'A' ≤ c ∧ c ≤ 'F' then some (c.toNat - 55)
  else none

/-- The code unit that four hexadecimal digits denote. -/
def hex4 (a b c d : Char) : Option ℕ := do
  let a ← hexVal a
  let b ← hexVal b
  let c ← hexVal c
  let d ← hexVal d
  some (4096 * a + 256 * b + 16 * c + d)

/-- The character of a code unit; a surrogate on its own has none. -/
def unitChar (u : ℕ) : Char := if 0xD800 ≤ u ∧ u ≤ 0xDFFF then '\uFFFD' else Char.ofNat u

/-- The character of a surrogate pair. -/
def pairChar (hi lo : ℕ) : Char := Char.ofNat (0x10000 + 0x400 * (hi - 0xD800) + (lo - 0xDC00))

/-- The character that a single-character escape stands for. -/
def unescape (c : Char) : Option Char :=
  if c = '"' ∨ c = '\\' ∨ c = '/' then some c
  else if c = 'b' then some '\x08'
  else if c = 'f' then some '\x0c'
  else if c = 'n' then some '\n'
  else if c = 'r' then some '\r'
  else if c = 't' then some '\t'
  else none

/-- The low half of a surrogate pair at the start of a text, with the rest. -/
def lowSurrogate? : List Char → Option (ℕ × List Char)
  | '\\' :: 'u' :: a :: b :: c :: d :: cs =>
    match hex4 a b c d with
    | some lo => if 0xDC00 ≤ lo ∧ lo ≤ 0xDFFF then some (lo, cs) else none
    | none => none
  | _ => none

/-- The characters of a string up to the closing quote, and the rest. Each character of the text
takes one unit of fuel at most. -/
def parseChars : ℕ → List Char → Option (List Char × List Char)
  | 0, _ => none
  | _ + 1, [] => none
  | fuel + 1, c :: cs =>
    if c = '"' then some ([], cs)
    else if c = '\\' then
      match cs with
      | [] => none
      | e :: cs =>
        if e = 'u' then
          match cs with
          | a :: b :: c :: d :: cs =>
            match hex4 a b c d with
            | none => none
            | some u =>
              match if 0xD800 ≤ u ∧ u ≤ 0xDBFF then lowSurrogate? cs else none with
              | some (lo, cs) => (parseChars fuel cs).map fun r => (pairChar u lo :: r.1, r.2)
              | none => (parseChars fuel cs).map fun r => (unitChar u :: r.1, r.2)
          | _ => none
        else
          match unescape e with
          | some c => (parseChars fuel cs).map fun r => (c :: r.1, r.2)
          | none => none
    else if c.toNat < 32 then none
    else (parseChars fuel cs).map fun r => (c :: r.1, r.2)

/-- A string, with the opening quote already read. -/
def parseString (cs : List Char) : Option (String × List Char) :=
  (parseChars (cs.length + 1) cs).map fun r => (String.ofList r.1, r.2)

/-- The rest of a literal name (`null`, `true`, `false`) and its value. -/
def parseName (name : List Char) (j : Json) (cs : List Char) : Option (Json × List Char) :=
  if name.isPrefixOf cs then some (j, cs.drop name.length) else none

/-- The name of an object's member and the colon after it. -/
def parseKey (cs : List Char) : Option (String × List Char) :=
  match skipSpace cs with
  | '"' :: cs =>
    match parseString cs with
    | some (k, cs) =>
      match skipSpace cs with
      | ':' :: cs => some (k, cs)
      | _ => none
    | none => none
  | _ => none

mutual

/-- A value at the start of a text, and the rest. -/
def parseValue : ℕ → List Char → Option (Json × List Char)
  | 0, _ => none
  | fuel + 1, cs =>
    match skipSpace cs with
    | [] => none
    | c :: cs =>
      if c = '"' then (parseString cs).map fun r => (.str r.1, r.2)
      else if c = '[' then
        if (skipSpace cs).head? = some ']' then some (.arr [], (skipSpace cs).tail)
        else (parseElems fuel cs).map fun r => (.arr r.1, r.2)
      else if c = '{' then
        if (skipSpace cs).head? = some '}' then some (.obj [], (skipSpace cs).tail)
        else (parseMembers fuel cs).map fun r => (.obj r.1, r.2)
      else if c = 'n' then parseName ['u', 'l', 'l'] .null cs
      else if c = 't' then parseName ['r', 'u', 'e'] (.bool true) cs
      else if c = 'f' then parseName ['a', 'l', 's', 'e'] (.bool false) cs
      else (parseNumber (c :: cs)).map fun r => (.num r.1, r.2)

/-- The elements of an array up to the closing bracket; there is at least one. -/
def parseElems : ℕ → List Char → Option (List Json × List Char)
  | 0, _ => none
  | fuel + 1, cs =>
    match parseValue fuel cs with
    | none => none
    | some (x, cs) =>
      match skipSpace cs with
      | [] => none
      | c :: cs =>
        if c = ']' then some ([x], cs)
        else if c = ',' then (parseElems fuel cs).map fun r => (x :: r.1, r.2)
        else none

/-- The members of an object up to the closing brace; there is at least one. -/
def parseMembers : ℕ → List Char → Option (List (String × Json) × List Char)
  | 0, _ => none
  | fuel + 1, cs =>
    match parseKey cs with
    | none => none
    | some (k, cs) =>
      match parseValue fuel cs with
      | none => none
      | some (x, cs) =>
        match skipSpace cs with
        | [] => none
        | c :: cs =>
          if c = '}' then some ([(k, x)], cs)
          else if c = ',' then (parseMembers fuel cs).map fun r => ((k, x) :: r.1, r.2)
          else none

end

/-- `JSON.parse`: `none` is a `SyntaxError`. -/
def parse (s : String) : Option Json :=
  match parseValue (s.toList.length + 1) s.toList with
  | some (j, cs) => if skipSpace cs = [] then some j else none
  | none => none

end Json

end RedisStore
