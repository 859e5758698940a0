import ShellQuery.Json.Value

/-!
# Lexemes of JSON

The grammar is strict: four blank characters, no leading zeros, no control characters in strings.
-/

namespace ShellQuery.Json

/-- A lexeme of JSON. -/
inductive Lexeme where
  | openArray
  | closeArray
  | openObject
  | closeObject
  | comma
  | colon
  /-- A value without parts. -/
  | scalar (value : Json)

/-- Space, tab, line feed and carriage return. -/
def isBlank (c : Char) : Bool :=
  c == ' ' || c == '\t' || c == '\n' || c == '\r'

/-! ### Strings -/

/-- The value of a hexadecimal digit. -/
def hexDigit? (c : Char) : Option Nat :=
  if c.isDigit then some (c.toNat - '0'.toNat)
  else if 'a' ≤ c ∧ c ≤ 'f' then some (c.toNat - 'a'.toNat + 10)
  else if 'A' ≤ c ∧ c ≤ 'F' then some (c.toNat - 'A'.toNat + 10)
  else none

/-- The value of four hexadecimal digits. -/
def hex? (a b c d : Char) : Option Nat := do
  let a ← hexDigit? a
  let b ← hexDigit? b
  let c ← hexDigit? c
  let d ← hexDigit? d
  return ((a * 16 + b) * 16 + c) * 16 + d

/-- The character that a backslash and a letter stand for. -/
def escape? (c : Char) : Option Char :=
  if c = '"' then some '"'
  else if c = '\\' then some '\\'
  else if c = '/' then some '/'
  else if c = 'b' then some '\x08'
  else if c = 'f' then some '\x0c'
  else if c = 'n' then some '\n'
  else if c = 'r' then some '\r'
  else if c = 't' then some '\t'
  else none

/-- The code units of a string up to its closing quote, and how many characters they take with the
quote. An escaped code unit may be half of a pair. -/
def stringUnits : List Char → Option (List Nat × Nat)
  | [] => none
  | '"' :: _ => some ([], 1)
  | '\\' :: 'u' :: a :: b :: c :: d :: rest => do
    let unit ← hex? a b c d
    let (units, count) ← stringUnits rest
    return (unit :: units, count + 6)
  | '\\' :: e :: rest => do
    let c ← escape? e
    let (units, count) ← stringUnits rest
    return (c.toNat :: units, count + 2)
  | '\\' :: [] => none
  | c :: rest =>
    if c.toNat < 0x20 then none
    else do
      let (units, count) ← stringUnits rest
      return (c.toNat :: units, count + 1)

/-- Whether a code unit is the first half of a pair. -/
def isHighHalf (n : Nat) : Bool :=
  0xD800 ≤ n && n ≤ 0xDBFF

/-- Whether a code unit is the second half of a pair. -/
def isLowHalf (n : Nat) : Bool :=
  0xDC00 ≤ n && n ≤ 0xDFFF

/-- The characters that code units stand for, if no half of a pair stands alone. -/
def decodeUnits : List Nat → Option (List Char)
  | [] => some []
  | high :: low :: rest =>
    if isHighHalf high then
      if isLowHalf low then
        (decodeUnits rest).map
          (Char.ofNat (0x10000 + (high - 0xD800) * 0x400 + (low - 0xDC00)) :: ·)
      else none
    else if isLowHalf high then none
    else (decodeUnits (low :: rest)).map (Char.ofNat high :: ·)
  | [unit] => if isHighHalf unit || isLowHalf unit then none else some [Char.ofNat unit]

/-! ### Numbers -/

/-- The digits at the start of a text, if there are any. -/
def digits? (cs : List Char) : Option (List Char) :=
  let ds := cs.takeWhile Char.isDigit
  if ds.isEmpty then none else some ds

/-- The whole part of a numeral: one zero, or digits that start with another one. -/
def wholePart? : List Char → Option (List Char)
  | '0' :: _ => some ['0']
  | cs => digits? cs

/-- The fraction of a numeral, if there is one. -/
def fractionPart? : List Char → Option (List Char)
  | '.' :: cs => (digits? cs).map ('.' :: ·)
  | _ => some []

/-- The exponent of a numeral, if there is one. -/
def exponentPart? : List Char → Option (List Char)
  | e :: cs =>
    if e = 'e' ∨ e = 'E' then
      match cs with
      | '+' :: ds => (digits? ds).map fun ds => e :: '+' :: ds
      | '-' :: ds => (digits? ds).map fun ds => e :: '-' :: ds
      | ds => (digits? ds).map fun ds => e :: ds
    else some []
  | [] => some []

/-- The numeral at the start of a text. -/
def numeral? (cs : List Char) : Option (List Char) := do
  let sign := match cs with
    | '-' :: _ => ['-']
    | _ => []
  let cs := cs.drop sign.length
  let whole ← wholePart? cs
  let cs := cs.drop whole.length
  let fraction ← fractionPart? cs
  let exponent ← exponentPart? (cs.drop fraction.length)
  return sign ++ whole ++ fraction ++ exponent

/-! ### All lexemes -/

/-- What a word means. -/
def words : List (List Char × Json) :=
  [(['n', 'u', 'l', 'l'], .null), (['t', 'r', 'u', 'e'], .bool true),
    (['f', 'a', 'l', 's', 'e'], .bool false)]

/-- The lexeme at the start of the text `c :: cs`, and how many characters of `cs` it takes. -/
def next (c : Char) (cs : List Char) : Option (Lexeme × Nat) :=
  if c = '[' then some (.openArray, 0)
  else if c = ']' then some (.closeArray, 0)
  else if c = '\x7b' then some (.openObject, 0)
  else if c = '\x7d' then some (.closeObject, 0)
  else if c = ',' then some (.comma, 0)
  else if c = ':' then some (.colon, 0)
  else if c = '"' then
    (stringUnits cs).map fun u =>
      (.scalar (.string ((decodeUnits u.1).map String.ofList)), u.2)
  else if c = '-' ∨ c.isDigit then
    (numeral? (c :: cs)).map fun n => (.scalar (.number (String.ofList n)), n.length - 1)
  else
    (words.find? fun w => w.1.isPrefixOf (c :: cs)).map fun w => (.scalar w.2, w.1.length - 1)

/-- The lexemes of a text. -/
def lexemes : List Char → Option (List Lexeme)
  | [] => some []
  | c :: cs =>
    if isBlank c then lexemes cs
    else
      match next c cs with
      | none => none
      | some (l, n) => (lexemes (cs.drop n)).map (l :: ·)
termination_by cs => cs.length
decreasing_by
  · simp
  · simp only [List.length_drop, List.length_cons]
    omega

end ShellQuery.Json
