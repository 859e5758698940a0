import ShellQuery.Text.Digits

/-!
# JSON values

A value as it is written: the members of an object keep their order and may repeat a key, a number
keeps its digits. An escape may name half of a surrogate pair, which is no character; the string it
occurs in is valid JSON and yet no text.
-/

namespace ShellQuery

/-- A JSON value. -/
inductive Json where
  | null
  | bool (value : Bool)
  /-- A number, by its numeral. -/
  | number (numeral : String)
  /-- A string, or `none` for one that is no text. -/
  | string (text : Option String)
  | array (elements : List Json)
  | object (members : List (Option String × Json))
deriving Repr

namespace Json

/-- The text of a string. -/
def text? : Json → Option String
  | string text => text
  | _ => none

/-- The elements of an array. -/
def elements? : Json → Option (List Json)
  | array elements => some elements
  | _ => none

/-- The truth value. -/
def bool? : Json → Option Bool
  | bool value => some value
  | _ => none

/-- The value of a number that is written with digits only. -/
def nat? : Json → Option Nat
  | number numeral =>
    if numeral.toList.all Char.isDigit then
      some (Text.digitsValue numeral.toList)
    else none
  | _ => none

/-- The members of an object whose keys are texts. -/
def members? : Json → Option (List (String × Json))
  | object members => members.mapM fun m => m.1.map fun key => (key, m.2)
  | _ => none

/-- Whether the value is `null`. -/
def isNull : Json → Bool
  | null => true
  | _ => false

end Json

end ShellQuery
