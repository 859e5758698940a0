import ShellQuery.Json.Reader
import ShellQuery.Statement.Basic

/-!
# Statements in JSON

A statement, a relation and a comparison are records. A record is an object with known fields, and
other ones that are ignored, or an array of the fields' values in order. Fields may be left out if
they are optional, in an array only at the end.

A term is the string `"and"` or `"or"`, or an object with one member: `atom` holds the texts of a
comparison and `group` an array of terms.

Values that are read may nest at most `maxDepth` deep; what is ignored may nest as it likes.
-/

namespace ShellQuery

namespace Json

/-- How deep arrays and objects may nest. -/
def maxDepth : Nat := 127

/-- The values of a record's fields. A known field must not be repeated. -/
def record? (fields : List String) : Json → Option (List (Option Json))
  | object members => do
    let members ← (object members).members?
    if fields.all fun f => members.countP (·.1 == f) ≤ 1 then
      return fields.map fun f => members.lookup f
    else none
  | array elements =>
    if elements.length ≤ fields.length then
      some ((List.range fields.length).map fun i => elements[i]?)
    else none
  | _ => none

/-- An optional value, absent or `null` or of the given kind. -/
def optional? {α : Type} (read : Json → Option α) : Option Json → Option (Option α)
  | none => some none
  | some value => if value.isNull then some none else (read value).map some

/-- A natural number of at most 64 bits. -/
def word64? (value : Json) : Option Nat :=
  value.nat?.filter (· < Text.wordBound)

end Json

namespace Term

/-- The comparison in a record of three texts. -/
def ofAtom? (value : Json) : Option Term := do
  match ← value.record? ["left_operand", "operator", "right_operand"] with
  | [some left, some operator, some right] =>
    return .comparison (← left.text?) (← operator.text?) (← right.text?)
  | _ => none

mutual

/-- The term that a value is, if no more than `depth` arrays and objects may nest. -/
def ofJson? (depth : Nat) : Json → Option Term
  | .string (some "and") => some .and
  | .string (some "or") => some .or
  | .object [(some "and", .null)] => if 1 ≤ depth then some .and else none
  | .object [(some "or", .null)] => if 1 ≤ depth then some .or else none
  | .object [(some "atom", value)] => if 2 ≤ depth then ofAtom? value else none
  | .object [(some "group", .array values)] =>
    if 2 ≤ depth then (listOfJson? (depth - 2) values).map .group else none
  | _ => none

/-- The terms that some values are. -/
def listOfJson? (depth : Nat) : List Json → Option (List Term)
  | [] => some []
  | value :: values => do
    let term ← ofJson? depth value
    let terms ← listOfJson? depth values
    return term :: terms

end

end Term

namespace Relation

/-- The relation in a record of a path and an optional alias. -/
def ofJson? (value : Json) : Option Relation := do
  match ← value.record? ["path", "alias"] with
  | [some path, label] => return ⟨← path.text?, ← Json.optional? Json.text? label⟩
  | _ => none

end Relation

namespace Statement

/-- The statement in a record. -/
def ofJson? (value : Json) : Option Statement := do
  match ← value.record? ["columns", "relations", "conditions", "sample"] with
  | [some columns, some relations, conditions, sample] =>
    let terms ← (conditions.getD (.array [])).elements?
    return {
      columns := ← (← columns.elements?).mapM Json.text?
      relations := ← (← relations.elements?).mapM Relation.ofJson?
      conditions := ← Term.listOfJson? (Json.maxDepth - 2) terms
      sample := ← Json.optional? Json.word64? sample }
  | _ => none

end Statement

end ShellQuery
