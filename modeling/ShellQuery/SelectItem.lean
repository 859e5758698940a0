import ShellQuery.Column.Name
import ShellQuery.Text.Blank

/-!
# Select items
-/

namespace ShellQuery

/-- An entry of the select list. -/
inductive SelectItem where
  /-- `*`: every column of every relation. -/
  | wildcard
  /-- `t.*`: every column of the relation with that alias or path. -/
  | wildcardOf (qualifier : String)
  | column (name : ColumnName)
  /-- `count(*)`, or `count(name)` for the rows where that column is not empty. -/
  | count (name : Option ColumnName)

namespace SelectItem

/-- What precedes a final `.*`. -/
def qualifier? (cs : List Char) : Option (List Char) :=
  (Text.stripLast '*' cs).bind (Text.stripLast '.')

/-- The trimmed argument of a text of the form `count(…)`, in any case and with blanks before the
parenthesis. -/
def countArgument? (cs : List Char) : Option (List Char) :=
  if (cs.take 5).map Char.toLower = ['c', 'o', 'u', 'n', 't'] then do
    let body ← Text.stripFirst '(' (Text.trimStart (cs.drop 5))
    let argument ← Text.stripLast ')' body
    return Text.trimEnd (Text.trimStart argument)
  else none

/-- Reads a select item, without the blanks around it. -/
def ofText (text : String) : Except PlanError SelectItem :=
  let item := Text.trim text
  if item = "*" then .ok wildcard
  else
    match qualifier? item.toList with
    | some qualifier => .ok (wildcardOf (String.ofList qualifier))
    | none =>
      match countArgument? item.toList with
      | some ['*'] => .ok (count none)
      | some argument => (ColumnName.ofText (String.ofList argument)).map fun n => count (some n)
      | none => (ColumnName.ofText item).map column

/-- Whether the item is a count. -/
def isCount : SelectItem → Bool
  | count _ => true
  | _ => false

end SelectItem

end ShellQuery
