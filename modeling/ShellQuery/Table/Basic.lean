import ShellQuery.Catalog
import ShellQuery.Column.Basic
import ShellQuery.Condition
import ShellQuery.Step

/-!
# Tables

A table describes rows without holding any: where they come from, the steps they pass through, the
columns they end up with and the columns they are known to be sorted by. Every operation appends a
step and brings the columns and the known order up to date.
-/

namespace ShellQuery

/-- Where rows come from, given what a join joins. -/
inductive Source (τ : Type) where
  /-- A file, behind its header lines. -/
  | file (path : String) (headerLines : Nat)
  /-- The output of a command. -/
  | command (text : String)
  /-- The pairs of rows of two tables with equal keys: the key, the other fields of the left row,
  the other fields of the right row. -/
  | join (left right : τ) (leftKey rightKey : Nat)
deriving Repr

/-- A description of rows. -/
structure Table where
  name : String
  /-- What parts the fields of a row. -/
  delimiter : Char
  source : Source Table
  columns : List Column
  /-- The steps between the source and the rows. -/
  steps : List Step
  /-- The columns by which the rows are sorted, the first one first. -/
  sortedBy : List Column

namespace Table

/-! ### Tables from a source -/

/-- The columns of a header, each known by every name of its relation. A header that repeats a
field is refused. -/
def headerColumns (path name : String) : List String → List String → Except PlanError (List Column)
  | _, [] => .ok []
  | seen, field :: fields => do
    let column ← Column.ofField field [path, name]
    if seen.contains column.primary.plain then
      .error (.duplicateColumn path (Text.trim field))
    else
      let columns ← headerColumns path name (seen ++ [column.primary.plain]) fields
      return column :: columns

/-- The table of a delimited file whose first line names its columns. -/
def ofFile (path : String) (label : Option String) (delimiter : Char) (catalog : Catalog) :
    Except PlanError Table :=
  match catalog.fields path delimiter with
  | none => .error (.unreadableHeader path)
  | some fields => do
    let name := label.getD path
    let columns ← headerColumns path name [] fields
    return ⟨name, delimiter, .file path 1, columns, [], []⟩

/-- The table of the rows that a command prints. -/
def ofCommand (name command : String) (fields : List String) (delimiter : Char) :
    Except PlanError Table := do
  let columns ← fields.mapM (Column.ofField · [name])
  return ⟨name, delimiter, .command command, columns, [], []⟩

/-! ### Resolving names -/

/-- A column and all the positions where a table has it. -/
structure Occurrences where
  column : Column
  first : Nat
  further : List Nat

/-- The positions of an occurring column, in ascending order. -/
def Occurrences.positions (o : Occurrences) : List Nat :=
  o.first :: o.further

/-- Records that a column occurs at a position. -/
def addOccurrence (column : Column) (position : Nat) : List Occurrences → List Occurrences
  | [] => [⟨column, position, []⟩]
  | o :: os =>
    if o.column.identical column then { o with further := o.further ++ [position] } :: os
    else o :: addOccurrence column position os

/-- The distinct columns among some columns with their positions. -/
def groupOccurrences (columns : List (Column × Nat)) : List Occurrences :=
  columns.foldl (fun os c => addOccurrence c.1 c.2 os) []

/-- Every distinct column of the table and the positions it occupies. -/
def occurrences (t : Table) : List Occurrences :=
  groupOccurrences t.columns.zipIdx

/-- The one column that a name refers to, if any. -/
def find (t : Table) (name : ColumnName) : Except PlanError (Option Occurrences) :=
  match groupOccurrences (t.columns.zipIdx.filter (·.1.answersTo name)) with
  | [] => .ok none
  | [o] => .ok (some o)
  | os => .error (.ambiguousColumn name.qualified (os.map (·.column.describe)))

/-- The position of the one column that a name refers to, if any. -/
def tryResolve (t : Table) (name : ColumnName) : Except PlanError (Option Nat) :=
  (t.find name).map (Option.map Occurrences.first)

/-- The position of the one column that a name refers to. -/
def resolve (t : Table) (name : ColumnName) : Except PlanError Nat := do
  match ← t.tryResolve name with
  | some position => return position
  | none => .error (.unknownColumn name.qualified)

/-- Whether a name refers to exactly one column. -/
def resolves (t : Table) (name : ColumnName) : Bool :=
  match t.tryResolve name with
  | .ok (some _) => true
  | _ => false

/-! ### Text -/

end Table

mutual

/-- The pipeline that prints the rows of a table. -/
def Table.pipeline : Table → String
  | ⟨_, delimiter, source, _, steps, _⟩ =>
    String.intercalate " | " (source.text :: steps.map (Step.text delimiter))

/-- The command that prints the rows of a source. -/
def Source.text : Source Table → String
  | .file path headerLines =>
    "tail -n+" ++ toString (headerLines + 1) ++ " " ++ Shell.word path
  | .command text => text
  | .join left right leftKey rightKey =>
    "join -t" ++ Shell.delimiter left.delimiter ++ " -1 " ++ toString (leftKey + 1) ++
      " -2 " ++ toString (rightKey + 1) ++ " <(" ++ left.pipeline ++ ") <(" ++
      right.pipeline ++ ")"

end

namespace Table

/-- The header line: the labels of the columns, parted by the delimiter. -/
def headerLine (t : Table) : String :=
  String.intercalate (String.ofList [t.delimiter]) (t.columns.map Column.header)

/-- The pipeline, behind a command that prints the header line if that is wanted. -/
def render (t : Table) (header : Bool) : String :=
  (if header then "echo \"" ++ t.headerLine ++ "\"; " else "") ++ t.pipeline

end Table

end ShellQuery
