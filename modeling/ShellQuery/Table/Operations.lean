import ShellQuery.Table.Basic

/-!
# Operations on tables

Each operation appends at most one step. What is known about the order of the rows survives a
projection up to the first sort column that is dropped, and a filter entirely; sampling and counting
forget it.
-/

namespace ShellQuery.Table

/-! ### Choosing columns -/

/-- The column that takes the place of `sorted` when the columns at `positions` become `columns`. -/
def successor? (t : Table) (positions : List Nat) (columns : List Column) (sorted : Column) :
    Option Column := do
  let old ← t.columns.findIdx? (·.identical sorted)
  let new ← positions.idxOf? old
  columns[new]?

/-- The values of `f` up to the first element that has none. -/
def mapWhile {α β : Type} (f : α → Option β) : List α → List β
  | [] => []
  | a :: as =>
    match f a with
    | some b => b :: mapWhile f as
    | none => []

/-- The sort columns that survive when the columns at `positions` become `columns`. -/
def remapSorted (t : Table) (positions : List Nat) (columns : List Column) : List Column :=
  mapWhile (t.successor? positions columns) t.sortedBy

/-- Appends a projection onto `positions`, where the columns are then `columns`. -/
def project (t : Table) (positions : List Nat) (columns : List Column) : Table :=
  { t with
    columns := columns
    steps := t.steps ++ [.project positions]
    sortedBy := t.remapSorted positions columns }

/-- The columns at some positions. -/
def columnsAt (t : Table) (positions : List Nat) : List Column :=
  positions.filterMap (t.columns[·]?)

/-- Moves the named columns to the front, in that order, and drops the others if asked to. Nothing
happens where the columns stand in that order already. -/
def reorderColumns (t : Table) (names : List ColumnName) (dropOthers : Bool) :
    Except PlanError Table := do
  let requested ← names.mapM t.resolve
  let all := List.range t.columns.length
  let positions :=
    if dropOthers then requested else requested ++ all.filter (!requested.contains ·)
  return if positions == all then t else t.project positions (t.columnsAt positions)

/-- Gives the leading columns new labels, one each. -/
def labelWith : List Column → List ColumnName → List Column
  | c :: cs, label :: labels => c.withLabel label :: labelWith cs labels
  | cs, [] => cs
  | [], _ => []

/-- Gives the leading columns of the table new labels, one each. -/
def labelColumns (t : Table) (labels : List ColumnName) : Table :=
  let columns := labelWith t.columns labels
  { t with
    columns := columns
    sortedBy := t.remapSorted (List.range t.columns.length) columns }

/-! ### Sorting -/

/-- Sorts by the columns at some positions, unless the rows are known to be sorted that way. A
repeated position adds nothing. -/
def sortPositions (t : Table) (positions : List Nat) : Table :=
  let keys := positions.eraseDups
  let columns := t.columnsAt keys
  if (t.sortedBy.take columns.length).isEqv columns Column.identical then t
  else { t with steps := t.steps ++ [.sort keys], sortedBy := columns }

/-- Sorts by the named columns. -/
def sort (t : Table) (names : List ColumnName) : Except PlanError Table := do
  let positions ← names.mapM t.resolve
  return t.sortPositions positions

/-- Whether the columns at some positions begin the given sort columns. -/
def beginsSorted (t : Table) : List Column → List Nat → Bool
  | _, [] => true
  | [], _ :: _ => false
  | s :: ss, p :: ps => (t.columns[p]?.any (·.identical s)) && t.beginsSorted ss ps

/-- Whether the rows are known to be sorted by the columns at some positions, in that order. -/
def isSortedBy (t : Table) (positions : List Nat) : Bool :=
  t.beginsSorted t.sortedBy positions

/-! ### Choosing rows -/

/-- Appends a filter that keeps all columns. -/
def filter (t : Table) (tests : List Awk.RowTest) : Table :=
  { t with steps := t.steps ++ [.filter tests (List.range t.columns.length)] }

/-- Keeps the rows that satisfy every conjunct. -/
def filterRows (t : Table) (conjuncts : List Condition) : Except PlanError Table :=
  if conjuncts.isEmpty then .ok t
  else do
    let tests ← conjuncts.mapM (Condition.resolve t.resolve)
    return t.filter tests

/-- Keeps a random sample of at most `size` rows. -/
def sampleRows (t : Table) (size : Nat) (seed : Option Nat) : Table :=
  { t with steps := t.steps ++ [.sample size seed], sortedBy := [] }

/-- The one column of a count, which belongs to the counted table. -/
def countColumn (name : String) : Column :=
  .ofName ⟨"count", "count", [Text.lower name], by decide, by decide⟩

/-- Appends a count and forgets the columns. -/
def count (t : Table) (position : Option Nat) : Table :=
  { t with
    columns := [countColumn t.name]
    steps := t.steps ++ [.count position]
    sortedBy := [] }

/-- Replaces the rows by their number, or by the number of those whose named column is not empty. -/
def countRows (t : Table) (name : Option ColumnName) : Except PlanError Table :=
  match name with
  | none => .ok (t.count none)
  | some name => (t.resolve name).map fun position => t.count (some position)

end ShellQuery.Table
