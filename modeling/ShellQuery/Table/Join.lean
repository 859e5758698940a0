import ShellQuery.Table.KeyGroup
import ShellQuery.Table.Operations

/-!
# Merge joins

Two tables are joined on equalities between their columns. The join command takes two inputs sorted
on one key field each and prints the key, then the other fields of the left row, then those of the
right row. Further equalities are tested by a filter on its output, and a projection then brings one
column per group of keys to the front.
-/

namespace ShellQuery.Table

/-- The key positions that an equality pairs: one column of the left table with one of the right. -/
def keyPair (left right : Table) (c : Comparison) : Except PlanError (Nat × Nat) :=
  match c.left, c.right with
  | .column a, .column b =>
    if c.operator = .eq then do
      let inLeftA ← left.tryResolve a
      let inRightA ← right.tryResolve a
      let inLeftB ← left.tryResolve b
      let inRightB ← right.tryResolve b
      match inLeftA, inRightA, inLeftB, inRightB with
      | some l, none, none, some r => .ok (l, r)
      | none, some r, some l, none => .ok (l, r)
      | none, none, _, _ => .error (.unknownColumn a.qualified)
      | _, _, none, none => .error (.unknownColumn b.qualified)
      | _, _, _, _ => .error (.unsupportedJoin (.sameSide c.describe))
    else .error (.unsupportedJoin (.notEquality c.describe))
  | _, _ => .error (.unsupportedJoin (.operandNotColumn c.describe))

/-- Sorts by the columns at some positions unless the rows are known to be sorted by them. -/
def ensureSorted (t : Table) (positions : List Nat) : Table :=
  if t.isSortedBy positions then t else t.sortPositions positions

/-- Where a field of the left row stands in the output of a join on `key`. -/
def joinedLeft (key position : Nat) : Nat :=
  if position = key then 0 else if position < key then position + 1 else position

/-- Where a field of the right row stands in the output of a join on `key`, behind the fields of a
left row of the given width. -/
def joinedRight (leftWidth key position : Nat) : Nat :=
  if position = key then 0
  else if position < key then leftWidth + position
  else leftWidth + position - 1

/-- The columns that the join command prints. -/
def joinedColumns (left right : Table) (leftKey rightKey : Nat) : List Column :=
  (left.columns[leftKey]?.bind fun l => right.columns[rightKey]?.map (l.merge ·)).toList ++
    left.columns.eraseIdx leftKey ++ right.columns.eraseIdx rightKey

/-- The one column that the columns of a key group become. -/
def groupColumn? (left right : Table) (g : KeyGroup) : Option Column :=
  match left.columnsAt g.left ++ right.columnsAt g.right with
  | [] => none
  | c :: cs => some (cs.foldl Column.merge c)

/-- The key groups' columns, each with the position in the join output that holds its value. -/
def groupColumns (left right : Table) (leftKey : Nat) (groups : List KeyGroup) :
    List (Nat × Column) :=
  groups.filterMap fun g => do
    let first ← g.left.head?
    let column ← groupColumn? left right g
    return (joinedLeft leftKey first, column)

/-- The columns of a table that are no keys, with their positions. -/
def restColumns (t : Table) (keys : List Nat) : List (Nat × Column) :=
  (t.columns.zipIdx.filter fun c => !keys.contains c.2).map fun c => (c.2, c.1)

/-- The join of two sorted tables on one pair of keys. -/
def joinOn (left right : Table) (leftKey rightKey : Nat) (name : String) : Table :=
  ⟨name, left.delimiter, .join left right leftKey rightKey,
    joinedColumns left right leftKey rightKey, [], []⟩

/-- The tests that the pairs of keys after the first one are equal too. -/
def chainedTests (leftWidth leftKey rightKey : Nat) (pairs : List (Nat × Nat)) :
    List Awk.RowTest :=
  pairs.map fun p =>
    .atom (.compare (.field (joinedLeft leftKey p.1)) .eq
      (.field (joinedRight leftWidth rightKey p.2)))

/-- Joins two tables on equalities, under the given name. The columns of the result are one for
each group of keys, then the other columns of the left table and those of the right table. -/
def mergeJoin (left right : Table) (conditions : List Comparison) (name : String) :
    Except PlanError Table := do
  let pairs ← conditions.mapM (keyPair left right)
  match pairs with
  | [] => .error (.unsupportedJoin (.noCondition left.name right.name))
  | (leftKey, rightKey) :: more =>
    let leftKeys := (pairs.map (·.1)).eraseDups
    let rightKeys := (pairs.map (·.2)).eraseDups
    let left := left.ensureSorted leftKeys
    let right := right.ensureSorted rightKeys
    let joined := joinOn left right leftKey rightKey name
    if more.isEmpty then return joined
    else
      let width := left.columns.length
      let chosen := groupColumns left right leftKey (KeyGroup.ofPairs pairs) ++
        (left.restColumns leftKeys).map (fun c => (joinedLeft leftKey c.1, c.2)) ++
        (right.restColumns rightKeys).map (fun c => (joinedRight width rightKey c.1, c.2))
      let filtered := joined.filter (chainedTests width leftKey rightKey more)
      return filtered.project (chosen.map (·.1)) (chosen.map (·.2))

end ShellQuery.Table
