import ShellQuery.Table.Basic

/-!
# Stages

Tables are joined one after the other. A condition belongs to the first stage at which every column
it refers to has been met, and there each of them must belong to one table only.
-/

namespace ShellQuery

/-- A column found in one of several tables. -/
structure Hit where
  /-- The place of the table among the others. -/
  stage : Nat
  table : Table
  found : Table.Occurrences

namespace Hit

/-- The table and the column in words. -/
def describe (h : Hit) : String :=
  h.table.name ++ ": " ++ h.found.column.describe

end Hit

/-- All the tables in which a name is found, the earliest first. -/
structure Location where
  name : ColumnName
  first : Hit
  further : List Hit

namespace Location

/-- The hits of a location, the earliest first. -/
def hits (l : Location) : List Hit :=
  l.first :: l.further

/-- The error that a name is found in each of several tables. -/
def ambiguous (name : ColumnName) (hits : List Hit) : PlanError :=
  .ambiguousColumn name.qualified (hits.map Hit.describe)

/-- The hits of a name, from the table at the given stage on. -/
def search (name : ColumnName) (stage : Nat) : List Table → Except PlanError (List Hit)
  | [] => .ok []
  | t :: ts => do
    let found ← t.find name
    let rest ← search name (stage + 1) ts
    return (found.map (Hit.mk stage t)).toList ++ rest

/-- Finds a name in some tables; it must be found somewhere. -/
def ofName (tables : List Table) (name : ColumnName) : Except PlanError Location := do
  match ← search name 0 tables with
  | [] => .error (.unknownColumn name.qualified)
  | first :: further => return ⟨name, first, further⟩

/-- Refuses a name that is found more than once up to the given stage. -/
def checkWithin (stage : Nat) (l : Location) : Except PlanError Unit :=
  match l.hits.filter (·.stage ≤ stage) with
  | h :: h' :: hs => .error (ambiguous l.name (h :: h' :: hs))
  | _ => .ok ()

end Location

/-- The stage at which a condition can be evaluated. -/
def stageOf (tables : List Table) (c : Condition) : Except PlanError Nat := do
  let locations ← c.columns.mapM (Location.ofName tables)
  let stage := locations.foldl (fun s l => max s l.first.stage) 0
  locations.forM (Location.checkWithin stage)
  return stage

/-- The conditions of each stage, in their given order. Without tables there is one stage. -/
def stageConditions (tables : List Table) (conditions : List Condition) :
    Except PlanError (List (List Condition)) := do
  let stages ← conditions.mapM (stageOf tables)
  let staged := conditions.zip stages
  return (List.range (max 1 tables.length)).map fun k =>
    (staged.filter (·.2 == k)).map (·.1)

end ShellQuery
