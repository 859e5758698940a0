import ShellQuery.JoinGraph.Order
import ShellQuery.SelectItem
import ShellQuery.Stage
import ShellQuery.Table.Join

/-!
# Planning a statement

A statement is turned into one table. The relations are opened and the select list is expanded
against their headers. The condition is brought into conjunctive normal form, its columns are pinned
to the relations they belong to, and its conjuncts are parted into joins and filters. The relations
are then joined one after the other, every filter being applied as early as it can be.
-/

namespace ShellQuery

/-- The settings of a plan. -/
structure Config where
  /-- What parts the fields of a row. -/
  delimiter : Char := ','
  /-- Whether the plan prints a header line first. -/
  header : Bool := true
  /-- The seed for samples; without one every run draws its own. -/
  seed : Option Nat := none
  /-- The weight of a relation, given the graph and the filters of the statement. Relations of
  greater weight are joined earlier. For weights that are given by name it is
  `JoinGraph.weightOf`, which is zero for all other relations. -/
  weight : JoinGraph → List Condition → String → Nat := fun _ _ _ => 1

/-- What a statement prints. -/
inductive Output where
  | columns (names : List ColumnName)
  | count (name : Option ColumnName)

namespace Query

/-! ### The select list -/

/-- The columns of a table as its header names them, under the name of the table. -/
def wildcardNames (t : Table) : List ColumnName :=
  t.columns.map fun c => c.primary.within t.name

/-- The table that the qualifier of a wildcard means: by alias or path, whatever the case. -/
def wildcardTable (relations : List (Relation × Table)) (qualifier : String) :
    Except PlanError Table :=
  let means := fun (r : Relation × Table) =>
    Text.sameIgnoringCase r.1.name qualifier || Text.sameIgnoringCase r.1.path qualifier
  match relations.find? means with
  | some r => .ok r.2
  | none => .error (.unknownRelation qualifier)

/-- The column names that a select item stands for. -/
def expandItem (relations : List (Relation × Table)) :
    SelectItem → Except PlanError (List ColumnName)
  | .wildcard => .ok (relations.flatMap fun r => wildcardNames r.2)
  | .wildcardOf qualifier => (wildcardTable relations qualifier).map wildcardNames
  | .column name => .ok [name]
  | .count _ => .ok []

/-- What a list of select items prints. A count must stand alone; an empty list prints all. -/
def outputOfItems (relations : List (Relation × Table)) (items : List SelectItem) :
    Except PlanError Output :=
  if items.any SelectItem.isCount then
    match items with
    | [.count name] => .ok (.count name)
    | _ => .error .mixedAggregate
  else do
    let names ← (if items.isEmpty then [.wildcard] else items).mapM (expandItem relations)
    return .columns names.flatten

/-- What a statement prints. -/
def output (relations : List (Relation × Table)) (columns : List String) :
    Except PlanError Output := do
  let items ← columns.mapM SelectItem.ofText
  outputOfItems relations items

/-! ### Relations and conditions -/

/-- Refuses a relation whose name is taken, whatever the case. -/
def checkNames : List String → List Relation → Except PlanError Unit
  | _, [] => .ok ()
  | seen, r :: rs =>
    if seen.contains (Text.lower r.name) then .error (.duplicateRelation r.name)
    else checkNames (seen ++ [Text.lower r.name]) rs

/-- Opens the file of a relation. -/
def openRelation (config : Config) (catalog : Catalog) (r : Relation) : Except PlanError Table :=
  Table.ofFile r.path (some r.name) config.delimiter catalog

/-- Pins a column to the one relation it is found in. -/
def pin (tables : List Table) (name : ColumnName) : Except PlanError ColumnName := do
  let location ← Location.ofName tables name
  match location.further with
  | [] => return name.within location.first.table.name
  | _ :: _ => .error (Location.ambiguous name location.hits)

/-- The joins and filters that a sequence of terms asks for, with all columns pinned. -/
def classifyTerms (tables : List Table) (terms : List Term) :
    Except PlanError (List Comparison × List Condition) := do
  match ← Condition.ofTerms terms with
  | none => return ([], [])
  | some condition =>
    let conjuncts ← Condition.conjuncts (Formula.toCnf condition)
    let pinned ← conjuncts.mapM (Condition.mapColumnsM (pin tables))
    return Condition.classify pinned

/-! ### The left-deep tree -/

/-- Joins one more table to the result so far. Filters that only concern the new table are applied
to it before the join, the others after it. -/
def joinStage (result table : Table) (joins filters : List Condition) (number : Nat) :
    Except PlanError Table := do
  let (before, after) := filters.partition fun c => c.columns.all table.resolves
  let table ← table.filterRows before
  let joined ← result.mergeJoin table (joins.filterMap Formula.atom?) ("join_" ++ toString number)
  joined.filterRows after

/-- Joins the tables of all stages, each given with its joins and its filters. -/
def leftDeep : List (Table × List Condition × List Condition) → Except PlanError Table
  | [] => .error .noRelations
  | (table, joins, filters) :: rest => do
    let first ← table.filterRows (filters ++ joins)
    (rest.zipIdx 1).foldlM (fun result s => joinStage result s.1.1 s.1.2.1 s.1.2.2 s.2) first

/-- Samples the rows if the statement asks for it. -/
def sampled (t : Table) (sample seed : Option Nat) : Table :=
  match sample with
  | some size => t.sampleRows size seed
  | none => t

/-- Brings the joined rows into the form the statement prints. -/
def finish (config : Config) (sample : Option Nat) (joined : Table) :
    Output → Except PlanError Table
  | .count name => (sampled joined sample config.seed).countRows name
  | .columns names => do
    let reordered ← joined.reorderColumns names true
    return sampled (reordered.labelColumns (names.map ColumnName.unqualified)) sample config.seed

/-! ### The plan -/

/-- The table that a statement describes. -/
def table (s : Statement) (config : Config) (catalog : Catalog) : Except PlanError Table := do
  if s.relations.isEmpty then .error .noRelations
  else
    checkNames [] s.relations
    let tables ← s.relations.mapM (openRelation config catalog)
    let output ← output (s.relations.zip tables) s.columns
    let (joins, filters) ← classifyTerms tables s.conditions
    let graph ← JoinGraph.build s.relations joins
    let order ← graph.order (config.weight graph filters)
    let ordered := order.filterMap fun n => tables[n.position]?
    let joinStages ← stageConditions ordered (joins.map .atom)
    let filterStages ← stageConditions ordered filters
    let joined ← leftDeep (ordered.zip (joinStages.zip filterStages))
    finish config s.sample joined output

/-- The pipeline that prints what a statement asks for. -/
def plan (s : Statement) (config : Config) (catalog : Catalog) : Except PlanError String :=
  (table s config catalog).map (·.render config.header)

end Query

end ShellQuery
