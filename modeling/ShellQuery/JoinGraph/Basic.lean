import ShellQuery.Condition

/-!
# Join graphs

The relations of a statement are the nodes of a graph, and every equality that joins two of them is
an edge.
-/

namespace ShellQuery

/-- A relation and the relations it can be joined to. -/
structure JoinNode where
  name : String
  path : String
  /-- The place of the relation in the statement. -/
  position : Nat
  /-- The names of the relations an equality connects it to, without repetition. -/
  neighbors : List String
deriving DecidableEq, Repr

namespace JoinNode

/-- Whether a qualifier means the relation: by its name or its path, whatever the case. -/
def answersTo (n : JoinNode) (qualifier : String) : Bool :=
  Text.sameIgnoringCase n.name qualifier || Text.sameIgnoringCase n.path qualifier

/-- Records a neighbour. -/
def addNeighbor (n : JoinNode) (neighbor : String) : JoinNode :=
  if n.neighbors.contains neighbor then n else { n with neighbors := n.neighbors ++ [neighbor] }

end JoinNode

/-- Relations, connected by equalities. -/
structure JoinGraph where
  /-- The nodes in the order of the statement. -/
  nodes : List JoinNode
deriving DecidableEq, Repr

namespace JoinGraph

/-- The node of the relation with the given name. -/
def node? (g : JoinGraph) (name : String) : Option JoinNode :=
  g.nodes.find? (·.name == name)

/-- Adds a relation without neighbours; its name must be new. -/
def addRelation (g : JoinGraph) (r : Relation) : Except PlanError JoinGraph :=
  if (g.node? r.name).isSome then .error (.duplicateRelation r.name)
  else .ok ⟨g.nodes ++ [⟨r.name, r.path, g.nodes.length, []⟩]⟩

/-- The name of the relation that a column belongs to, by the first of its qualifiers that means
one. -/
def relationOf (g : JoinGraph) (name : ColumnName) : Except PlanError String :=
  match name.qualifiers.findSome? fun q => g.nodes.find? (·.answersTo q) with
  | some node => .ok node.name
  | none => .error (.unknownColumn name.qualified)

/-- Makes two relations neighbours of each other. -/
def connect (g : JoinGraph) (left right : String) : JoinGraph :=
  ⟨g.nodes.map fun n =>
    if n.name == left then n.addNeighbor right
    else if n.name == right then n.addNeighbor left
    else n⟩

/-- Adds the edge of an equality between columns of two relations. -/
def addJoin (g : JoinGraph) (c : Comparison) : Except PlanError JoinGraph :=
  match c.left, c.right with
  | .column l, .column r => do
    let left ← g.relationOf l
    let right ← g.relationOf r
    if left == right then .error (.unsupportedJoin (.sameRelation c.describe))
    else return g.connect left right
  | _, _ => .error (.unsupportedJoin (.operandNotColumn c.describe))

/-- The graph of some relations and the equalities between them. -/
def build (relations : List Relation) (joins : List Comparison) : Except PlanError JoinGraph := do
  let g ← relations.foldlM addRelation ⟨[]⟩
  joins.foldlM addJoin g

end JoinGraph

end ShellQuery
