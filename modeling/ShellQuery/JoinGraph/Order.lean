import ShellQuery.JoinGraph.Basic

/-!
# The order of joins

The relations are joined one after the other, each connected to one before it. Among the relations
that could come next the one of the greatest weight is taken, and of several with that weight the
one that the statement names first.

Weights may be given for some relations only. The others weigh nothing (`weightOf`).
-/

namespace ShellQuery.JoinGraph

/-- The weight of a relation, where weights are given to some relations by name. A relation without
one weighs nothing. -/
def weightOf (weights : List (String × Nat)) (name : String) : Nat :=
  (weights.lookup name).getD 0

/-- Whether `m` goes before `n`: by a greater weight, or by an earlier place at the same weight. -/
def precedes (weight : String → Nat) (m n : JoinNode) : Bool :=
  weight n.name < weight m.name || (weight m.name == weight n.name && m.position < n.position)

/-- The node that goes before all others of a list. -/
def best? (weight : String → Nat) : List JoinNode → Option JoinNode
  | [] => none
  | n :: ns =>
    match best? weight ns with
    | none => some n
    | some m => some (if precedes weight m n then m else n)

/-- The nodes not visited yet that are neighbours of a visited one. -/
def frontier (g : JoinGraph) (visited : List JoinNode) : List JoinNode :=
  g.nodes.filter fun n =>
    !visited.any (·.name == n.name) && n.neighbors.any fun m => visited.any (·.name == m)

/-- Visits up to `limit` more nodes, each time the best one of the frontier. -/
def visit (g : JoinGraph) (weight : String → Nat) : Nat → List JoinNode → List JoinNode
  | 0, visited => visited
  | limit + 1, visited =>
    match best? weight (g.frontier visited) with
    | none => visited
    | some n => g.visit weight limit (visited ++ [n])

/-- The nodes in the order in which they are joined, or the first one that cannot be reached. -/
def order (g : JoinGraph) (weight : String → Nat) : Except PlanError (List JoinNode) :=
  match best? weight g.nodes with
  | none => .ok []
  | some start =>
    let visited := g.visit weight g.nodes.length [start]
    match g.nodes.find? fun n => !visited.any (·.name == n.name) with
    | some n => .error (.unsupportedJoin (.unconnected n.name))
    | none => .ok visited

end ShellQuery.JoinGraph
