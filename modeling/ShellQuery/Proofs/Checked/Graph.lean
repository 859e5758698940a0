import ShellQuery.Proofs.Checked.Lookup
import ShellQuery.Proofs.JoinGraph.Order
import ShellQuery.Table.Basic

/-!
# Checked join graphs

An equality looks up the nodes of the two relations that its columns belong to, which are nodes of
the graph: `addJoin_eq`, `build_eq`. The tables are then taken out of their slots in the order of
the joins. Every relation has a slot of its own, so each table is there when its turn comes:
`takeTables_eq`.
-/

namespace ShellQuery.Checked

/-! ### Building the graph -/

/-- Records a neighbour of the relation with the given name, which must be in the graph. -/
def addNeighbor (g : JoinGraph) (name neighbor : String) : Except Stop JoinGraph :=
  match g.node? name with
  | some _ => .ok ⟨g.nodes.map fun n => if n.name == name then n.addNeighbor neighbor else n⟩
  | none => .error .outOfRange

/-- Adds the edge of an equality between columns of two relations. -/
def addJoin (g : JoinGraph) (c : Comparison) : Except Stop JoinGraph :=
  match c.left, c.right with
  | .column l, .column r => do
    let left ← lift (g.relationOf l)
    let right ← lift (g.relationOf r)
    if left == right then .error (.refused (.unsupportedJoin (.sameRelation c.describe)))
    else
      let half ← addNeighbor g left right
      addNeighbor half right left
  | _, _ => .error (.refused (.unsupportedJoin (.operandNotColumn c.describe)))

/-- The graph of some relations and the equalities between them. -/
def build (relations : List Relation) (joins : List Comparison) : Except Stop JoinGraph := do
  let g ← lift (relations.foldlM JoinGraph.addRelation ⟨[]⟩)
  joins.foldlM addJoin g

section

variable {g : JoinGraph} {name : String}

theorem addNeighbor_eq (h : ∃ n ∈ g.nodes, n.name = name) (neighbor : String) :
    addNeighbor g name neighbor =
      .ok ⟨g.nodes.map fun n => if n.name == name then n.addNeighbor neighbor else n⟩ := by
  obtain ⟨n, hn, hname⟩ := h
  have hsome : (g.node? name).isSome = true :=
    List.find?_isSome.2 ⟨n, hn, beq_iff_eq.2 hname⟩
  obtain ⟨m, hm⟩ := Option.isSome_iff_exists.1 hsome
  rw [addNeighbor, hm]

/-- Two relations become neighbours of each other one after the other. -/
theorem addNeighbor_addNeighbor {left right : String} (hleft : ∃ n ∈ g.nodes, n.name = left)
    (hright : ∃ n ∈ g.nodes, n.name = right) (hne : left ≠ right) :
    (do let half ← addNeighbor g left right
        addNeighbor half right left) = .ok (g.connect left right) := by
  -- the node of the right relation is still there under its name
  have hname : ∀ n : JoinNode,
      (if n.name == left then n.addNeighbor right else n).name = n.name := by
    intro n
    split
    · exact (JoinGraph.addNeighbor_skeleton n right).1
    · rfl
  obtain ⟨m, hm, hmright⟩ := hright
  have hright' : ∃ n ∈ g.nodes.map fun n => if n.name == left then n.addNeighbor right else n,
      n.name = right :=
    ⟨_, List.mem_map_of_mem hm, (hname m).trans hmright⟩
  rw [addNeighbor_eq hleft, ok_bind, addNeighbor_eq hright', JoinGraph.connect, List.map_map]
  refine congrArg (fun nodes => Except.ok (JoinGraph.mk nodes)) (List.map_congr_left fun n _ => ?_)
  simp only [Function.comp, hname]
  by_cases hl : n.name = left
  · have hnotRight : (n.name == right) = false := by
      rw [beq_eq_false_iff_ne, hl]
      exact hne
    simp only [hnotRight, Bool.false_eq_true, ↓reduceIte]
  · have hnotLeft : (n.name == left) = false := beq_eq_false_iff_ne.2 hl
    simp only [hnotLeft, Bool.false_eq_true, ↓reduceIte]

theorem addJoin_eq (g : JoinGraph) (c : Comparison) : addJoin g c = lift (g.addJoin c) := by
  unfold addJoin JoinGraph.addJoin
  cases c.left with
  | literal text => rfl
  | column l =>
    cases c.right with
    | literal text => rfl
    | column r =>
      -- both nodes are there, since the two columns belong to them
      refine bind_lift fun left hleft => ?_
      refine bind_lift fun right hright => ?_
      by_cases heq : left = right
      · simp only [heq, BEq.rfl, ↓reduceIte]
        rfl
      · have hnot : (left == right) = false := beq_eq_false_iff_ne.2 heq
        simp only [hnot, Bool.false_eq_true, ↓reduceIte]
        exact addNeighbor_addNeighbor (JoinGraph.exists_node_of_relationOf hleft)
          (JoinGraph.exists_node_of_relationOf hright) heq

theorem build_eq (relations : List Relation) (joins : List Comparison) :
    build relations joins = lift (JoinGraph.build relations joins) := by
  refine bind_lift fun g _ => ?_
  apply foldlM_lift joins (fun _ => True) trivial
  · exact fun g _ c _ => addJoin_eq g c
  · exact fun _ _ _ _ _ _ => trivial

end

/-! ### Taking the tables -/

/-- Takes the tables of some relations out of their slots, in the given order. A name that the graph
does not have and a slot that is empty are passed over. -/
def takeTables (g : JoinGraph) : List (Option Table) → List String → Except Stop (List Table)
  | _, [] => .ok []
  | slots, name :: names =>
    match g.node? name with
    | none => takeTables g slots names
    | some n => do
      let slot ← lookup slots n.position
      let rest ← takeTables g (slots.set n.position none) names
      return slot.toList ++ rest

/-- Nodes with slots of their own, all of them filled, give their tables. -/
theorem takeTables_of_filled {g : JoinGraph} {tables : List Table} {order : List JoinNode}
    (hnodes : ∀ n ∈ order, g.node? n.name = some n) (hnodup : (order.map (·.position)).Nodup)
    {slots : List (Option Table)}
    (hslots : ∀ n ∈ order, ∃ t, tables[n.position]? = some t ∧
      slots[n.position]? = some (some t)) :
    takeTables g slots (order.map (·.name)) =
      .ok (order.filterMap fun n => tables[n.position]?) := by
  induction order generalizing slots with
  | nil => rfl
  | cons n order ih =>
    rw [List.map_cons, List.nodup_cons] at hnodup
    obtain ⟨t, ht, hslot⟩ := hslots n List.mem_cons_self
    -- the slots of the nodes to come stay as they are
    have hkept : ∀ m ∈ order, ∃ t, tables[m.position]? = some t ∧
        (slots.set n.position none)[m.position]? = some (some t) := by
      intro m hm
      have hne : n.position ≠ m.position := fun heq =>
        hnodup.1 (List.mem_map.2 ⟨m, hm, heq.symm⟩)
      rw [List.getElem?_set_ne hne]
      exact hslots m (List.mem_cons_of_mem n hm)
    have hrest := ih (fun m hm => hnodes m (List.mem_cons_of_mem n hm)) hnodup.2 hkept
    rw [List.map_cons, takeTables, hnodes n List.mem_cons_self,
      List.filterMap_cons_some (f := fun n : JoinNode => tables[n.position]?) ht]
    dsimp only
    rw [lookup_eq_ok hslot, ok_bind, hrest]
    rfl

/-- In the order of the joins, the table of every relation is taken from its slot. -/
theorem takeTables_eq {relations : List Relation} {joins : List Comparison} {g : JoinGraph}
    {weight : String → Nat} {order : List JoinNode} {tables : List Table}
    (hnodup : (relations.map Relation.name).Nodup)
    (hgraph : JoinGraph.build relations joins = .ok g) (horder : g.order weight = .ok order)
    (htables : tables.length = relations.length) :
    takeTables g (tables.map some) (order.map (·.name)) =
      .ok (order.filterMap fun n => tables[n.position]?) := by
  have hnames : (g.nodes.map (·.name)).Nodup := by
    rw [JoinGraph.map_name_build hnodup hgraph]
    exact hnodup
  have hperm : order.Perm g.nodes := (JoinGraph.order_ok hnames horder).2
  -- the order visits every place once, so no table is taken twice
  have hpositions : (order.map (·.position)).Perm (List.range relations.length) := by
    rw [← JoinGraph.map_position_build hnodup hgraph]
    exact hperm.map _
  apply takeTables_of_filled
  · exact fun n hn => JoinGraph.node?_of_mem hnames (hperm.mem_iff.1 hn)
  · exact hpositions.nodup_iff.2 List.nodup_range
  · intro n hn
    have hlt : n.position < tables.length := by
      rw [htables, ← List.mem_range, ← hpositions.mem_iff]
      exact List.mem_map_of_mem hn
    have ht : tables[n.position]? = some tables[n.position] := List.getElem?_eq_getElem hlt
    refine ⟨tables[n.position], ht, ?_⟩
    rw [List.getElem?_map, ht]
    rfl

end ShellQuery.Checked
