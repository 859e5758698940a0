import Mathlib.Data.List.Nodup
import Mathlib.Data.List.Perm.Subperm
import ShellQuery.JoinGraph.Order
import ShellQuery.Proofs.Outcome

/-!
# Which graphs are built and which orders are found

`Adjacent a b` says that the relation called `a` has the neighbour `b`.

* `exists_build_iff`, `build_ok`: a graph is built exactly when every equality joins two relations;
  its nodes are the relations in the order of the statement, and two of them are neighbours exactly
  when some equality joins them;
* `order_ok`: an order lists every node once, each behind a neighbour (`Visited`);
* `exists_order_iff`: there is an order exactly when all relations are connected.
-/

namespace ShellQuery.JoinGraph

variable {g g' : JoinGraph} {weight : String → Nat}

/-! ### The order -/

/-- The best node is one of the nodes. -/
theorem mem_of_best? {ns : List JoinNode} {n : JoinNode} (h : best? weight ns = some n) :
    n ∈ ns := by
  -- on the nodes: the best is the first or the best of the rest
  induction ns generalizing n with
  | nil => simp [best?] at h
  | cons m ms ih =>
    rw [best?] at h
    split at h
    · rw [← Option.some.inj h]
      exact List.mem_cons_self
    · next k hk =>
      rw [← Option.some.inj h]
      split
      · exact List.mem_cons_of_mem m (ih hk)
      · exact List.mem_cons_self

theorem best?_eq_none_iff {ns : List JoinNode} : best? weight ns = none ↔ ns = [] := by
  cases ns with
  | nil => simp [best?]
  | cons m ms =>
    rw [best?]
    split
    · simp
    · simp

/-- The frontier consists of the nodes that are not visited and have a visited neighbour. -/
theorem mem_frontier {visited : List JoinNode} {n : JoinNode} :
    n ∈ g.frontier visited ↔ n ∈ g.nodes ∧ (∀ m ∈ visited, m.name ≠ n.name) ∧
      ∃ m ∈ visited, m.name ∈ n.neighbors := by
  simp only [frontier, List.mem_filter, Bool.and_eq_true, Bool.not_eq_true', List.any_eq_false,
    List.any_eq_true, beq_iff_eq]
  refine and_congr_right fun _ => and_congr_right fun _ => ⟨?_, ?_⟩
  · rintro ⟨_, hx, m, hm, rfl⟩
    exact ⟨m, hm, hx⟩
  · rintro ⟨m, hm, hx⟩
    exact ⟨_, hx, m, hm, rfl⟩

/-- Nodes of the graph under different names, each but the first behind a neighbour. -/
structure Visited (g : JoinGraph) (visited : List JoinNode) : Prop where
  mem : ∀ n ∈ visited, n ∈ g.nodes
  nodup : (visited.map (·.name)).Nodup
  behind : ∀ k n, visited[k + 1]? = some n → ∃ m ∈ visited.take (k + 1), m.name ∈ n.neighbors

theorem visited_singleton {n : JoinNode} (h : n ∈ g.nodes) : Visited g [n] := by
  refine ⟨fun m hm => List.mem_singleton.1 hm ▸ h, by simp, fun k m hm => ?_⟩
  simp at hm

/-- What holds of each element and those before it holds in a longer list too, if it does of the
element that has been added. -/
theorem forall_getElem?_concat {α : Type} {P : List α → α → Prop} {as : List α} {a : α}
    (h : ∀ k x, as[k + 1]? = some x → P (as.take (k + 1)) x) (ha : P as a) :
    ∀ k x, (as ++ [a])[k + 1]? = some x → P ((as ++ [a]).take (k + 1)) x := by
  intro k x hx
  rcases Nat.lt_or_ge (k + 1) as.length with hlt | hge
  · rw [List.getElem?_append_left hlt] at hx
    rw [List.take_append_of_le_length (Nat.le_of_lt hlt)]
    exact h k x hx
  · have hk : k + 1 = as.length := by
      have := (List.getElem?_eq_some_iff.1 hx).1
      rw [List.length_append, List.length_singleton] at this
      omega
    rw [hk, List.getElem?_concat_length] at hx
    rw [hk, List.take_append_of_le_length (Nat.le_refl _), List.take_length, ← Option.some.inj hx]
    exact ha

/-- One more visit keeps the invariant. -/
theorem Visited.append {visited : List JoinNode} (h : Visited g visited) {n : JoinNode}
    (hn : n ∈ g.frontier visited) : Visited g (visited ++ [n]) := by
  obtain ⟨hmem, hnew, m, hm, hneighbor⟩ := mem_frontier.1 hn
  refine ⟨fun k hk => ?_, ?_, fun k x hx => ?_⟩
  · rcases List.mem_append.1 hk with hk | hk
    · exact h.mem k hk
    · rw [List.mem_singleton.1 hk]
      exact hmem
  · rw [List.map_append, List.map_singleton, List.nodup_append]
    refine ⟨h.nodup, List.nodup_singleton _, ?_⟩
    rintro a ha b hb rfl
    obtain ⟨m, hm, rfl⟩ := List.mem_map.1 ha
    exact hnew m hm (List.mem_singleton.1 hb)
  -- the new node stands behind the neighbour that put it into the frontier
  · exact forall_getElem?_concat (P := fun before x => ∃ m ∈ before, m.name ∈ x.neighbors)
      h.behind ⟨m, hm, hneighbor⟩ k x hx

/-- A visit keeps the invariant and what was visited, and it stops early only where the frontier is
empty. -/
theorem Visited.visit {visited : List JoinNode} (h : Visited g visited) (weight : String → Nat)
    (limit : Nat) :
    Visited g (g.visit weight limit visited) ∧ (∀ n ∈ visited, n ∈ g.visit weight limit visited) ∧
      (g.frontier (g.visit weight limit visited) = [] ∨
        (g.visit weight limit visited).length = visited.length + limit) := by
  -- on the number of visits that are left
  induction limit generalizing visited with
  | zero => exact ⟨h, fun n hn => hn, .inr rfl⟩
  | succ limit ih =>
    rw [JoinGraph.visit]
    cases hbest : best? weight (g.frontier visited) with
    | none => exact ⟨h, fun n hn => hn, .inl (best?_eq_none_iff.1 hbest)⟩
    | some n =>
      obtain ⟨hvisited, hkeep, hend⟩ := ih (h.append (mem_of_best? hbest))
      refine ⟨hvisited, fun m hm => hkeep m (List.mem_append_left _ hm), hend.imp_right ?_⟩
      intro hlength
      simp only [hlength, List.length_append, List.length_singleton]
      omega

theorem Visited.length_le {visited : List JoinNode} (h : Visited g visited) :
    visited.length ≤ g.nodes.length :=
  (List.subperm_of_subset (List.Nodup.of_map _ h.nodup) h.mem).length_le

/-- The visit from a start node ends with an empty frontier. -/
theorem frontier_visit_eq_nil (weight : String → Nat) {start : JoinNode} (h : start ∈ g.nodes) :
    g.frontier (g.visit weight g.nodes.length [start]) = [] := by
  obtain ⟨hvisited, -, hend | hlength⟩ :=
    (visited_singleton h).visit weight g.nodes.length
  · exact hend
  -- otherwise more nodes would be visited than the graph has
  · have := hvisited.length_le
    rw [hlength, List.length_singleton] at this
    omega

/-- An order of a graph with different names lists every node once, each behind a neighbour. -/
theorem order_ok (hnames : (g.nodes.map (·.name)).Nodup) {visited : List JoinNode}
    (h : g.order weight = .ok visited) : Visited g visited ∧ visited.Perm g.nodes := by
  rw [order] at h
  split at h
  · next hbest =>
    rw [best?_eq_none_iff] at hbest
    obtain rfl := Except.ok.inj h
    rw [hbest]
    exact ⟨⟨by simp, by simp, by simp⟩, .refl _⟩
  · next start hstart =>
    obtain ⟨hvisited, -, -⟩ :=
      (visited_singleton (mem_of_best? hstart)).visit weight g.nodes.length
    dsimp only at h
    split at h
    · simp at h
    · next hnone =>
      obtain rfl := Except.ok.inj h
      -- the order is refused if a node is left over, so every node is visited
      refine ⟨hvisited, (List.perm_ext_iff_of_nodup (List.Nodup.of_map _ hvisited.nodup)
        (List.Nodup.of_map _ hnames)).2 fun n => ⟨hvisited.mem n, fun hn => ?_⟩⟩
      have hfound := List.find?_eq_none.1 hnone n hn
      simp only [Bool.not_eq_true, Bool.not_eq_false', List.any_eq_true, beq_iff_eq] at hfound
      obtain ⟨m, hm, hname⟩ := hfound
      rwa [← List.inj_on_of_nodup_map hnames (hvisited.mem m hm) hn hname]

/-- Where names differ, a node is found under its name. -/
theorem node?_of_mem (hnames : (g.nodes.map (·.name)).Nodup) {n : JoinNode} (hn : n ∈ g.nodes) :
    g.node? n.name = some n := by
  have hsome : (g.node? n.name).isSome = true := List.find?_isSome.2 ⟨n, hn, BEq.rfl⟩
  obtain ⟨m, hm⟩ := Option.isSome_iff_exists.1 hsome
  rw [node?] at hm
  have hname : m.name = n.name := by simpa using List.find?_some hm
  rw [node?, hm, List.inj_on_of_nodup_map hnames (List.mem_of_find?_eq_some hm) hn hname]

/-- The relation called `a` has the neighbour `b`. -/
def Adjacent (g : JoinGraph) (a b : String) : Prop :=
  ∃ n ∈ g.nodes, n.name = a ∧ b ∈ n.neighbors

/-- Two relations are connected by a chain of neighbours. -/
abbrev Connected (g : JoinGraph) : String → String → Prop :=
  Relation.EqvGen g.Adjacent

/-- Every visited node is connected to the first one. -/
theorem Visited.connected_first {visited : List JoinNode} (h : Visited g visited) {s : JoinNode}
    (hs : visited[0]? = some s) {k : Nat} {n : JoinNode} (hn : visited[k]? = some n) :
    g.Connected s.name n.name := by
  -- strong induction, for the neighbour may stand anywhere in front
  induction k using Nat.strongRecOn generalizing n with
  | _ k ih =>
  cases k with
  | zero =>
    rw [Option.some.inj (hs.symm.trans hn)]
    exact .refl _
  | succ k =>
    obtain ⟨m, hm, hneighbor⟩ := h.behind k n hn
    obtain ⟨j, hj⟩ := List.mem_iff_getElem?.1 hm
    have hlt := (List.getElem?_eq_some_iff.1 hj).1
    rw [List.length_take] at hlt
    rw [List.getElem?_take_of_lt (by omega)] at hj
    refine .trans _ _ _ (ih j (by omega) hj) ?_
    exact .symm _ _ (.rel _ _ ⟨n, h.mem n (List.mem_of_getElem? hn), rfl, hneighbor⟩)

/-- Behind an empty frontier the neighbours of what is visited are visited too. -/
theorem exists_visited_of_adjacent {visited : List JoinNode} (hfrontier : g.frontier visited = [])
    {a b : String} (hab : g.Adjacent a b) (hb : ∃ m ∈ visited, m.name = b) :
    ∃ m ∈ visited, m.name = a := by
  obtain ⟨n, hn, rfl, hb'⟩ := hab
  obtain ⟨m, hm, rfl⟩ := hb
  by_contra hnot
  have hmem : n ∈ g.frontier visited :=
    mem_frontier.2 ⟨hn, fun k hk heq => hnot ⟨k, hk, heq⟩, m, hm, hb'⟩
  rw [hfrontier] at hmem
  exact absurd hmem List.not_mem_nil

/-- In a graph whose nodes are neighbours of each other, there is an order exactly when all nodes
are connected. -/
theorem exists_order_iff (hnames : (g.nodes.map (·.name)).Nodup)
    (hsymm : ∀ a b, g.Adjacent a b → g.Adjacent b a) :
    (∃ visited, g.order weight = .ok visited) ↔
      ∀ m ∈ g.nodes, ∀ n ∈ g.nodes, g.Connected m.name n.name := by
  constructor
  · rintro ⟨visited, horder⟩ m hm n hn
    obtain ⟨hvisited, hperm⟩ := order_ok hnames horder
    obtain ⟨j, hj⟩ := List.mem_iff_getElem?.1 (hperm.mem_iff.2 hm)
    obtain ⟨k, hk⟩ := List.mem_iff_getElem?.1 (hperm.mem_iff.2 hn)
    have hpos : 0 < visited.length := List.length_pos_of_mem (hperm.mem_iff.2 hm)
    have hs := List.getElem?_eq_getElem hpos
    exact .trans _ _ _ (.symm _ _ (hvisited.connected_first hs hj)) (hvisited.connected_first hs hk)
  · intro hconnected
    rw [order]
    split
    · exact ⟨[], rfl⟩
    · next start hstart =>
      have hmem := mem_of_best? hstart
      obtain ⟨-, hkeep, -⟩ := (visited_singleton hmem).visit weight g.nodes.length
      have hfrontier := frontier_visit_eq_nil weight hmem
      dsimp only
      generalize g.visit weight g.nodes.length [start] = visited at hkeep hfrontier ⊢
      -- what is visited is closed under being a neighbour, so it is everything
      have hclosed : ∀ a b, g.Adjacent a b →
          ((∃ m ∈ visited, m.name = a) ↔ ∃ m ∈ visited, m.name = b) := fun a b hab =>
        ⟨exists_visited_of_adjacent hfrontier (hsymm a b hab),
          exists_visited_of_adjacent hfrontier hab⟩
      have hall : ∀ n ∈ g.nodes, ∃ m ∈ visited, m.name = n.name := by
        intro n hn
        exact (iff_of_eqvGen (P := fun a => ∃ m ∈ visited, m.name = a) hclosed
          (hconnected start hmem n hn)).1 ⟨start, hkeep start (List.mem_singleton_self _), rfl⟩
      refine ⟨visited, ?_⟩
      rw [List.find?_eq_none.2]
      intro n hn
      simpa using hall n hn

/-! ### The graph -/

/-- The nodes of some relations before any of them has neighbours. -/
def bareNodes (relations : List Relation) (i : Nat) : List JoinNode :=
  (relations.zipIdx i).map fun r => ⟨r.1.name, r.1.path, r.2, []⟩

/-- Adding relations of different names appends their nodes, which have no neighbours yet. -/
theorem foldlM_addRelation {relations : List Relation} (g : JoinGraph)
    (hnodup : (relations.map Relation.name).Nodup)
    (hnew : ∀ r ∈ relations, ∀ n ∈ g.nodes, n.name ≠ r.name) :
    relations.foldlM addRelation g = .ok ⟨g.nodes ++ bareNodes relations g.nodes.length⟩ := by
  induction relations generalizing g with
  | nil =>
    rw [List.foldlM_nil, bareNodes, List.zipIdx_nil, List.map_nil, List.append_nil]
    rfl
  | cons r rs ih =>
    rw [List.map_cons, List.nodup_cons] at hnodup
    -- no node has the name so far, so the relation is not refused as a duplicate
    have hnone : g.node? r.name = none := by
      rw [node?, List.find?_eq_none]
      intro n hn
      simpa using hnew r List.mem_cons_self n hn
    rw [List.foldlM_cons, addRelation, hnone]
    have hrest := ih ⟨g.nodes ++ [⟨r.name, r.path, g.nodes.length, []⟩]⟩ hnodup.2 <| by
      intro r' hr' n hn
      rcases List.mem_append.1 hn with hn | hn
      · exact hnew r' (List.mem_cons_of_mem r hr') n hn
      · rw [List.mem_singleton.1 hn]
        exact fun heq => hnodup.1 (List.mem_map.2 ⟨r', hr', heq.symm⟩)
    refine Eq.trans hrest ?_
    simp [bareNodes, List.zipIdx_cons]

/-- What equalities leave as it is: the name, the path and the place of a node. -/
def skeleton (g : JoinGraph) : List (String × String × Nat) :=
  g.nodes.map fun n => (n.name, n.path, n.position)

/-- A further neighbour leaves the name, the path and the place of a node as they are. -/
theorem addNeighbor_skeleton (n : JoinNode) (x : String) : (n.addNeighbor x).name = n.name ∧
    (n.addNeighbor x).path = n.path ∧ (n.addNeighbor x).position = n.position := by
  unfold JoinNode.addNeighbor
  split
  · exact ⟨rfl, rfl, rfl⟩
  · exact ⟨rfl, rfl, rfl⟩

/-- An edge leaves the skeleton as it is. -/
theorem skeleton_connect (g : JoinGraph) (a b : String) :
    (g.connect a b).skeleton = g.skeleton := by
  rw [skeleton, connect, skeleton, List.map_map]
  refine List.map_congr_left fun n _ => ?_
  simp only [Function.comp]
  split
  · obtain ⟨hname, hpath, hposition⟩ := addNeighbor_skeleton n b
    rw [hname, hpath, hposition]
  · split
    · obtain ⟨hname, hpath, hposition⟩ := addNeighbor_skeleton n a
      rw [hname, hpath, hposition]
    · rfl

/-- Which relation a name belongs to depends on the names and paths only. -/
theorem relationOf_congr (h : g.skeleton = g'.skeleton) (n : ColumnName) :
    g.relationOf n = g'.relationOf n := by
  have hfind : ∀ (q : String) (ms : List JoinNode), (ms.find? (·.answersTo q)).map (·.name) =
      ((ms.map fun n => (n.name, n.path, n.position)).find? fun k =>
        Text.sameIgnoringCase k.1 q || Text.sameIgnoringCase k.2.1 q).map (·.1) := by
    intro q ms
    rw [List.find?_map, Option.map_map]
    rfl
  have hsome : ∀ (g : JoinGraph) (qs : List String),
      (qs.findSome? fun q => g.nodes.find? (·.answersTo q)).map (·.name) =
        qs.findSome? fun q => (g.nodes.find? (·.answersTo q)).map (·.name) := by
    intro g qs
    induction qs with
    | nil => rfl
    | cons q qs ih =>
      rw [List.findSome?_cons, List.findSome?_cons]
      cases g.nodes.find? (·.answersTo q) with
      | none => exact ih
      | some m => rfl
  -- the name is all that is kept of the node that is found
  have heq : ∀ g : JoinGraph, g.relationOf n =
      ((n.qualifiers.findSome? fun q => g.nodes.find? (·.answersTo q)).map (·.name)).elim
        (.error (.unknownColumn n.qualified)) .ok := by
    intro g
    rw [relationOf]
    cases n.qualifiers.findSome? fun q => g.nodes.find? (·.answersTo q) with
    | none => rfl
    | some m => rfl
  rw [heq g, heq g', hsome, hsome]
  simp only [hfind]
  rw [skeleton, skeleton] at h
  rw [h]

/-- An equality joins the relations called `a` and `b`. -/
def Joins (g : JoinGraph) (c : Comparison) (a b : String) : Prop :=
  ∃ l r, c.left = .column l ∧ c.right = .column r ∧ g.relationOf l = .ok a ∧
    g.relationOf r = .ok b ∧ a ≠ b

/-- An equality is added exactly when it joins two relations, and it makes an edge between them. -/
theorem addJoin_ok_iff {c : Comparison} :
    g.addJoin c = .ok g' ↔ ∃ a b, g.Joins c a b ∧ g' = g.connect a b := by
  unfold addJoin
  split
  · next l r hl hr =>
    simp only [Joins, hl, hr, Operand.column.injEq, exists_and_left, exists_eq_left', bind_ok_iff]
    constructor
    · rintro ⟨a, ha, b, hb, h⟩
      split at h
      · simp at h
      · next hne => exact ⟨a, b, ⟨ha, hb, by simpa using hne⟩, (pure_ok_iff.1 h).symm⟩
    · rintro ⟨a, b, ⟨ha, hb, hne⟩, rfl⟩
      exact ⟨a, ha, b, hb, by rw [if_neg (by simpa using hne)]; rfl⟩
  · next hne =>
    simp only [reduceCtorEq, false_iff]
    rintro ⟨a, b, ⟨l, r, hl, hr, -⟩, -⟩
    exact hne l r hl hr

theorem joins_congr (h : g.skeleton = g'.skeleton) {c : Comparison} {a b : String} :
    g.Joins c a b ↔ g'.Joins c a b := by
  simp only [Joins, relationOf_congr h]

theorem exists_node_of_relationOf {n : ColumnName} {a : String} (h : g.relationOf n = .ok a) :
    ∃ m ∈ g.nodes, m.name = a := by
  rw [relationOf] at h
  split at h
  · next m hm =>
    obtain ⟨q, -, hq⟩ := List.exists_of_findSome?_eq_some hm
    exact ⟨m, List.mem_of_find?_eq_some hq, Except.ok.inj h⟩
  · simp at h

/-- A node that is given a neighbour has it and those that it had. -/
theorem mem_addNeighbor {n : JoinNode} {x b : String} :
    b ∈ (n.addNeighbor x).neighbors ↔ b ∈ n.neighbors ∨ b = x := by
  unfold JoinNode.addNeighbor
  split
  · next h =>
    rw [List.contains_iff_mem] at h
    exact ⟨.inl, fun hb => hb.elim id fun hb => hb ▸ h⟩
  · simp

/-- An edge makes its two ends neighbours of each other and changes nothing else. -/
theorem adjacent_connect_iff {x y : String} (hx : ∃ m ∈ g.nodes, m.name = x)
    (hy : ∃ m ∈ g.nodes, m.name = y) (hxy : x ≠ y) {a b : String} :
    (g.connect x y).Adjacent a b ↔ g.Adjacent a b ∨ (a = x ∧ b = y) ∨ (a = y ∧ b = x) := by
  -- what becomes of a single node
  have hnode : ∀ n : JoinNode,
      let n' := if n.name == x then n.addNeighbor y else if n.name == y then n.addNeighbor x else n
      n'.name = n.name ∧ ∀ b, b ∈ n'.neighbors ↔
        b ∈ n.neighbors ∨ (n.name = x ∧ b = y) ∨ (n.name = y ∧ b = x) := by
    intro n
    have hname : ∀ z, (n.addNeighbor z).name = n.name := fun z => (addNeighbor_skeleton n z).1
    dsimp only
    split
    · next h =>
      rw [beq_iff_eq] at h
      refine ⟨hname y, fun b => ?_⟩
      rw [mem_addNeighbor, h]
      simp [hxy]
    · next h =>
      rw [beq_iff_eq] at h
      split
      · next h' =>
        rw [beq_iff_eq] at h'
        refine ⟨hname x, fun b => ?_⟩
        rw [mem_addNeighbor]
        simp [h', Ne.symm hxy]
      · next h' =>
        rw [beq_iff_eq] at h'
        exact ⟨rfl, fun b => by simp [h, h']⟩
  -- the nodes keep their names, so the edge is seen node by node
  have hmap : (g.connect x y).Adjacent a b ↔ ∃ n ∈ g.nodes, n.name = a ∧
      (b ∈ n.neighbors ∨ (n.name = x ∧ b = y) ∨ (n.name = y ∧ b = x)) := by
    constructor
    · rintro ⟨n', hn', hname, hb⟩
      obtain ⟨n, hn, rfl⟩ := List.mem_map.1 hn'
      exact ⟨n, hn, (hnode n).1.symm.trans hname, ((hnode n).2 b).1 hb⟩
    · rintro ⟨n, hn, hname, hb⟩
      exact ⟨_, List.mem_map_of_mem hn, (hnode n).1.trans hname, ((hnode n).2 b).2 hb⟩
  rw [hmap]
  constructor
  · rintro ⟨n, hn, rfl, hb | hb⟩
    · exact .inl ⟨n, hn, rfl, hb⟩
    · exact .inr hb
  · rintro (⟨n, hn, hname, hb⟩ | ⟨rfl, hb⟩ | ⟨rfl, hb⟩)
    · exact ⟨n, hn, hname, .inl hb⟩
    · obtain ⟨n, hn, hname⟩ := hx
      exact ⟨n, hn, hname, .inr (.inl ⟨hname, hb⟩)⟩
    · obtain ⟨n, hn, hname⟩ := hy
      exact ⟨n, hn, hname, .inr (.inr ⟨hname, hb⟩)⟩

/-- Adding equalities succeeds exactly when each joins two relations, it leaves the skeleton as it
is, and it makes neighbours of what the equalities join. -/
theorem foldlM_addJoin_ok_iff {joins : List Comparison} (g : JoinGraph) :
    ((∃ g', joins.foldlM addJoin g = .ok g') ↔ ∀ c ∈ joins, ∃ a b, g.Joins c a b) ∧
    ∀ g', joins.foldlM addJoin g = .ok g' → g'.skeleton = g.skeleton ∧
      ∀ a b, g'.Adjacent a b ↔
        g.Adjacent a b ∨ ∃ c ∈ joins, g.Joins c a b ∨ g.Joins c b a := by
  -- on the equalities; each is read against a graph with the skeleton of the first one
  induction joins generalizing g with
  | nil =>
    refine ⟨by simp [pure, Except.pure], fun g' h => ?_⟩
    obtain rfl := pure_ok_iff.1 h
    exact ⟨rfl, by simp⟩
  | cons c cs ih =>
    constructor
    · simp only [List.foldlM_cons, bind_ok_iff, List.forall_mem_cons]
      constructor
      · rintro ⟨g₂, g₁, hg₁, hg₂⟩
        obtain ⟨x, y, hjoins, rfl⟩ := addJoin_ok_iff.1 hg₁
        refine ⟨⟨x, y, hjoins⟩, fun d hd => ?_⟩
        obtain ⟨a, b, hd⟩ := (ih _).1.1 ⟨g₂, hg₂⟩ d hd
        exact ⟨a, b, (joins_congr (skeleton_connect g x y)).1 hd⟩
      · rintro ⟨⟨x, y, hjoins⟩, hrest⟩
        obtain ⟨g₂, hg₂⟩ := (ih (g.connect x y)).1.2 fun d hd => by
          obtain ⟨a, b, hd⟩ := hrest d hd
          exact ⟨a, b, (joins_congr (skeleton_connect g x y)).2 hd⟩
        exact ⟨g₂, _, addJoin_ok_iff.2 ⟨x, y, hjoins, rfl⟩, hg₂⟩
    · intro g₂ h
      rw [List.foldlM_cons, bind_ok_iff] at h
      obtain ⟨g₁, hg₁, hg₂⟩ := h
      obtain ⟨x, y, hjoins, rfl⟩ := addJoin_ok_iff.1 hg₁
      obtain ⟨hskeleton, hadjacent⟩ := (ih _).2 g₂ hg₂
      refine ⟨hskeleton.trans (skeleton_connect g x y), fun a b => ?_⟩
      obtain ⟨l, r, hl, hr, hlx, hry, hne⟩ := hjoins
      rw [hadjacent, adjacent_connect_iff (exists_node_of_relationOf hlx)
        (exists_node_of_relationOf hry) hne]
      -- the first equality joins no other two relations
      have hunique : ∀ {a b}, g.Joins c a b ↔ a = x ∧ b = y := by
        intro a b
        constructor
        · rintro ⟨l', r', hl', hr', ha, hb, -⟩
          obtain rfl := Operand.column.inj (hl.symm.trans hl')
          obtain rfl := Operand.column.inj (hr.symm.trans hr')
          exact ⟨(Except.ok.inj (hlx.symm.trans ha)).symm, (Except.ok.inj (hry.symm.trans hb)).symm⟩
        · rintro ⟨rfl, rfl⟩
          exact ⟨l, r, hl, hr, hlx, hry, hne⟩
      simp only [joins_congr (skeleton_connect g x y)]
      have hhead : (∃ d ∈ c :: cs, g.Joins d a b ∨ g.Joins d b a) ↔
          ((a = x ∧ b = y) ∨ (a = y ∧ b = x)) ∨ ∃ d ∈ cs, g.Joins d a b ∨ g.Joins d b a := by
        simp only [List.mem_cons, exists_eq_or_imp, hunique, and_comm (a := b = x)]
      rw [hhead, or_assoc]

/-- The graph of some relations before any of them has neighbours. -/
def bare (relations : List Relation) : JoinGraph :=
  ⟨bareNodes relations 0⟩

theorem build_eq {relations : List Relation} (hnodup : (relations.map Relation.name).Nodup)
    (joins : List Comparison) : build relations joins = joins.foldlM addJoin (bare relations) := by
  rw [build, foldlM_addRelation ⟨[]⟩ hnodup fun _ _ _ hn => absurd hn List.not_mem_nil]
  rfl

/-- A graph is built exactly when every equality joins two relations. -/
theorem exists_build_iff {relations : List Relation} {joins : List Comparison}
    (hnodup : (relations.map Relation.name).Nodup) :
    (∃ g, build relations joins = .ok g) ↔
      ∀ c ∈ joins, ∃ a b, (bare relations).Joins c a b := by
  rw [build_eq hnodup]
  exact (foldlM_addJoin_ok_iff (bare relations)).1

/-- A graph has the skeleton of its relations, and an edge for each equality between them. -/
theorem build_ok {relations : List Relation} {joins : List Comparison}
    (hnodup : (relations.map Relation.name).Nodup) (h : build relations joins = .ok g) :
    g.skeleton = (bare relations).skeleton ∧ ∀ a b, g.Adjacent a b ↔
      ∃ c ∈ joins, (bare relations).Joins c a b ∨ (bare relations).Joins c b a := by
  rw [build_eq hnodup] at h
  obtain ⟨hskeleton, hadjacent⟩ := (foldlM_addJoin_ok_iff (bare relations)).2 g h
  refine ⟨hskeleton, fun a b => ?_⟩
  -- before the first equality nothing has a neighbour
  have hbare : ¬(bare relations).Adjacent a b := by
    rintro ⟨n, hn, -, hb⟩
    obtain ⟨r, -, rfl⟩ := List.mem_map.1 hn
    exact absurd hb List.not_mem_nil
  rw [hadjacent, or_iff_right hbare]

/-- The nodes of a graph are its relations in the order of the statement. -/
theorem skeleton_build {relations : List Relation} {joins : List Comparison}
    (hnodup : (relations.map Relation.name).Nodup) (h : build relations joins = .ok g) :
    g.skeleton = relations.zipIdx.map fun r => (r.1.name, r.1.path, r.2) := by
  rw [(build_ok hnodup h).1, skeleton, bare, bareNodes, List.map_map]
  rfl

/-- The nodes carry the names of the relations, in the order of the statement. -/
theorem map_name_build {relations : List Relation} {joins : List Comparison}
    (hnodup : (relations.map Relation.name).Nodup) (h : build relations joins = .ok g) :
    g.nodes.map (·.name) = relations.map Relation.name := by
  calc g.nodes.map (·.name) = g.skeleton.map (·.1) := by rw [skeleton, List.map_map]; rfl
    _ = (relations.zipIdx.map fun r => (r.1.name, r.1.path, r.2)).map (·.1) := by
        rw [skeleton_build hnodup h]
    _ = (relations.zipIdx.map Prod.fst).map Relation.name := by
        rw [List.map_map, List.map_map]
        rfl
    _ = relations.map Relation.name := by rw [List.zipIdx_map_fst]

theorem map_position_build {relations : List Relation} {joins : List Comparison}
    (hnodup : (relations.map Relation.name).Nodup) (h : build relations joins = .ok g) :
    g.nodes.map (·.position) = List.range relations.length := by
  calc g.nodes.map (·.position) = g.skeleton.map (·.2.2) := by rw [skeleton, List.map_map]; rfl
    _ = (relations.zipIdx.map fun r => (r.1.name, r.1.path, r.2)).map (·.2.2) := by
        rw [skeleton_build hnodup h]
    _ = relations.zipIdx.map Prod.snd := by rw [List.map_map]; rfl
    _ = List.range relations.length := by rw [List.zipIdx_map_snd, List.range_eq_range']

end ShellQuery.JoinGraph
