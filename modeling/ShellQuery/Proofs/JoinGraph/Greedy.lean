import ShellQuery.Proofs.JoinGraph.Queue

/-!
# The order is the greedy one

`GreedyOrder` says of a list of names what an order of joins should be: it has every relation once,
the first one outranks all others, and each of the others is connected to one before it and outranks
whatever else could have come in its place. It speaks of the relations, their weights and their
edges only.

* `Built.greedyOrder_of_order`: an order that is found is greedy, because each node of it was the
  best of a frontier (`Chosen`);
* `Built.order_of_greedyOrder`: a greedy order is found, because a visit has to follow it
  (`GreedyOrder.visit`); so there is at most one;
* `order_greedy`: both together for every graph that is built, and what it depends on.
-/

namespace ShellQuery.JoinGraph

/-! ### Greedy orders -/

/-- The place at which the statement names a relation. -/
def place (relations : List Relation) (name : String) : Nat :=
  (relations.map Relation.name).idxOf name

/-- A relation has a greater weight than another, or it has the same one and an earlier place. -/
def Outranks (relations : List Relation) (weight : String → Nat) (a b : String) : Prop :=
  weight b < weight a ∨ weight a = weight b ∧ place relations a < place relations b

/-- A relation that is not listed yet and shares an edge with one that is. -/
def Bordering (edge : String → String → Prop) (listed : List String) (a : String) : Prop :=
  a ∉ listed ∧ ∃ b ∈ listed, edge a b

/-- All relations, the highest ranking one first, and then always the highest ranking one of those
that share an edge with a relation before. -/
structure GreedyOrder (relations : List Relation) (edge : String → String → Prop)
    (weight : String → Nat) (names : List String) : Prop where
  perm : names.Perm (relations.map Relation.name)
  first : ∀ a, names[0]? = some a →
    ∀ b ∈ relations.map Relation.name, b ≠ a → Outranks relations weight a b
  next : ∀ k a, names[k + 1]? = some a → Bordering edge (names.take (k + 1)) a ∧
    ∀ b, Bordering edge (names.take (k + 1)) b → b ≠ a → Outranks relations weight a b

/-! ### Graphs that are built -/

variable {relations : List Relation} {g g' : JoinGraph} {weight : String → Nat}

/-- Relations are added behind those that are there, and one with a name that is taken is refused.
-/
theorem map_name_foldlM_addRelation {g₁ : JoinGraph}
    (h : relations.foldlM addRelation g = .ok g₁) (hg : (g.nodes.map (·.name)).Nodup) :
    g₁.nodes.map (·.name) = g.nodes.map (·.name) ++ relations.map Relation.name ∧
      (g₁.nodes.map (·.name)).Nodup := by
  induction relations generalizing g with
  | nil =>
    obtain rfl := pure_ok_iff.1 h
    exact ⟨by rw [List.map_nil, List.append_nil], hg⟩
  | cons r rs ih =>
    obtain ⟨g₂, hadd, hrest⟩ := bind_ok_iff.1 h
    rw [addRelation] at hadd
    split at hadd
    · simp at hadd
    · next hnew =>
      obtain rfl := Except.ok.inj hadd
      have hnot : r.name ∉ g.nodes.map (·.name) := by
        intro hmem
        obtain ⟨n, hn, hname⟩ := List.mem_map.1 hmem
        exact hnew (List.find?_isSome.2 ⟨n, hn, beq_iff_eq.2 hname⟩)
      have hlonger : (g.nodes.map (·.name) ++ [r.name]).Nodup :=
        List.nodup_append.2 ⟨hg, List.nodup_singleton r.name, fun a ha b hb heq =>
          hnot (by rwa [← List.mem_singleton.1 hb, ← heq])⟩
      obtain ⟨hnames, hnodup⟩ := ih hrest (by rwa [List.map_append])
      refine ⟨?_, hnodup⟩
      rw [hnames, List.map_append, List.append_assoc]
      rfl

/-- No graph is built of relations with the same name. -/
theorem nodup_of_build {joins : List Comparison} (h : build relations joins = .ok g) :
    (relations.map Relation.name).Nodup := by
  obtain ⟨g₁, hg₁, -⟩ := bind_ok_iff.1 h
  obtain ⟨hnames, hnodup⟩ := map_name_foldlM_addRelation hg₁ List.nodup_nil
  rwa [hnames] at hnodup

/-- What is known of a graph that has been built of some relations. -/
structure Built (relations : List Relation) (g : JoinGraph) : Prop where
  names : g.nodes.map (·.name) = relations.map Relation.name
  nodup : (g.nodes.map (·.name)).Nodup
  position : ∀ n ∈ g.nodes, n.position = place relations n.name
  symm : ∀ a b, g.Adjacent a b → g.Adjacent b a
  irrefl : ∀ a, ¬g.Adjacent a a

/-- Nodes stand at the places of their relations, and each equality makes an edge in both directions
between two of them. -/
theorem built_of_build {joins : List Comparison} (h : build relations joins = .ok g) :
    Built relations g := by
  have hnodup := nodup_of_build h
  have hnames := map_name_build hnodup h
  obtain ⟨-, hadjacent⟩ := build_ok hnodup h
  refine ⟨hnames, hnames ▸ hnodup, fun n hn => ?_, fun a b hab => ?_, fun a haa => ?_⟩
  · have hmem : (n.name, n.path, n.position) ∈ g.skeleton := List.mem_map_of_mem hn
    rw [skeleton_build hnodup h] at hmem
    obtain ⟨⟨r, i⟩, hr, heq⟩ := List.mem_map.1 hmem
    obtain ⟨hname, hrest⟩ := Prod.mk.inj heq
    obtain ⟨hlt, hget⟩ := List.getElem?_eq_some_iff.1 (List.mem_zipIdx_iff_getElem?.1 hr)
    have hplace := hnodup.idxOf_getElem i (by rwa [List.length_map])
    rw [List.getElem_map, hget] at hplace
    rw [place, ← hname, hplace, ← (Prod.mk.inj hrest).2]
  · obtain ⟨c, hc, hjoins⟩ := (hadjacent a b).1 hab
    exact (hadjacent b a).2 ⟨c, hc, hjoins.symm⟩
  · obtain ⟨c, -, hjoins⟩ := (hadjacent a a).1 haa
    obtain ⟨l, r, -, -, -, -, hne⟩ | ⟨l, r, -, -, -, -, hne⟩ := hjoins
    · exact hne rfl
    · exact hne rfl

theorem frontier_subset (visited : List JoinNode) : g.frontier visited ⊆ g.nodes :=
  fun _ hn => (mem_frontier.1 hn).1

namespace Built

theorem eq_of_name (hg : Built relations g) {m n : JoinNode} (hm : m ∈ g.nodes) (hn : n ∈ g.nodes)
    (h : m.name = n.name) : m = n :=
  List.inj_on_of_nodup_map hg.nodup hm hn h

theorem mem_names_iff (hg : Built relations g) {a : String} :
    a ∈ relations.map Relation.name ↔ ∃ n ∈ g.nodes, n.name = a := by
  rw [← hg.names, List.mem_map]

theorem apart (hg : Built relations g) : Apart g.nodes := by
  intro m hm n hn hposition
  refine hg.eq_of_name hm hn ?_
  rw [hg.position m hm, hg.position n hn] at hposition
  exact (List.idxOf_inj (hg.mem_names_iff.2 ⟨m, hm, rfl⟩)).1 hposition

theorem precedes_iff_outranks (hg : Built relations g) {m n : JoinNode} (hm : m ∈ g.nodes)
    (hn : n ∈ g.nodes) :
    precedes weight m n = true ↔ Outranks relations weight m.name n.name := by
  rw [precedes_iff, Outranks, hg.position m hm, hg.position n hn]

/-- The best of some nodes is the one whose name outranks the other names. -/
theorem best?_eq_some_iff (hg : Built relations g) {ns : List JoinNode} (hns : ns ⊆ g.nodes)
    {n : JoinNode} : best? weight ns = some n ↔
      n ∈ ns ∧ ∀ m ∈ ns, m.name ≠ n.name → Outranks relations weight n.name m.name := by
  rw [JoinGraph.best?_eq_some_iff (hg.apart.subset hns)]
  refine and_congr_right fun hn => forall₂_congr fun m hm => ?_
  rw [hg.precedes_iff_outranks (hns hn) (hns hm)]
  exact imp_congr_left (not_congr ⟨congrArg _, hg.eq_of_name (hns hm) (hns hn)⟩)

theorem adjacent_iff (hg : Built relations g) {n : JoinNode} (hn : n ∈ g.nodes) {b : String} :
    g.Adjacent n.name b ↔ b ∈ n.neighbors := by
  refine ⟨fun ⟨m, hm, hname, hb⟩ => ?_, fun hb => ⟨n, hn, rfl, hb⟩⟩
  rwa [← hg.eq_of_name hm hn hname]

/-- The names of a frontier are those that border on what is visited. -/
theorem bordering_iff (hg : Built relations g) {visited : List JoinNode} {a : String} :
    Bordering g.Adjacent (visited.map (·.name)) a ↔ ∃ n ∈ g.frontier visited, n.name = a := by
  simp only [← Walk.due_iff, Walk.Due, Bordering]
  constructor
  · rintro ⟨hnew, b, hb, n, hn, rfl, hneighbor⟩
    exact ⟨n, ⟨hn, hnew, b, hneighbor, hb⟩, rfl⟩
  · rintro ⟨n, ⟨hn, hnew, b, hneighbor, hb⟩, rfl⟩
    exact ⟨hnew, b, hb, (hg.adjacent_iff hn).2 hneighbor⟩

/-- The next node to visit is the one whose name outranks all others that border on what is visited.
-/
theorem best?_frontier_iff (hg : Built relations g) {visited : List JoinNode} {n : JoinNode} :
    best? weight (g.frontier visited) = some n ↔ n ∈ g.nodes ∧
      Bordering g.Adjacent (visited.map (·.name)) n.name ∧
      ∀ b, Bordering g.Adjacent (visited.map (·.name)) b → b ≠ n.name →
        Outranks relations weight n.name b := by
  rw [hg.best?_eq_some_iff (frontier_subset visited)]
  simp only [hg.bordering_iff]
  constructor
  · rintro ⟨hn, hall⟩
    refine ⟨frontier_subset visited hn, ⟨n, hn, rfl⟩, ?_⟩
    rintro _ ⟨m, hm, rfl⟩ hne
    exact hall m hm hne
  · rintro ⟨hn, ⟨m, hm, hname⟩, hall⟩
    rw [hg.eq_of_name (frontier_subset visited hm) hn hname] at hm
    exact ⟨hm, fun k hk hne => hall k.name ⟨k, hk, rfl⟩ hne⟩

end Built

/-! ### An order is greedy -/

/-- Each node but the first was the best of the frontier of those before it. -/
def Chosen (g : JoinGraph) (weight : String → Nat) (visited : List JoinNode) : Prop :=
  ∀ k n, visited[k + 1]? = some n → best? weight (g.frontier (visited.take (k + 1))) = some n

theorem Chosen.append {visited : List JoinNode} (h : Chosen g weight visited) {n : JoinNode}
    (hn : best? weight (g.frontier visited) = some n) : Chosen g weight (visited ++ [n]) :=
  forall_getElem?_concat (P := fun before x => best? weight (g.frontier before) = some x) h hn

/-- A visit makes good choices and goes on from what was visited. -/
theorem Chosen.visit {visited : List JoinNode} (h : Chosen g weight visited) (limit : Nat) :
    Chosen g weight (g.visit weight limit visited) ∧
      ∃ later, g.visit weight limit visited = visited ++ later := by
  induction limit generalizing visited with
  | zero => exact ⟨h, [], (List.append_nil visited).symm⟩
  | succ limit ih =>
    rw [JoinGraph.visit]
    cases hbest : best? weight (g.frontier visited) with
    | none => exact ⟨h, [], (List.append_nil visited).symm⟩
    | some n =>
      obtain ⟨hchosen, later, hlater⟩ := ih (h.append hbest)
      refine ⟨hchosen, n :: later, hlater.trans ?_⟩
      rw [List.append_assoc, List.singleton_append]

/-- An order begins with the best of all nodes, and each further one was the best choice. -/
theorem chosen_order {visited : List JoinNode} (h : g.order weight = .ok visited) :
    visited[0]? = best? weight g.nodes ∧ Chosen g weight visited := by
  rw [order] at h
  split at h
  · next hbest =>
    obtain rfl := Except.ok.inj h
    exact ⟨hbest.symm, by simp [Chosen]⟩
  · next start hstart =>
    dsimp only at h
    split at h
    · simp at h
    · obtain rfl := Except.ok.inj h
      have hsingle : Chosen g weight [start] := by simp [Chosen]
      obtain ⟨hchosen, later, hlater⟩ := hsingle.visit g.nodes.length
      refine ⟨?_, hchosen⟩
      rw [hlater, hstart]
      rfl

namespace Built

/-- An order that is found is greedy. -/
theorem greedyOrder_of_order (hg : Built relations g) {visited : List JoinNode}
    (h : g.order weight = .ok visited) :
    GreedyOrder relations g.Adjacent weight (visited.map (·.name)) := by
  obtain ⟨-, hperm⟩ := order_ok hg.nodup h
  obtain ⟨hfirst, hchosen⟩ := chosen_order h
  refine ⟨hg.names ▸ hperm.map (·.name), fun a ha b hb hne => ?_, fun k a ha => ?_⟩
  · rw [List.getElem?_map, Option.map_eq_some_iff] at ha
    obtain ⟨n, hn, rfl⟩ := ha
    obtain ⟨m, hm, rfl⟩ := hg.mem_names_iff.1 hb
    have hbest := hfirst.symm.trans hn
    exact ((hg.best?_eq_some_iff (List.Subset.refl _)).1 hbest).2 m hm hne
  · rw [List.getElem?_map, Option.map_eq_some_iff] at ha
    obtain ⟨n, hn, rfl⟩ := ha
    rw [← List.map_take]
    exact (hg.best?_frontier_iff.1 (hchosen k n hn)).2

end Built

/-! ### A greedy order is found -/

/-- A visit that has followed a greedy order so far goes on to. -/
theorem GreedyOrder.visit (hg : Built relations g) {names : List String}
    (h : GreedyOrder relations g.Adjacent weight names) (limit : Nat) {k : Nat}
    {visited : List JoinNode} (hvisited : visited.map (·.name) = names.take (k + 1)) :
    (g.visit weight limit visited).map (·.name) = names.take (k + 1 + limit) := by
  induction limit generalizing k visited with
  | zero => exact hvisited
  | succ limit ih =>
    rw [JoinGraph.visit]
    cases hnext : names[k + 1]? with
    | none =>
      -- all names are listed, so none is left to border on them
      have hlength : names.length ≤ k + 1 := List.getElem?_eq_none_iff.1 hnext
      rw [List.take_of_length_le hlength] at hvisited
      have hnone : best? weight (g.frontier visited) = none := by
        rw [best?_eq_none_iff, List.eq_nil_iff_forall_not_mem]
        intro n hn
        obtain ⟨hnew, -⟩ := hg.bordering_iff.2 ⟨n, hn, rfl⟩
        rw [hvisited, h.perm.mem_iff] at hnew
        exact hnew (hg.mem_names_iff.2 ⟨n, frontier_subset visited hn, rfl⟩)
      rw [hnone, List.take_of_length_le (by omega)]
      exact hvisited
    | some a =>
      obtain ⟨n, hn, rfl⟩ := hg.mem_names_iff.1 (h.perm.mem_iff.1 (List.mem_of_getElem? hnext))
      have hbest : best? weight (g.frontier visited) = some n :=
        hg.best?_frontier_iff.2 ⟨hn, hvisited ▸ h.next k n.name hnext⟩
      have hstep : (visited ++ [n]).map (·.name) = names.take (k + 1 + 1) := by
        rw [List.map_append, hvisited, List.take_add_one (i := k + 1), hnext]
        rfl
      rw [hbest]
      calc (g.visit weight limit (visited ++ [n])).map (·.name)
          = names.take (k + 1 + 1 + limit) := ih hstep
        _ = names.take (k + 1 + (limit + 1)) := by
          rw [show k + 1 + 1 + limit = k + 1 + (limit + 1) by omega]

namespace Built

/-- A greedy order is found. -/
theorem order_of_greedyOrder (hg : Built relations g) {names : List String}
    (h : GreedyOrder relations g.Adjacent weight names) :
    ∃ visited, g.order weight = .ok visited ∧ visited.map (·.name) = names := by
  have hlength : names.length = g.nodes.length := by
    rw [h.perm.length_eq, ← hg.names, List.length_map]
  rw [order]
  cases hfirst : names[0]? with
  | none =>
    have hempty : names = [] := List.length_eq_zero_iff.1 (by simpa using hfirst)
    rw [hempty, List.length_nil] at hlength
    rw [List.length_eq_zero_iff.1 hlength.symm, hempty]
    exact ⟨[], rfl, rfl⟩
  | some a =>
    obtain ⟨start, hstart, rfl⟩ :=
      hg.mem_names_iff.1 (h.perm.mem_iff.1 (List.mem_of_getElem? hfirst))
    have hbest : best? weight g.nodes = some start :=
      (hg.best?_eq_some_iff (List.Subset.refl _)).2 ⟨hstart, fun m hm =>
        h.first start.name hfirst m.name (hg.mem_names_iff.2 ⟨m, hm, rfl⟩)⟩
    have hvisit : (g.visit weight g.nodes.length [start]).map (·.name) = names := by
      have hone : [start].map (·.name) = names.take (0 + 1) := by
        rw [List.take_add_one, hfirst]
        rfl
      rw [h.visit hg _ hone, List.take_of_length_le (by omega)]
    -- the visit has reached every name, so no relation is refused
    have hnone : g.nodes.find? (fun n =>
        !(g.visit weight g.nodes.length [start]).any (·.name == n.name)) = none := by
      rw [List.find?_eq_none]
      intro n hn
      have hmem : n.name ∈ (g.visit weight g.nodes.length [start]).map (·.name) := by
        rw [hvisit, h.perm.mem_iff]
        exact hg.mem_names_iff.2 ⟨n, hn, rfl⟩
      simpa using hmem
    rw [hbest]
    dsimp only
    rw [hnone]
    exact ⟨_, rfl, hvisit⟩

theorem order_eq_ok_iff (hg : Built relations g) {names : List String} :
    (g.order weight).map (List.map (·.name)) = .ok names ↔
      GreedyOrder relations g.Adjacent weight names := by
  rw [map_ok_iff]
  constructor
  · rintro ⟨visited, horder, rfl⟩
    exact hg.greedyOrder_of_order horder
  · exact hg.order_of_greedyOrder

/-- There is an order exactly when every relation can be reached from every other one. -/
theorem exists_order_iff_connected (hg : Built relations g) :
    (∃ visited, g.order weight = .ok visited) ↔
      ∀ r ∈ relations, ∀ s ∈ relations, g.Connected r.name s.name := by
  have hnames : ∀ P : String → Prop,
      (∀ n ∈ g.nodes, P n.name) ↔ ∀ r ∈ relations, P r.name := by
    intro P
    have hmap : (∀ a ∈ g.nodes.map (·.name), P a) ↔ ∀ a ∈ relations.map Relation.name, P a := by
      rw [hg.names]
    rwa [List.forall_mem_map, List.forall_mem_map] at hmap
  calc (∃ visited, g.order weight = .ok visited)
      ↔ ∀ m ∈ g.nodes, ∀ n ∈ g.nodes, g.Connected m.name n.name :=
        exists_order_iff hg.nodup hg.symm
    _ ↔ ∀ r ∈ relations, ∀ n ∈ g.nodes, g.Connected r.name n.name :=
        hnames fun a => ∀ n ∈ g.nodes, g.Connected a n.name
    _ ↔ ∀ r ∈ relations, ∀ s ∈ relations, g.Connected r.name s.name :=
        forall₂_congr fun r _ => hnames (g.Connected r.name)

end Built

/-! ### What the order depends on -/

/-- Two comparisons have the same sides, possibly in another order. -/
def SameSides (c d : Comparison) : Prop :=
  c.left = d.left ∧ c.right = d.right ∨ c.left = d.right ∧ c.right = d.left

/-- Two lists have the same equalities, in whatever order, orientation and number. -/
def SameJoins (joins joins' : List Comparison) : Prop :=
  (∀ c ∈ joins, ∃ d ∈ joins', SameSides c d) ∧ ∀ d ∈ joins', ∃ c ∈ joins, SameSides d c

theorem SameJoins.symm {joins joins' : List Comparison} (h : SameJoins joins joins') :
    SameJoins joins' joins :=
  ⟨h.2, h.1⟩

theorem SameSides.symm {c d : Comparison} (h : SameSides c d) : SameSides d c := by
  rcases h with ⟨hleft, hright⟩ | ⟨hleft, hright⟩
  · exact .inl ⟨hleft.symm, hright.symm⟩
  · exact .inr ⟨hright.symm, hleft.symm⟩

/-- The sides of an equality can be exchanged, which turns its edge round. -/
theorem SameSides.joins {c d : Comparison} (h : SameSides c d) {a b : String}
    (hc : g.Joins c a b) : g.Joins d a b ∨ g.Joins d b a := by
  obtain ⟨l, r, hl, hr, ha, hb, hne⟩ := hc
  rcases h with ⟨hleft, hright⟩ | ⟨hleft, hright⟩
  · exact .inl ⟨l, r, hleft ▸ hl, hright ▸ hr, ha, hb, hne⟩
  · exact .inr ⟨r, l, hright ▸ hr, hleft ▸ hl, hb, ha, hne.symm⟩

/-- Each edge of the one list is an edge of the other, in one of both directions. -/
theorem SameJoins.exists_joins {joins joins' : List Comparison} (h : SameJoins joins joins')
    {a b : String} (hc : ∃ c ∈ joins, g.Joins c a b ∨ g.Joins c b a) :
    ∃ d ∈ joins', g.Joins d a b ∨ g.Joins d b a := by
  obtain ⟨c, hc, hjoins⟩ := hc
  obtain ⟨d, hd, hsame⟩ := h.1 c hc
  refine ⟨d, hd, ?_⟩
  rcases hjoins with hjoins | hjoins
  · exact hsame.joins hjoins
  · exact (hsame.joins hjoins).symm

/-- The same equalities make the same edges. -/
theorem SameJoins.build {joins joins' : List Comparison} (h : SameJoins joins joins')
    (hg : build relations joins = .ok g) :
    ∃ g', JoinGraph.build relations joins' = .ok g' ∧ g'.Adjacent = g.Adjacent := by
  have hnodup := nodup_of_build hg
  -- an equality is refused for its sides only, so the other list is not refused either
  have hsucceeds : ∀ d ∈ joins', ∃ a b, (bare relations).Joins d a b := by
    intro d hd
    obtain ⟨c, hc, hsame⟩ := h.2 d hd
    obtain ⟨a, b, hjoins⟩ := (exists_build_iff hnodup).1 ⟨g, hg⟩ c hc
    rcases hsame.symm.joins hjoins with hjoins | hjoins
    · exact ⟨a, b, hjoins⟩
    · exact ⟨b, a, hjoins⟩
  obtain ⟨g', hg'⟩ := (exists_build_iff hnodup).2 hsucceeds
  refine ⟨g', hg', ?_⟩
  funext a b
  rw [eq_iff_iff]
  calc g'.Adjacent a b
      ↔ ∃ d ∈ joins', (bare relations).Joins d a b ∨ (bare relations).Joins d b a :=
        (build_ok hnodup hg').2 a b
    _ ↔ ∃ c ∈ joins, (bare relations).Joins c a b ∨ (bare relations).Joins c b a :=
        ⟨h.symm.exists_joins, h.exists_joins⟩
    _ ↔ g.Adjacent a b := ((build_ok hnodup hg).2 a b).symm

/-- A graph that is built has symmetric edges and no loops. There is an order exactly when all
relations are connected; it is the greedy one, it is the one that a queue finds, and it stays the
same when equalities are listed in another order, the other way round or once more. -/
theorem order_greedy {joins : List Comparison} (h : build relations joins = .ok g)
    (weight : String → Nat) :
    (∀ a b, g.Adjacent a b → g.Adjacent b a) ∧ (∀ a, ¬g.Adjacent a a) ∧
    ((∃ visited, g.order weight = .ok visited) ↔
      ∀ r ∈ relations, ∀ s ∈ relations, g.Connected r.name s.name) ∧
    (relations = [] → g.order weight = .ok []) ∧
    (∀ names, (g.order weight).map (List.map (·.name)) = .ok names ↔
      GreedyOrder relations g.Adjacent weight names) ∧
    g.queueOrder weight = some ((g.order weight).map (List.map (·.name))) ∧
    ∀ joins', SameJoins joins joins' → ∃ g', build relations joins' = .ok g' ∧
      ∀ names, (g'.order weight).map (List.map (·.name)) = .ok names ↔
        (g.order weight).map (List.map (·.name)) = .ok names := by
  have hg := built_of_build h
  refine ⟨hg.symm, hg.irrefl, hg.exists_order_iff_connected, ?_, fun names => hg.order_eq_ok_iff,
    queueOrder_eq hg.nodup hg.apart hg.symm weight, fun joins' hsame => ?_⟩
  · rintro rfl
    rw [order, List.map_eq_nil_iff.1 hg.names]
    rfl
  · obtain ⟨g', hg', hadjacent⟩ := hsame.build h
    refine ⟨g', hg', fun names => ?_⟩
    calc (g'.order weight).map (List.map (·.name)) = .ok names
        ↔ GreedyOrder relations g'.Adjacent weight names := (built_of_build hg').order_eq_ok_iff
      _ ↔ GreedyOrder relations g.Adjacent weight names := by rw [hadjacent]
      _ ↔ (g.order weight).map (List.map (·.name)) = .ok names := hg.order_eq_ok_iff.symm

/-- Three relations in a chain. -/
def chainRelations : List Relation :=
  [⟨"x.csv", some "a"⟩, ⟨"y.csv", some "b"⟩, ⟨"z.csv", some "c"⟩]

def chainJoins : List Comparison :=
  [⟨.ofText "b.k", .eq, .ofText "a.k"⟩, ⟨.ofText "C.m", .eq, .ofText "y.csv.m"⟩]

/-- The end of the chain has the greatest weight, and its middle has none. -/
def chainWeight : String → Nat :=
  weightOf [("a", 2), ("c", 5)]

def chainGraph : JoinGraph :=
  ⟨[⟨"a", "x.csv", 0, ["b"]⟩, ⟨"b", "y.csv", 1, ["a", "c"]⟩, ⟨"c", "z.csv", 2, ["b"]⟩]⟩

theorem order_chainGraph : build chainRelations chainJoins = .ok chainGraph ∧
    GreedyOrder chainRelations chainGraph.Adjacent chainWeight ["c", "b", "a"] ∧
    chainGraph.queueOrder chainWeight = some (.ok ["c", "b", "a"]) ∧
    ∃ g', build chainRelations (chainJoins ++ chainJoins.reverse) = .ok g' ∧
      (g'.order chainWeight).map (List.map (·.name)) = .ok ["c", "b", "a"] := by
  have hbuild : build chainRelations chainJoins = .ok chainGraph := by decide +kernel
  have horder : (chainGraph.order chainWeight).map (List.map (·.name)) = .ok ["c", "b", "a"] := by
    decide
  obtain ⟨-, -, -, -, hgreedy, hqueue, hsame⟩ := order_greedy hbuild chainWeight
  obtain ⟨g', hg', hnames⟩ := hsame (chainJoins ++ chainJoins.reverse)
    ⟨fun c hc => ⟨c, List.mem_append_left _ hc, .inl ⟨rfl, rfl⟩⟩,
      fun c hc => ⟨c, by simpa using hc, .inl ⟨rfl, rfl⟩⟩⟩
  exact ⟨hbuild, (hgreedy _).1 horder, hqueue.trans (congrArg some horder), g', hg',
    (hnames _).2 horder⟩

end ShellQuery.JoinGraph
