import ShellQuery.Proofs.JoinGraph.Order

/-!
# Finding the order with a queue

An order is found by taking, again and again, the best node of the frontier. The frontier need not
be computed anew each time. A `Walk` keeps the nodes that wait for their turn in a queue, with their
names in a set of their own; it takes the best of them, visits it, and looks at the neighbours of
that one node only.

* `order_congr`: only the weights of the nodes matter, and nodes without a weight of their own have
  none (`weightOf_eq_zero`);
* `best?_eq_some_iff`: which node is the best does not depend on the order they are listed in;
* `Walk.Follows`: the queue holds every node of the frontier, once; a visit keeps this
  (`Walk.Ready.visit`), and so does taking the best node (`Walk.Follows.dequeue`);
* `queueOrder_eq`: the walk ends, and with the same order, or the same error.
-/

namespace ShellQuery.JoinGraph

variable {g : JoinGraph} {weight weight' : String → Nat}

/-! ### Weights -/

theorem weightOf_cons (name : String) (w : Nat) (weights : List (String × Nat)) (n : String) :
    weightOf ((name, w) :: weights) n = if n = name then w else weightOf weights n := by
  unfold weightOf
  rw [List.lookup_cons]
  by_cases h : n = name
  · rw [if_pos h, h, beq_self_eq_true]
    rfl
  · rw [if_neg h, beq_false_of_ne h]

theorem weightOf_eq_zero {weights : List (String × Nat)} {name : String}
    (h : ∀ w ∈ weights, w.1 ≠ name) : weightOf weights name = 0 := by
  induction weights with
  | nil => rfl
  | cons w weights ih =>
    obtain ⟨hw, hweights⟩ := List.forall_mem_cons.1 h
    rw [weightOf_cons, if_neg (Ne.symm hw), ih hweights]

/-- Every weight of the nodes can be given by their names. -/
theorem weightOf_map (weight : String → Nat) {n : JoinNode} {ns : List JoinNode} (h : n ∈ ns) :
    weightOf (ns.map fun m => (m.name, weight m.name)) n.name = weight n.name := by
  induction ns with
  | nil => exact absurd h List.not_mem_nil
  | cons m ns ih =>
    rw [List.map_cons, weightOf_cons]
    by_cases hm : n.name = m.name
    · rw [if_pos hm, hm]
    · rw [if_neg hm]
      rcases List.mem_cons.1 h with rfl | h
      · exact absurd rfl hm
      · exact ih h

/-- Which node is the best depends on the weights of the nodes only. -/
theorem best?_congr_weight {ns : List JoinNode} (h : ∀ n ∈ ns, weight n.name = weight' n.name) :
    best? weight ns = best? weight' ns := by
  induction ns with
  | nil => rfl
  | cons n ns ih =>
    obtain ⟨hn, hns⟩ := List.forall_mem_cons.1 h
    rw [best?, best?, ih hns]
    cases hbest : best? weight' ns with
    | none => rfl
    | some m =>
      have hprecedes : precedes weight m n = precedes weight' m n := by
        rw [precedes, precedes, hn, hns m (mem_of_best? hbest)]
      dsimp only
      rw [hprecedes]

/-- The order depends on the weights of the nodes only. -/
theorem order_congr (h : ∀ n ∈ g.nodes, weight n.name = weight' n.name) :
    g.order weight = g.order weight' := by
  have hvisit : ∀ limit visited, g.visit weight limit visited = g.visit weight' limit visited := by
    intro limit
    induction limit with
    | zero => exact fun _ => rfl
    | succ limit ih =>
      intro visited
      have hfrontier : ∀ n ∈ g.frontier visited, weight n.name = weight' n.name :=
        fun n hn => h n (mem_frontier.1 hn).1
      rw [visit, visit, best?_congr_weight hfrontier]
      cases best? weight' (g.frontier visited) with
      | none => rfl
      | some n => exact ih _
  rw [order, order, best?_congr_weight h]
  simp only [hvisit]

theorem order_weightOf (weight : String → Nat) :
    g.order (weightOf (g.nodes.map fun n => (n.name, weight n.name))) = g.order weight :=
  order_congr fun _ hn => weightOf_map weight hn

/-! ### The best node -/

theorem precedes_iff {m n : JoinNode} : precedes weight m n = true ↔
    weight n.name < weight m.name ∨ weight m.name = weight n.name ∧ m.position < n.position := by
  simp [precedes]

theorem precedes_asymm {m n : JoinNode} (h : precedes weight m n = true) :
    precedes weight n m = false := by
  rw [Bool.eq_false_iff, Ne, precedes_iff]
  have := precedes_iff.1 h
  omega

/-- The nodes are at different places of the statement. -/
def Apart (ns : List JoinNode) : Prop :=
  ∀ m ∈ ns, ∀ n ∈ ns, m.position = n.position → m = n

theorem Apart.subset {ns ns' : List JoinNode} (h : Apart ns) (hsub : ns' ⊆ ns) : Apart ns' :=
  fun m hm n hn => h m (hsub hm) n (hsub hn)

/-- Of two different nodes one goes before the other. -/
theorem Apart.precedes_total {ns : List JoinNode} (h : Apart ns) {m n : JoinNode} (hm : m ∈ ns)
    (hn : n ∈ ns) (hne : m ≠ n) (hnot : ¬precedes weight m n = true) :
    precedes weight n m = true := by
  have hplace : m.position ≠ n.position := fun heq => hne (h m hm n hn heq)
  rw [precedes_iff] at hnot ⊢
  omega

theorem precedes_trans {l m n : JoinNode} (h : precedes weight l m = true)
    (h' : precedes weight m n = true) : precedes weight l n = true := by
  rw [precedes_iff] at *
  omega

/-- The best node goes before all others. -/
theorem precedes_of_best? {ns : List JoinNode} (h : Apart ns) {n : JoinNode}
    (hbest : best? weight ns = some n) : ∀ m ∈ ns, m ≠ n → precedes weight n m = true := by
  induction ns generalizing n with
  | nil => simp [best?] at hbest
  | cons a as ih =>
    have has : Apart as := h.subset (List.subset_cons_self a as)
    rw [best?] at hbest
    split at hbest
    · next hnone =>
      obtain rfl := Option.some.inj hbest
      obtain rfl := best?_eq_none_iff.1 hnone
      intro m hm hne
      exact absurd (List.mem_singleton.1 hm) hne
    · next k hk =>
      have hrest := ih has hk
      have hka := mem_of_best? hk
      split at hbest
      · next hprecedes =>
        obtain rfl := Option.some.inj hbest
        intro m hm hne
        rcases List.mem_cons.1 hm with rfl | hm
        · exact hprecedes
        · exact hrest m hm hne
      · next hnot =>
        obtain rfl := Option.some.inj hbest
        intro m hm hne
        rcases List.mem_cons.1 hm with rfl | hm
        · exact absurd rfl hne
        · -- the first node goes before the best of the others, or is that one itself
          by_cases hka' : k = a
          · rw [← hka'] at hne ⊢
            exact hrest m hm hne
          · have hak := h.precedes_total (List.mem_cons_of_mem a hka) List.mem_cons_self hka' hnot
            by_cases hmk : m = k
            · rwa [hmk]
            · exact precedes_trans hak (hrest m hm hmk)

/-- The best node is the one that goes before all others. -/
theorem best?_eq_some_iff {ns : List JoinNode} (h : Apart ns) {n : JoinNode} :
    best? weight ns = some n ↔ n ∈ ns ∧ ∀ m ∈ ns, m ≠ n → precedes weight n m = true := by
  refine ⟨fun hbest => ⟨mem_of_best? hbest, precedes_of_best? h hbest⟩, fun ⟨hn, hall⟩ => ?_⟩
  cases hbest : best? weight ns with
  | none =>
    rw [best?_eq_none_iff.1 hbest] at hn
    exact absurd hn List.not_mem_nil
  | some k =>
    by_contra hne
    have hkn : k ≠ n := fun heq => hne (congrArg some heq)
    have hnk := hall k (mem_of_best? hbest) hkn
    rw [precedes_asymm (precedes_of_best? h hbest n hn hkn.symm)] at hnk
    exact Bool.false_ne_true hnk

/-- The best node does not depend on the order in which nodes are listed. -/
theorem best?_congr {ns ns' : List JoinNode} (h : Apart ns) (hmem : ∀ n, n ∈ ns ↔ n ∈ ns') :
    best? weight ns = best? weight ns' := by
  have h' : Apart ns' := h.subset fun n hn => (hmem n).2 hn
  ext n
  rw [best?_eq_some_iff h, best?_eq_some_iff h']
  simp only [hmem]

/-! ### Walks -/

/-- The names visited so far, the nodes that wait for their turn, and the names of those. -/
structure Walk where
  visited : List String
  waiting : List JoinNode
  queued : List String

namespace Walk

/-- Lets a node wait, unless it has been visited or waits already. -/
def enqueue (g : JoinGraph) (w : Walk) (name : String) : Walk :=
  if w.visited.contains name || w.queued.contains name then w
  else
    match g.node? name with
    | none => w
    | some n =>
      if n.neighbors.any (w.visited.contains ·) then
        { w with waiting := w.waiting ++ [n], queued := w.queued ++ [name] }
      else w

/-- Visits a node and lets its neighbours wait. -/
def visit (g : JoinGraph) (w : Walk) (n : JoinNode) : Walk :=
  n.neighbors.foldl (enqueue g) { w with visited := w.visited ++ [n.name] }

/-- Takes the best of the waiting nodes out of the queue. -/
def dequeue (weight : String → Nat) (w : Walk) : Option (JoinNode × Walk) :=
  (best? weight w.waiting).map fun n =>
    (n, { w with waiting := w.waiting.erase n, queued := w.queued.erase n.name })

/-- Visits a node and goes on with the best waiting one until none waits. There is no result if this
takes more than `limit` visits. -/
def run (g : JoinGraph) (weight : String → Nat) : Nat → Walk → JoinNode → Option Walk
  | 0, _, _ => none
  | limit + 1, w, n =>
    match (w.visit g n).dequeue weight with
    | none => some (w.visit g n)
    | some (m, w') => run g weight limit w' m

end Walk

/-- The names of the nodes in the order in which a walk from the best one visits them, or the first
one that it does not reach. -/
def queueOrder (g : JoinGraph) (weight : String → Nat) :
    Option (Except PlanError (List String)) :=
  match best? weight g.nodes with
  | none => some (.ok [])
  | some start =>
    (Walk.run g weight (g.nodes.length + 1) ⟨[], [], []⟩ start).map fun w =>
      match g.nodes.find? fun n => !w.visited.contains n.name with
      | some n => .error (.unsupportedJoin (.unconnected n.name))
      | none => .ok w.visited

/-! ### The queue -/

namespace Walk

variable {w : Walk}

/-- Nodes of the graph wait, none of them twice, and their names are known. -/
structure Coherent (g : JoinGraph) (w : Walk) : Prop where
  mem : ∀ n ∈ w.waiting, n ∈ g.nodes
  nodup : w.waiting.Nodup
  queued : w.queued.Perm (w.waiting.map (·.name))

theorem Coherent.mem_queued_iff (h : Coherent g w) {name : String} :
    name ∈ w.queued ↔ ∃ n ∈ w.waiting, n.name = name := by
  rw [h.queued.mem_iff, List.mem_map]

/-- A node that has a visited neighbour and has not been visited itself. -/
def Due (g : JoinGraph) (visited : List String) (n : JoinNode) : Prop :=
  n ∈ g.nodes ∧ n.name ∉ visited ∧ ∃ m ∈ n.neighbors, m ∈ visited

@[simp]
theorem visited_enqueue (g : JoinGraph) (w : Walk) (name : String) :
    (w.enqueue g name).visited = w.visited := by
  unfold enqueue
  split
  · rfl
  · split
    · rfl
    · split <;> rfl

/-- Looking at a name changes nothing, unless it is that of a node that is due and does not wait. -/
theorem enqueue_cases (hnames : (g.nodes.map (·.name)).Nodup) (w : Walk) (name : String) :
    (w.enqueue g name = w ∧ ∀ n, n.name = name → Due g w.visited n → name ∈ w.queued) ∨
      ∃ n, n.name = name ∧ Due g w.visited n ∧ name ∉ w.queued ∧ w.enqueue g name =
        { w with waiting := w.waiting ++ [n], queued := w.queued ++ [name] } := by
  unfold enqueue
  split
  · next hseen =>
    rw [Bool.or_eq_true, List.contains_iff_mem, List.contains_iff_mem] at hseen
    refine .inl ⟨rfl, ?_⟩
    rintro n rfl ⟨-, hnot, -⟩
    exact hseen.resolve_left hnot
  · next hseen =>
    rw [Bool.or_eq_true, List.contains_iff_mem, List.contains_iff_mem, not_or] at hseen
    split
    · next hnone =>
      refine .inl ⟨rfl, ?_⟩
      rintro n rfl ⟨hn, -⟩
      rw [node?_of_mem hnames hn] at hnone
      exact absurd hnone (Option.some_ne_none n)
    · next m hm =>
      have hmem : m ∈ g.nodes := List.mem_of_find?_eq_some hm
      have hname : m.name = name := by simpa using List.find?_some hm
      have hreach : m.neighbors.any (w.visited.contains ·) = true ↔
          ∃ k ∈ m.neighbors, k ∈ w.visited := by simp
      split
      -- a node without a visited neighbour is not due
      · next hany =>
        exact .inr ⟨m, hname, ⟨hmem, hname ▸ hseen.1, hreach.1 hany⟩, hseen.2, rfl⟩
      · next hany =>
        refine .inl ⟨rfl, ?_⟩
        rintro n hn ⟨hn', -, hdue⟩
        rw [List.inj_on_of_nodup_map hnames hn' hmem (hn.trans hname.symm)] at hdue
        exact absurd (hreach.2 hdue) hany

/-- A node waits after its name has been looked at if it is due, and whatever waited goes on to. -/
theorem Coherent.enqueue (hnames : (g.nodes.map (·.name)).Nodup) (h : Coherent g w)
    (name : String) :
    Coherent g (w.enqueue g name) ∧ ∀ n, n ∈ (w.enqueue g name).waiting ↔
      n ∈ w.waiting ∨ n.name = name ∧ Due g w.visited n := by
  have hunique : ∀ m ∈ g.nodes, ∀ n ∈ g.nodes, m.name = n.name → m = n := fun m hm n hn heq =>
    List.inj_on_of_nodup_map hnames hm hn heq
  -- the name is in the queue already, or its node is added to both lists
  obtain ⟨hsame, hqueued⟩ | ⟨m, hname, hdue, hnew, hadded⟩ := enqueue_cases hnames w name
  · rw [hsame]
    refine ⟨h, fun n => ⟨.inl, ?_⟩⟩
    rintro (hn | ⟨hn, hdue⟩)
    · exact hn
    · -- the name that waits is that of the node itself
      obtain ⟨k, hk, hkn⟩ := h.mem_queued_iff.1 (hqueued n hn hdue)
      rwa [← hunique k (h.mem k hk) n hdue.1 (hkn.trans hn.symm)]
  · have hwait : m ∉ w.waiting := fun hm => hnew (h.mem_queued_iff.2 ⟨m, hm, hname⟩)
    rw [hadded]
    refine ⟨⟨fun n hn => ?_, ?_, ?_⟩, fun n => ?_⟩
    · rcases List.mem_append.1 hn with hn | hn
      · exact h.mem n hn
      · rw [List.mem_singleton.1 hn]
        exact hdue.1
    · exact List.nodup_append.2 ⟨h.nodup, List.nodup_singleton m, fun a ha b hb heq =>
        hwait (by rwa [← List.mem_singleton.1 hb, ← heq])⟩
    · rw [List.map_append, List.map_singleton, hname]
      exact h.queued.append_right [name]
    · rw [List.mem_append, List.mem_singleton]
      refine or_congr_right ⟨?_, ?_⟩
      · rintro rfl
        exact ⟨hname, hdue⟩
      · rintro ⟨hn, hn', -⟩
        exact hunique n hn' m hdue.1 (hn.trans hname.symm)

/-- Putting names into the queue adds the nodes that are due, and each of them once. -/
theorem Coherent.foldl_enqueue (hnames : (g.nodes.map (·.name)).Nodup) (h : Coherent g w)
    (names : List String) :
    Coherent g (names.foldl (Walk.enqueue g) w) ∧
      (names.foldl (Walk.enqueue g) w).visited = w.visited ∧
      ∀ n, n ∈ (names.foldl (Walk.enqueue g) w).waiting ↔
        n ∈ w.waiting ∨ n.name ∈ names ∧ Due g w.visited n := by
  induction names generalizing w with
  | nil => exact ⟨h, rfl, fun n => by simp⟩
  | cons name names ih =>
    obtain ⟨hfirst, hmem⟩ := h.enqueue hnames name
    obtain ⟨hcoherent, hvisited, hmem'⟩ := ih hfirst
    refine ⟨hcoherent, by rw [List.foldl_cons, hvisited, visited_enqueue], fun n => ?_⟩
    rw [List.foldl_cons, hmem', hmem, visited_enqueue, List.mem_cons, or_and_right, or_assoc]

/-! ### The frontier -/

/-- The queue holds the frontier of what has been visited. -/
structure Follows (g : JoinGraph) (w : Walk) (visited : List JoinNode) : Prop
    extends Coherent g w where
  visited_eq : w.visited = visited.map (·.name)
  mem_waiting_iff : ∀ n, n ∈ w.waiting ↔ n ∈ g.frontier visited

/-- A node of the graph has just been taken out of the queue, or it is the first one. -/
structure Ready (g : JoinGraph) (w : Walk) (visited : List JoinNode) (n : JoinNode) : Prop
    extends Coherent g w where
  mem_nodes : n ∈ g.nodes
  visited_eq : w.visited = visited.map (·.name)
  mem_waiting_iff : ∀ m, m ∈ w.waiting ↔ m ∈ g.frontier visited ∧ m ≠ n

/-- The nodes that are due are those of the frontier. -/
theorem due_iff {visited : List JoinNode} {n : JoinNode} :
    Due g (visited.map (·.name)) n ↔ n ∈ g.frontier visited := by
  rw [Due, mem_frontier]
  refine and_congr_right fun _ => and_congr ?_ ?_
  · simp
  · constructor
    · rintro ⟨_, hm, hmem⟩
      obtain ⟨m, hm', rfl⟩ := List.mem_map.1 hmem
      exact ⟨m, hm', hm⟩
    · rintro ⟨m, hm, hmem⟩
      exact ⟨m.name, hmem, List.mem_map_of_mem hm⟩

/-- After a visit the queue holds the frontier, although only the neighbours of the visited node
have been looked at. -/
theorem Ready.visit (hnames : (g.nodes.map (·.name)).Nodup)
    (hsymm : ∀ a b, g.Adjacent a b → g.Adjacent b a) {visited : List JoinNode} {n : JoinNode}
    (h : Ready g w visited n) : Follows g (w.visit g n) (visited ++ [n]) := by
  have hstart : Coherent g { w with visited := w.visited ++ [n.name] } :=
    ⟨h.mem, h.nodup, h.queued⟩
  obtain ⟨hcoherent, hvisited, hmem⟩ := hstart.foldl_enqueue hnames n.neighbors
  have heq : w.visited ++ [n.name] = (visited ++ [n]).map (·.name) := by
    rw [h.visited_eq, List.map_append, List.map_singleton]
  refine ⟨hcoherent, hvisited.trans heq, fun m => ?_⟩
  rw [Walk.visit, hmem, heq, due_iff]
  constructor
  · rintro (hm | ⟨-, hm⟩)
    · -- what waited before has not become the node itself
      obtain ⟨hm, hne⟩ := (h.mem_waiting_iff m).1 hm
      obtain ⟨hnode, hnew, k, hk, hkm⟩ := mem_frontier.1 hm
      refine mem_frontier.2 ⟨hnode, fun k' hk' => ?_, k, List.mem_append_left _ hk, hkm⟩
      rcases List.mem_append.1 hk' with hk' | hk'
      · exact hnew k' hk'
      · rw [List.mem_singleton.1 hk']
        exact fun hname => hne (List.inj_on_of_nodup_map hnames hnode h.mem_nodes hname.symm)
    · exact hm
  · intro hm
    obtain ⟨hnode, hnew, k, hk, hkm⟩ := mem_frontier.1 hm
    rcases List.mem_append.1 hk with hk | hk
    · -- a neighbour of an earlier node has been waiting already
      refine .inl ((h.mem_waiting_iff m).2 ⟨mem_frontier.2 ⟨hnode, fun k' hk' =>
        hnew k' (List.mem_append_left _ hk'), k, hk, hkm⟩, ?_⟩)
      rintro rfl
      exact hnew m (List.mem_append_right _ (List.mem_singleton_self m)) rfl
    · -- one of the new node is among the neighbours that are looked at
      obtain rfl := List.mem_singleton.1 hk
      obtain ⟨k', hk', hname, hneighbor⟩ := hsymm m.name k.name ⟨m, hnode, rfl, hkm⟩
      rw [List.inj_on_of_nodup_map hnames hk' h.mem_nodes hname] at hneighbor
      exact .inr ⟨hneighbor, hm⟩

open scoped List in
/-- Taking the best waiting node takes the best one of the frontier. -/
theorem Follows.dequeue (hapart : Apart g.nodes) {visited : List JoinNode}
    (h : Follows g w visited) (weight : String → Nat) :
    (w.dequeue weight = none ∧ best? weight (g.frontier visited) = none) ∨
      ∃ n w', w.dequeue weight = some (n, w') ∧
        best? weight (g.frontier visited) = some n ∧ Ready g w' visited n := by
  -- what waits is the frontier, so the best of both is the same
  have hbest : best? weight w.waiting = best? weight (g.frontier visited) :=
    best?_congr (hapart.subset h.mem) h.mem_waiting_iff
  rw [Walk.dequeue, hbest]
  cases hn : best? weight (g.frontier visited) with
  | none => exact .inl ⟨rfl, rfl⟩
  | some n =>
    have hmem : n ∈ w.waiting := (h.mem_waiting_iff n).2 (mem_of_best? hn)
    refine .inr ⟨n, _, rfl, rfl, ⟨fun m hm => h.mem m (List.mem_of_mem_erase hm),
      h.nodup.erase n, ?_⟩, h.mem n hmem, h.visited_eq, fun m => ?_⟩
    · -- the node and its name go together
      calc w.queued.erase n.name ~ (w.waiting.map (·.name)).erase n.name := h.queued.erase _
        _ ~ ((n :: w.waiting.erase n).map (·.name)).erase n.name :=
            ((List.perm_cons_erase hmem).map (·.name)).erase _
        _ = (w.waiting.erase n).map (·.name) := by rw [List.map_cons, List.erase_cons_head]
    · rw [h.nodup.mem_erase_iff, h.mem_waiting_iff, and_comm]

/-! ### The order -/

/-- A walk visits what a visit of the graph visits, and it ends when that has ended. -/
theorem Ready.run (hnames : (g.nodes.map (·.name)).Nodup) (hapart : Apart g.nodes)
    (hsymm : ∀ a b, g.Adjacent a b → g.Adjacent b a) {visited : List JoinNode} {n : JoinNode}
    (h : Ready g w visited n) {limit : Nat}
    (hend : g.frontier (g.visit weight limit (visited ++ [n])) = []) :
    ∃ w', Walk.run g weight (limit + 1) w n = some w' ∧
      w'.visited = (g.visit weight limit (visited ++ [n])).map (·.name) := by
  have hfollows := h.visit hnames hsymm
  -- on the number of visits that are left, as in the greedy visit
  induction limit generalizing w visited n with
  | zero =>
    rw [JoinGraph.visit] at hend ⊢
    rw [Walk.run]
    rcases hfollows.dequeue hapart weight with ⟨hnone, -⟩ | ⟨m, -, -, hbest, -⟩
    · rw [hnone]
      exact ⟨_, rfl, hfollows.visited_eq⟩
    · rw [hend] at hbest
      simp [best?] at hbest
  | succ limit ih =>
    rw [JoinGraph.visit] at hend ⊢
    rw [Walk.run]
    rcases hfollows.dequeue hapart weight with ⟨hnone, hbest⟩ | ⟨m, w', hm, hbest, hready⟩
    · rw [hnone, hbest]
      exact ⟨_, rfl, hfollows.visited_eq⟩
    · rw [hbest] at hend ⊢
      rw [hm]
      exact ih hready hend (hready.visit hnames hsymm)

end Walk

/-- The walk always ends, with the order of the graph or with its error. -/
theorem queueOrder_eq (hnames : (g.nodes.map (·.name)).Nodup) (hapart : Apart g.nodes)
    (hsymm : ∀ a b, g.Adjacent a b → g.Adjacent b a) (weight : String → Nat) :
    g.queueOrder weight = some ((g.order weight).map (List.map (·.name))) := by
  rw [queueOrder, order]
  cases hstart : best? weight g.nodes with
  | none => rfl
  | some start =>
    have hmem := mem_of_best? hstart
    -- before the first visit nothing waits
    have hready : Walk.Ready g ⟨[], [], []⟩ [] start := by
      refine ⟨⟨by simp, List.nodup_nil, .refl _⟩, hmem, rfl, fun m => ?_⟩
      simp [mem_frontier]
    obtain ⟨w, hw, hvisited⟩ :=
      hready.run hnames hapart hsymm (frontier_visit_eq_nil weight hmem)
    have hseen : ∀ n : JoinNode, w.visited.contains n.name =
        (g.visit weight g.nodes.length [start]).any (·.name == n.name) := by
      intro n
      rw [hvisited, List.contains_eq_any_beq, List.any_map]
      exact List.any_congr rfl fun m => BEq.comm
    simp only [hw, Option.map_some, hseen]
    rw [hvisited, List.nil_append]
    cases g.nodes.find? fun n =>
      !(g.visit weight g.nodes.length [start]).any (·.name == n.name) with
    | none => rfl
    | some n => rfl

end ShellQuery.JoinGraph
