import ShellQuery.Proofs.Query.Plan
import ShellQuery.Proofs.Table.Reachable

/-!
# The tree of joins of a plan

A table is a tree: a join has the two tables that it joins below it, and files and commands are the
leaves. `Table.inputs` lists the leaves from left to right and `Table.joins` the joins from the
bottom up. `Table.LeftDeep` describes the trees that a planner grows from the left, one file at a
time.

* `Table.LeftDeep.inputs_eq`, `Table.LeftDeep.joins_eq`: the leaves of such a tree are its
  relations, and its joins are numbered from the bottom;
* `leftDeep_of_joinStage`, `leftDeep_of_joinStages`: a stage adds one relation to the tree, and the
  stages of a plan add one relation each;
* `joinTree_of_table`: a plan reads every relation of its statement once, in the order of the graph.
-/

namespace ShellQuery

/-! ### Leaves and joins -/

/-- A join of a tree: the name of what it gives and the tables it joins. -/
structure JoinedPair where
  name : String
  left : Table
  right : Table

mutual

/-- The leaves of a table from left to right, each with the name of its table. -/
def Table.inputs : Table → List (String × Source Table)
  | ⟨name, _, source, _, _, _⟩ => source.inputs name

/-- The leaves of a source whose table has the given name. -/
def Source.inputs (name : String) : Source Table → List (String × Source Table)
  | .file path headerLines => [(name, .file path headerLines)]
  | .command text => [(name, .command text)]
  | .join left right _ _ => left.inputs ++ right.inputs

end

mutual

/-- The joins of a table from the bottom up. -/
def Table.joins : Table → List JoinedPair
  | ⟨name, _, source, _, _, _⟩ => source.joins name

/-- The joins of a source whose table has the given name. -/
def Source.joins (name : String) : Source Table → List JoinedPair
  | .file _ _ => []
  | .command _ => []
  | .join left right _ _ => left.joins ++ right.joins ++ [⟨name, left, right⟩]

end

namespace Table

/-- The inputs of a table are those of its source. -/
theorem inputs_eq (t : Table) : t.inputs = t.source.inputs t.name := by
  cases t
  rw [inputs]

/-- The joins of a table are those of its source. -/
theorem joins_eq (t : Table) : t.joins = t.source.joins t.name := by
  cases t
  rw [joins]

/-! ### Left-deep trees -/

/-- A tree over some relations, in their order, all of whose rows are parted by `d`: the first
relation, and then one relation after the other on the right of a join. -/
inductive LeftDeep (d : Char) : List Relation → Table → Prop where
  | file {r : Relation} {t : Table} (name : t.name = r.name) (delimiter : t.delimiter = d)
      (source : t.source = .file r.path 1) : LeftDeep d [r] t
  | join {rs : List Relation} {r : Relation} {t left right : Table} {leftKey rightKey : Nat}
      (name : t.name = "join_" ++ toString rs.length) (delimiter : t.delimiter = d)
      (source : t.source = .join left right leftKey rightKey) (deep : LeftDeep d rs left)
      (leaf : LeftDeep d [r] right) : LeftDeep d (rs ++ [r]) t

namespace LeftDeep

variable {d : Char} {rs : List Relation} {t t' : Table}

theorem ne_nil (h : LeftDeep d rs t) : rs ≠ [] := by
  cases h with
  | file => exact List.cons_ne_nil _ _
  | join => exact List.concat_ne_nil _ _

theorem delimiter_eq (h : LeftDeep d rs t) : t.delimiter = d := by
  cases h with
  | file _ delimiter => exact delimiter
  | join _ delimiter => exact delimiter

/-- A tree of one relation is the file of the relation. -/
theorem source_eq {r : Relation} (h : LeftDeep d [r] t) : t.source = .file r.path 1 := by
  generalize hrs : [r] = rs at h
  cases h with
  | file _ _ source =>
    obtain ⟨rfl, -⟩ := List.cons.inj hrs
    exact source
  | join _ _ _ deep _ =>
    -- a join has at least two relations below it
    have hlength := congrArg List.length hrs
    have hpos := List.length_pos_iff.2 deep.ne_nil
    rw [List.length_append, List.length_singleton, List.length_singleton] at hlength
    omega

/-- Only the name, the delimiter and the source of a table matter. -/
theorem congr (h : LeftDeep d rs t) (hname : t'.name = t.name)
    (hdelimiter : t'.delimiter = t.delimiter) (hsource : t'.source = t.source) :
    LeftDeep d rs t' := by
  cases h with
  | file name delimiter source =>
    exact .file (hname.trans name) (hdelimiter.trans delimiter) (hsource.trans source)
  | join name delimiter source deep leaf =>
    exact .join (hname.trans name) (hdelimiter.trans delimiter) (hsource.trans source) deep leaf

/-- No operation on one table changes its tree. -/
theorem change (h : LeftDeep d rs t) (hchange : Change t t') : LeftDeep d rs t' := by
  refine h.congr ?_ ?_ hchange.source_eq
  · cases hchange <;> rfl
  · cases hchange <;> rfl

/-- A join puts its right table to the right of its left one. -/
theorem joinTable {right : Table} {r : Relation} {key : Nat × Nat} {more : List (Nat × Nat)}
    (h : LeftDeep d rs t) (hright : LeftDeep d [r] right)
    (hleads : LeadingPairs t right (key :: more)) :
    LeftDeep d (rs ++ [r]) (joinTable t right key more ("join_" ++ toString rs.length)) := by
  have hleft := h.change hleads.change_left
  have hleaf := hright.change hleads.change_right
  have hjoin : LeftDeep d (rs ++ [r]) (joinOn _ _ key.1 key.2 ("join_" ++ toString rs.length)) :=
    .join rfl hleft.delimiter_eq rfl hleft hleaf
  unfold Table.joinTable
  dsimp only
  split
  · exact hjoin
  · exact hjoin.congr rfl rfl rfl

/-- The leaves of a left-deep tree are the files of its relations. -/
theorem inputs_eq (h : LeftDeep d rs t) :
    t.inputs = rs.map fun r => (r.name, .file r.path 1) := by
  induction h with
  | file name _ source => rw [Table.inputs_eq, source, Source.inputs, name, List.map_singleton]
  | join _ _ source _ _ ih ih' =>
    rw [Table.inputs_eq, source, Source.inputs, ih, ih', List.map_append]

theorem joins_leaf {r : Relation} (h : LeftDeep d [r] t) : t.joins = [] := by
  rw [Table.joins_eq, h.source_eq, Source.joins]

/-- The joins of a left-deep tree are numbered from the bottom. -/
theorem joins_eq (h : LeftDeep d rs t) :
    t.joins.map JoinedPair.name =
      (List.range (rs.length - 1)).map fun k => "join_" ++ toString (k + 1) := by
  induction h with
  | file name delimiter source => rw [(LeftDeep.file name delimiter source).joins_leaf]; rfl
  | @join rs r t left right _ _ name _ source deep leaf ih _ =>
    have hpos := List.length_pos_iff.2 deep.ne_nil
    have hlength : (rs ++ [r]).length - 1 = rs.length - 1 + 1 := by
      rw [List.length_append, List.length_singleton]
      omega
    rw [Table.joins_eq, source, Source.joins, leaf.joins_leaf, List.append_nil, List.map_append, ih,
      hlength, List.range_succ, List.map_append, List.map_singleton, List.map_singleton, name,
      Nat.sub_add_cancel hpos]

/-- Every join of a left-deep tree has a file on its right, and both its inputs have the delimiter
of the tree. -/
theorem of_mem_joins (h : LeftDeep d rs t) : ∀ j ∈ t.joins,
    (∃ path, j.right.source = .file path 1) ∧ j.left.delimiter = d ∧ j.right.delimiter = d := by
  induction h with
  | file name delimiter source =>
    rw [(LeftDeep.file name delimiter source).joins_leaf]
    exact fun j hj => absurd hj List.not_mem_nil
  | @join rs r t left right _ _ name _ source deep leaf ih _ =>
    rw [Table.joins_eq, source, Source.joins, leaf.joins_leaf, List.append_nil]
    intro j hj
    rcases List.mem_append.1 hj with hj | hj
    · exact ih j hj
    · obtain rfl := List.mem_singleton.1 hj
      exact ⟨⟨r.path, leaf.source_eq⟩, deep.delimiter_eq, leaf.delimiter_eq⟩

end LeftDeep

end Table

namespace Query

/-! ### The stages of a plan -/

variable {s : Statement} {config : Config} {catalog : Catalog} {d : Char} {rs : List Relation}

theorem leftDeep_of_openRelation {r : Relation} {t : Table}
    (h : openRelation config catalog r = .ok t) : t.LeftDeep config.delimiter [r] := by
  have heq := (opens_of_openRelation h).eq_mk
  refine .file ?_ ?_ ?_
  · rw [heq]
  · rw [heq]
  · rw [heq]

/-- A stage adds its relation to the tree. -/
theorem leftDeep_of_joinStage {result table t : Table} {r : Relation}
    {joins filters : List Condition} (hresult : result.LeftDeep d rs)
    (htable : table.LeftDeep d [r])
    (h : joinStage result table joins filters rs.length = .ok t) : t.LeftDeep d (rs ++ [r]) := by
  obtain ⟨t₁, t₂, hbefore, hjoin, hafter⟩ := joinStage_ok_iff.1 h
  obtain ⟨key, more, hpairs, rfl⟩ := Table.mergeJoin_ok_iff.1 hjoin
  have hright := htable.change (Table.change_filterRows hbefore)
  exact (hresult.joinTable hright (Table.leadingPairs_of_mapM hpairs)).change
    (Table.change_filterRows hafter)

/-- Stages add their relations to the tree, one after the other. -/
theorem leftDeep_of_joinStages {rest : List (Table × List Condition × List Condition)}
    {more : List Relation} {result joined : Table} (hresult : result.LeftDeep d rs)
    (hrest : List.Forall₂ (fun r st => Table.LeftDeep d [r] st.1) more rest)
    (h : (rest.zipIdx rs.length).foldlM
      (fun result s => joinStage result s.1.1 s.1.2.1 s.1.2.2 s.2) result = .ok joined) :
    joined.LeftDeep d (rs ++ more) := by
  -- the induction is on the stages to come; the number of the next one is that of the relations
  induction hrest generalizing rs result with
  | nil =>
    obtain rfl := pure_ok_iff.1 h
    rwa [List.append_nil]
  | @cons r st more rest hst _ ih =>
    rw [List.zipIdx_cons, List.foldlM_cons, bind_ok_iff] at h
    obtain ⟨next, hnext, h⟩ := h
    have hdeep := leftDeep_of_joinStage hresult hst hnext
    have hlength : rs.length + 1 = (rs ++ [r]).length := by
      rw [List.length_append, List.length_singleton]
    rw [hlength] at h
    rw [List.append_cons]
    exact ih hdeep h

/-- Joining trees of single relations stage by stage makes a left-deep tree of all of them. -/
theorem leftDeep_of_leftDeep {stages : List (Table × List Condition × List Condition)}
    {joined : Table} (hstages : List.Forall₂ (fun r st => Table.LeftDeep d [r] st.1) rs stages)
    (h : leftDeep stages = .ok joined) : joined.LeftDeep d rs := by
  cases hstages with
  | nil => simp [leftDeep] at h
  | @cons r st rs rest hst hrest =>
    obtain ⟨table, joins, filters⟩ := st
    rw [leftDeep, bind_ok_iff] at h
    obtain ⟨first, hfirst, h⟩ := h
    have hdeep : first.LeftDeep d [r] := hst.change (Table.change_filterRows hfirst)
    exact leftDeep_of_joinStages hdeep hrest h

/-- Bringing rows into the form of the output keeps the tree. -/
theorem leftDeep_of_finish {joined t : Table} {sample : Option Nat} {output : Output}
    (hjoined : joined.LeftDeep d rs) (h : finish config sample joined output = .ok t) :
    t.LeftDeep d rs := by
  have hsampled : ∀ {u : Table}, u.LeftDeep d rs →
      (sampled u sample config.seed).LeftDeep d rs := by
    intro u hu
    cases sample with
    | none => exact hu
    | some size => exact hu.change (.sample size config.seed)
  cases output with
  | count name => exact (hsampled hjoined).change (Table.change_countRows h)
  | columns names =>
    rw [finish, bind_ok_iff] at h
    obtain ⟨reordered, hreordered, h⟩ := h
    obtain rfl := pure_ok_iff.1 h
    exact hsampled ((hjoined.change (Table.change_reorderColumns hreordered)).change (.label _))

/-! ### The relations in the order of the graph -/

theorem filterMap_getElem?_range {α : Type} (l : List α) :
    (List.range l.length).filterMap (l[·]?) = l := by
  induction l with
  | nil => rfl
  | cons a l ih =>
    have hhead : (a :: l)[0]? = some a := rfl
    rw [List.length_cons, List.range_succ_eq_map, List.filterMap_cons_some hhead,
      List.filterMap_map]
    exact congrArg (a :: ·) ih

namespace Ordered

variable (p : Ordered s config catalog)

/-- The relations in the order in which they are joined. -/
def relations : List Relation :=
  p.order.filterMap fun n => s.relations[n.position]?

/-- The place of a visited node is that of its relation. -/
theorem exists_relation {n : JoinNode} (hn : n ∈ p.order) :
    ∃ r, s.relations[n.position]? = some r ∧ n.name = r.name ∧ n.path = r.path := by
  have hmem : (n.name, n.path, n.position) ∈ p.graph.skeleton :=
    List.mem_map_of_mem (f := fun m : JoinNode => (m.name, m.path, m.position))
      (p.visited_order.2.mem_iff.1 hn)
  rw [JoinGraph.skeleton_build p.nodup_names p.graph_ok, List.mem_map] at hmem
  obtain ⟨⟨r, i⟩, hr, heq⟩ := hmem
  simp only [Prod.mk.injEq] at heq
  obtain ⟨hname, hpath, rfl⟩ := heq
  exact ⟨r, List.mk_mem_zipIdx_iff_getElem?.1 hr, hname.symm, hpath.symm⟩

/-- The planner joins the relations of the statement, each once. -/
theorem relations_perm : p.relations.Perm s.relations := by
  have hplaces : p.relations = p.places.filterMap (s.relations[·]?) := by
    rw [places, List.filterMap_map]
    rfl
  have hperm := p.places_perm.filterMap (s.relations[·]?)
  rwa [← hplaces, Statement.schema, List.length_map, filterMap_getElem?_range] at hperm

/-- The nodes of the order are the relations that are joined. -/
theorem map_order_eq :
    p.order.map (fun n => (n.name, n.path)) = p.relations.map fun r => (r.name, r.path) := by
  have hstep : List.Forall₂ (fun (n : JoinNode) (r : Relation) => n.name = r.name ∧
      n.path = r.path) (p.order.filterMap some) p.relations := by
    refine forall₂_filterMap fun n hn => ?_
    obtain ⟨r, hr, heq⟩ := p.exists_relation hn
    exact ⟨n, r, rfl, hr, heq⟩
  rw [List.filterMap_some] at hstep
  rw [map_eq_map_iff_forall₂]
  exact hstep.imp fun n r h => Prod.ext h.1 h.2

/-- The tables are those of the relations, in the same order. -/
theorem forall₂_ordered :
    List.Forall₂ (fun r t => openRelation config catalog r = .ok t) p.relations p.ordered := by
  refine forall₂_filterMap fun n hn => ?_
  obtain ⟨r, hr, -⟩ := p.exists_relation hn
  obtain ⟨t, ht, hopen⟩ := getElem?_of_forall₂ (mapM_ok_iff.1 p.tables_ok) hr
  exact ⟨r, t, hr, ht, hopen⟩

end Ordered

/-- The joined table is a left-deep tree of the relations in their order. -/
theorem Planned.leftDeep_joined (p : Planned s config catalog) :
    p.joined.LeftDeep config.delimiter p.relations := by
  have hfst : p.stages.map (·.1) = p.ordered := by
    have hlength := p.length_joinStages
    have hlength' := p.length_filterStages
    exact List.map_fst_zip (by rw [List.length_zip]; omega)
  have hstages : List.Forall₂ (fun r st => Table.LeftDeep config.delimiter [r] st.1) p.relations
      p.stages := by
    rw [← List.forall₂_map_right_iff (R := fun r t => Table.LeftDeep config.delimiter [r] t), hfst]
    exact p.forall₂_ordered.imp fun r t => leftDeep_of_openRelation
  exact leftDeep_of_leftDeep hstages p.joined_ok

/-! ### The tree of a plan -/

/-- A plan is a left-deep tree over all the relations of its statement, each read once from its own
file, in the order in which the graph is visited. Its joins are numbered from the bottom and have a
file on their right, and both sides of a join have the configured delimiter. -/
theorem joinTree_of_table {t : Table} (h : table s config catalog = .ok t) :
    ∃ (tables : List Table) (joins : List Comparison) (filters : List Condition)
      (graph : JoinGraph) (order : List JoinNode) (relations : List Relation),
      s.relations.mapM (openRelation config catalog) = .ok tables ∧
      classifyTerms tables s.conditions = .ok (joins, filters) ∧
      JoinGraph.build s.relations joins = .ok graph ∧
      graph.order (config.weight graph filters) = .ok order ∧
      relations.Perm s.relations ∧
      order.map (fun n => (n.name, n.path)) = relations.map (fun r => (r.name, r.path)) ∧
      t.inputs = relations.map (fun r => (r.name, .file r.path 1)) ∧
      t.joins.map JoinedPair.name =
        (List.range (s.relations.length - 1)).map (fun k => "join_" ++ toString (k + 1)) ∧
      ∀ j ∈ t.joins, (∃ path, j.right.source = .file path 1) ∧
        j.left.delimiter = config.delimiter ∧ j.right.delimiter = config.delimiter := by
  obtain ⟨p, hfinish⟩ := table_ok_iff.1 h
  have hdeep := leftDeep_of_finish p.leftDeep_joined hfinish
  have hclassify := classifyTerms_ok_iff.2 ⟨p.condition, p.pinned, p.condition_ok, p.pinned_ok, rfl⟩
  have hlength := p.relations_perm.length_eq
  exact ⟨p.tables, _, _, p.graph, p.order, p.relations, p.tables_ok, hclassify, p.graph_ok,
    p.order_ok, p.relations_perm, p.map_order_eq, hdeep.inputs_eq, hlength ▸ hdeep.joins_eq,
    hdeep.of_mem_joins⟩

/-- Three relations in a chain, of which the statement names the middle one first. -/
def chain : Statement where
  columns := ["count(*)"]
  relations := [⟨"b.txt", some "b"⟩, ⟨"c.txt", none⟩, ⟨"a.txt", some "a"⟩]
  conditions := [.comparison "a.k" "=" "b.k", .and, .comparison "b.m" "=" "c.txt.m", .and,
    .comparison "c.txt.x" ">" "1"]
  sample := some 5

def chainCatalog : Catalog :=
  .ofList [("a.txt", ["k"]), ("b.txt", ["k", "m"]), ("c.txt", ["m", "x"])]

/-- The weight puts the last relation first, and the others follow along the chain. -/
theorem joinTree_chain : ∃ (t : Table) (relations : List Relation),
    table chain { weight := fun _ _ name => if name = "a" then 2 else 1 } chainCatalog = .ok t ∧
    relations.Perm chain.relations ∧ relations.map Relation.name = ["a", "b", "c.txt"] ∧
    t.inputs = relations.map (fun r => (r.name, .file r.path 1)) ∧
    t.joins.map JoinedPair.name = ["join_1", "join_2"] := by
  have hok : (table chain { weight := fun _ _ name => if name = "a" then 2 else 1 }
      chainCatalog).isOk = true := by decide +kernel
  obtain ⟨t, ht⟩ := isOk_iff.1 hok
  obtain ⟨_, _, _, _, _, relations, -, -, -, -, hperm, -, hinputs, hjoins, -⟩ :=
    joinTree_of_table ht
  -- the names of the inputs tell in which order the relations were visited
  have hnames : t.inputs.map (·.1) = ["a", "b", "c.txt"] := by
    have hsome : ((table chain { weight := fun _ _ name => if name = "a" then 2 else 1 }
        chainCatalog).toOption.map fun t => t.inputs.map (·.1)) = some ["a", "b", "c.txt"] := by
      decide +kernel
    rw [ht] at hsome
    exact Option.some.inj hsome
  refine ⟨t, relations, ht, hperm, ?_, hinputs, hjoins⟩
  rw [← hnames, hinputs, List.map_map]
  rfl

end Query

end ShellQuery
