import ShellQuery.Proofs.Query.Equalities
import ShellQuery.Proofs.Query.Output

/-!
# Which statements can be planned

`Joinable` lists what a statement has to meet before its rows can be put into the form it prints:
relations with distinct names and readable headers, a select list and a condition that can be read,
columns that are found in one relation each, and relations that the equalities of the condition
connect. Nothing else can go wrong on the way to the joined table (`exists_planned`), so a statement
has a plan exactly when it is joinable and every name that it prints means one column of the joined
table (`exists_table_iff`). All this holds where no name of a relation is the path of another one.
-/

namespace ShellQuery

/-! ### Connected relations -/

namespace Schema

/-- Two relations are neighbours if a join equality equates a field of one with one of the other. -/
def Neighbors (sch : Schema) (condition : Option Condition) (i j : Nat) : Prop :=
  ∃ e ∈ sch.joinEqualities condition, e.1.relation = i ∧ e.2.relation = j

/-- The join equalities of a condition connect all relations. -/
def Connects (sch : Schema) (condition : Option Condition) : Prop :=
  ∀ i < sch.length, ∀ j < sch.length, Relation.EqvGen (sch.Neighbors condition) i j

/-- All the fields that a name may mean, of which there is one at least, are equated by the join
equalities of a condition. -/
def MeansOneColumn (sch : Schema) (condition : Option Condition) (n : ColumnName) : Prop :=
  ∃ o, sch.means n o = true ∧
    ∀ o', sch.means n o' = true → Equated (sch.joinEqualities condition) o o'

end Schema

section

variable {sch : Schema} {tables : List Table}

theorem called_of_mem_nodes (hsound : sch.Sound) {joins : List Comparison} {g : JoinGraph}
    (hgraph : JoinGraph.build (sch.map (·.1)) joins = .ok g) {m : JoinNode} (hm : m ∈ g.nodes) :
    sch.Called m.position m.name := by
  have hmem : (m.name, m.path, m.position) ∈ g.skeleton := List.mem_map.2 ⟨m, hm, rfl⟩
  rw [JoinGraph.skeleton_build hsound.nodup_names hgraph, List.mem_map] at hmem
  obtain ⟨⟨r, i⟩, hr, heq⟩ := hmem
  simp only [Prod.mk.injEq] at heq
  rw [List.mk_mem_zipIdx_iff_getElem?, List.getElem?_map, Option.map_eq_some_iff] at hr
  obtain ⟨x, hx, rfl⟩ := hr
  exact ⟨x, by rw [← heq.2.2]; exact hx, heq.1⟩

theorem exists_node_of_called (hsound : sch.Sound) {joins : List Comparison} {g : JoinGraph}
    (hgraph : JoinGraph.build (sch.map (·.1)) joins = .ok g) {i : Nat} {x : String}
    (h : sch.Called i x) : ∃ m ∈ g.nodes, m.name = x := by
  obtain ⟨r, hr, rfl⟩ := h
  have hmem : r.1.name ∈ (sch.map (·.1)).map Relation.name :=
    List.mem_map_of_mem (List.mem_map_of_mem (List.mem_of_getElem? hr))
  rw [← JoinGraph.map_name_build hsound.nodup_names hgraph] at hmem
  exact List.mem_map.1 hmem

/-- There is an order of the relations exactly when the join equalities connect them. -/
theorem exists_order_iff_connects (hsound : sch.Sound) (hapart : PathsApart (sch.map (·.1)))
    {joins : List Comparison} {condition : Option Condition}
    (hjoins : List.Forall₂ (JoinsFields sch) joins (sch.joinEqualities condition)) {g : JoinGraph}
    (hgraph : JoinGraph.build (sch.map (·.1)) joins = .ok g) (weight : String → Nat) :
    (∃ order, g.order weight = .ok order) ↔ sch.Connects condition := by
  have hadjacent : ∀ {x y}, g.Adjacent x y ↔ _ := adjacent_iff hsound hapart hjoins hgraph
  have hnames : (g.nodes.map (·.name)).Nodup := by
    rw [JoinGraph.map_name_build hsound.nodup_names hgraph]
    exact hsound.nodup_names
  rw [JoinGraph.exists_order_iff hnames fun x y hxy => by
    obtain ⟨e, he, h⟩ := hadjacent.1 hxy
    exact hadjacent.2 ⟨e, he, h.symm⟩]
  have hnode : ∀ {i}, i < sch.length → ∃ m ∈ g.nodes, sch.Called i m.name := by
    intro i hi
    have hcalled : sch.Called i sch[i].1.name := ⟨_, List.getElem?_eq_getElem hi, rfl⟩
    obtain ⟨m, hm, hname⟩ := exists_node_of_called hsound hgraph hcalled
    exact ⟨m, hm, hname ▸ hcalled⟩
  constructor
  · -- places are connected because the names they are called by are
    intro h i hi j hj
    obtain ⟨m, hm, hmi⟩ := hnode hi
    obtain ⟨n, hn, hnj⟩ := hnode hj
    refine eqvGen_transfer (R := fun x k => sch.Called k x) (fun _ _ _ => hsound.eq_of_called)
      (fun x y hxy => ?_) (h m hm n hn) hmi hnj
    obtain ⟨e, he, hends⟩ := hadjacent.1 hxy
    have hedge : Relation.EqvGen (sch.Neighbors condition) e.1.relation e.2.relation :=
      .rel _ _ ⟨e, he, rfl, rfl⟩
    rcases hends with ⟨hx, hy⟩ | ⟨hy, hx⟩
    · exact ⟨_, _, hx, hy, hedge⟩
    · exact ⟨_, _, hx, hy, hedge.symm⟩
  · -- names are connected because the places of their relations are
    intro h m hm n hn
    have hmi := called_of_mem_nodes hsound hgraph hm
    have hnj := called_of_mem_nodes hsound hgraph hn
    refine eqvGen_transfer (R := sch.Called) (fun _ _ _ => Schema.Called.eq) ?_
      (h _ hmi.lt _ hnj.lt) hmi hnj
    rintro _ _ ⟨e, he, rfl, rfl⟩
    obtain ⟨c, -, l, r, -, hl, hr, -⟩ := exists_left_of_forall₂ hjoins he
    obtain ⟨-, x, hx, -⟩ := hl.within
    obtain ⟨-, y, hy, -⟩ := hr.within
    exact ⟨_, _, ⟨x, hx, rfl⟩, ⟨y, hy, rfl⟩,
      .rel _ _ (hadjacent.2 ⟨e, he, .inl ⟨⟨x, hx, rfl⟩, y, hy, rfl⟩⟩)⟩

/-! ### Stages -/

/-- A condition has a stage if each of its columns means one field. -/
theorem exists_stageOf {places : List Nat} (h : Opened sch places tables) (hsound : sch.Sound)
    (hnodup : places.Nodup) {c : Condition}
    (hc : ∀ n ∈ c.columns, ∃ o, sch.MeansOnly n o ∧ o.relation ∈ places) :
    ∃ k, stageOf tables c = .ok k := by
  -- the stage of a column is the place of its relation, and that of `c` is the latest of these
  let stage : ColumnName → Nat :=
    fun n => ((sch.origin? n).map fun o => places.idxOf o.relation).getD 0
  have hstage : ∀ n ∈ c.columns, ∀ k, HitsAt sch places n k ↔ k = stage n := by
    intro n hn k
    obtain ⟨o, ho, hmem⟩ := hc n hn
    have hidx : stage n = places.idxOf o.relation := by
      simp only [stage, ho.origin?_eq, Option.map_some, Option.getD_some]
    have hat : places[stage n]? = some o.relation := by
      rw [hidx, List.getElem?_idxOf hmem]
    rw [ho.hitsAt_iff]
    constructor
    · intro hk
      exact (List.getElem?_inj (List.getElem?_eq_some_iff.1 hk).1 hnodup).1 (hk.trans hat.symm)
    · rintro rfl
      exact hat
  obtain ⟨k, hk⟩ : ∃ k, c.columns.foldl (fun s n => max s (stage n)) 0 = k := ⟨_, rfl⟩
  obtain ⟨hle, hmax⟩ := foldl_max_eq_iff.1 hk
  refine ⟨k, (h.stageOf_ok_iff hsound).2 ⟨fun n hn => ?_, ?_⟩⟩
  · exact ⟨stage n, hle n hn, (hstage n hn _).2 rfl, fun i _ hi => (hstage n hn i).1 hi⟩
  · refine hmax.imp_right ?_
    rintro ⟨n, hn, hk⟩
    exact ⟨n, hn, (hstage n hn _).2 hk.symm⟩

/-- Stages reach back if each has an equality and all of them cross to an earlier relation. -/
theorem reaching_of_forall {places : List Nat} :
    ∀ {ps : List Nat} {stages : List (Table × List Condition × List Condition)},
      (∀ (k i : Nat) (st : Table × List Condition × List Condition), places[k]? = some i →
        stages[k]? = some st → st.2.1 ≠ [] ∧
          ∀ c : Comparison, .atom c ∈ st.2.1 → Crosses sch (ps ++ places.take k) i c) →
      Reaching sch ps places stages := by
  -- on the places that are left, which moves the first of them over to those before
  induction places with
  | nil => exact fun _ => trivial
  | cons i places ih =>
    intro ps stages h
    cases stages with
    | nil => trivial
    | cons st stages =>
      obtain ⟨hne, hcrosses⟩ := h 0 i st rfl rfl
      rw [List.take_zero, List.append_nil] at hcrosses
      refine ⟨hne, hcrosses, ih fun k j st' hj hst' => ?_⟩
      have := h (k + 1) j st' hj hst'
      rwa [List.take_succ_cons, List.append_cons] at this

end

/-! ### Joinable statements -/

namespace Query

variable {s : Statement} {config : Config} {catalog : Catalog}

/-- What a statement has to meet for its relations to be joined, where its select list and its
condition are read as `items` and `condition`. -/
structure Joinable (s : Statement) (config : Config) (catalog : Catalog)
    (items : List SelectItem) (condition : Option Condition) : Prop where
  relations_ne_nil : s.relations ≠ []
  names : (s.relations.map fun r => Text.lower r.name).Nodup
  headers : ∀ r ∈ s.relations, ∃ fields, catalog.fields r.path config.delimiter = some fields ∧
    ValidHeader fields
  items_ok : s.columns.mapM SelectItem.ofText = .ok items
  printable : Printable s.relations items
  condition_ok : Condition.ofTerms s.conditions = .ok condition
  /-- Every column of the condition is found in one relation. -/
  columns : ∀ c ∈ condition, ∀ n ∈ c.columns,
    ∃! i, ∃ j, (s.schema config catalog).means n ⟨i, j⟩ = true
  connects : (s.schema config catalog).Connects condition

theorem exists_meansOnly_iff {sch : Schema} (hsound : sch.Sound) {n : ColumnName} :
    (∃ o, sch.MeansOnly n o) ↔ ∃! i, ∃ j, sch.means n ⟨i, j⟩ = true := by
  constructor
  · rintro ⟨o, ho⟩
    refine ⟨o.relation, ⟨o.field, (ho _).2 rfl⟩, ?_⟩
    rintro i ⟨j, hj⟩
    rw [← (ho _).1 hj]
  · rintro ⟨i, ⟨j, hj⟩, huniq⟩
    refine ⟨⟨i, j⟩, fun o => ⟨fun ho => ?_, fun ho => ho ▸ hj⟩⟩
    obtain ⟨i', j'⟩ := o
    obtain rfl := huniq i' ⟨j', ho⟩
    rw [hsound.field_eq ho hj]

/-- Every column of a condition means one field exactly when every column of its conjuncts does. -/
theorem forall_columns_iff {sch : Schema} {condition : Option Condition}
    (hread : Condition.ofTerms s.conditions = .ok condition) :
    (∀ c ∈ condition, ∀ n ∈ c.columns, ∃ o, sch.MeansOnly n o) ↔
      ∀ d ∈ Condition.conjunctsOf condition, ∀ n ∈ d.columns, ∃ o, sch.MeansOnly n o := by
  cases condition with
  | none => simp [Condition.conjunctsOf]
  | some c =>
    simp only [Option.mem_def, Option.some.injEq, forall_eq', Condition.conjunctsOf,
      Option.elim_some]
    -- the conjuncts drop comparisons for equal ones only, whose columns mean the same
    constructor
    · intro h d hd n hn
      obtain ⟨a, ha, hna⟩ := Condition.mem_columns_iff.1 hn
      exact h n (Condition.mem_columns_iff.2 ⟨a, Condition.mem_atoms_of_mem_cnf hd ha, hna⟩)
    · intro h n hn
      obtain ⟨d, hd, m, hm, hidentical⟩ :=
        Condition.exists_identical_of_mem_columns (Condition.solid_of_ofTerms hread) hn
      obtain ⟨o, ho⟩ := h d hd m hm
      exact ⟨o, fun o' => by rw [Schema.means_congr hidentical]; exact ho o'⟩

/-- What the planner has checked when it has found an order. -/
theorem Ordered.joinable (p : Ordered s config catalog) (hapart : PathsApart s.relations) :
    ∃ items, Joinable s config catalog items p.condition ∧
      (s.schema config catalog).outputOf items = p.output := by
  have hapart' : PathsApart ((s.schema config catalog).map (·.1)) :=
    (s.map_fst_schema config catalog).symm ▸ hapart
  have houtput := p.output_ok
  have hgraph := p.graph_ok
  rw [← s.map_fst_schema config catalog] at houtput hgraph
  obtain ⟨items, hitems, hprintable, hout⟩ := p.opened.output_ok_iff.1 houtput
  refine ⟨items, ⟨p.relations_ne_nil, checkNames_ok_iff.1 p.names_ok, fun r hr => ?_, hitems,
    s.map_fst_schema config catalog ▸ hprintable, p.condition_ok, ?_, ?_⟩, hout⟩
  · obtain ⟨t, -, ht⟩ := exists_right_of_forall₂ (mapM_ok_iff.1 p.tables_ok) hr
    exact openRelation_ok_iff.1 ⟨t, ht⟩
  · -- every column of a conjunct was pinned, so it is found in one relation
    simp only [← exists_meansOnly_iff p.sound]
    refine (forall_columns_iff p.condition_ok).2 fun d hd n hn => ?_
    obtain ⟨d', -, hpin⟩ := exists_right_of_forall₂ p.pinned_ok hd
    obtain ⟨n', -, hn'⟩ :=
      exists_right_of_forall₂ (Condition.forall₂_columns_of_mapColumnsM hpin) hn
    obtain ⟨o, ho, -⟩ := p.opened.pinnedTo_of_pin p.sound hapart' hn'
    exact ⟨o, ho⟩
  · exact (exists_order_iff_connects p.sound hapart' (p.forall₂_joins hapart) hgraph _).1
      ⟨p.order, p.order_ok⟩

/-- The relations of a joinable statement can be ordered. -/
theorem Joinable.exists_ordered {items : List SelectItem} {condition : Option Condition}
    (h : Joinable s config catalog items condition) (hapart : PathsApart s.relations) :
    ∃ p : Ordered s config catalog, p.condition = condition ∧
      p.output = (s.schema config catalog).outputOf items := by
  have hapart' : PathsApart ((s.schema config catalog).map (·.1)) :=
    (s.map_fst_schema config catalog).symm ▸ hapart
  have hnames := checkNames_ok_iff.2 h.names
  obtain ⟨tables, htables⟩ := exists_mapM_ok fun r hr => openRelation_ok_iff.2 (h.headers r hr)
  obtain ⟨hsound, hopened⟩ := opened_of_mapM hnames htables
  have houtput := hopened.output_ok_iff.2 ⟨items, h.items_ok,
    (s.map_fst_schema config catalog).symm ▸ h.printable, rfl⟩
  rw [s.map_fst_schema config catalog] at houtput
  -- every column of a conjunct is found in one relation, so it can be pinned
  obtain ⟨pinned, hpinned⟩ : ∃ pinned, (Condition.conjunctsOf condition).mapM
      (Condition.mapColumnsM (pin tables)) = .ok pinned := by
    refine exists_mapM_ok fun d hd => Condition.exists_mapColumnsM_iff.2 fun n hn => ?_
    have hcolumns := h.columns
    simp only [← exists_meansOnly_iff hsound] at hcolumns
    obtain ⟨o, ho⟩ := (forall_columns_iff h.condition_ok).1 hcolumns d hd n hn
    obtain ⟨r, f, hf, -⟩ := Schema.means_iff.1 ((ho o).2 rfl)
    obtain ⟨fields, hr, -⟩ := Schema.fieldAt?_eq_some_iff.1 hf
    exact ⟨_, (hopened.pin_ok_iff hsound).2
      ⟨o, (r, fields), (ho o).2 rfl, fun o' => (ho o').1, hr, rfl⟩⟩
  rw [mapM_ok_iff] at hpinned
  have hjoins := hopened.forall₂_joins hsound hapart' hpinned
  obtain ⟨graph, hgraph⟩ := (JoinGraph.exists_build_iff hsound.nodup_names).2 fun c hc => by
    obtain ⟨e, -, he⟩ := exists_right_of_forall₂ hjoins hc
    exact he.exists_joins hsound hapart'
  obtain ⟨order, horder⟩ := (exists_order_iff_connects hsound hapart' hjoins hgraph
    (config.weight graph (Condition.classify pinned).2)).2 h.connects
  rw [s.map_fst_schema config catalog] at hgraph
  exact ⟨⟨tables, _, condition, pinned, graph, order, h.relations_ne_nil, hnames, htables, houtput,
    h.condition_ok, hpinned, hgraph, horder⟩, rfl, rfl⟩

/-- Once the relations are ordered, all conjuncts have a stage. -/
theorem Ordered.exists_prepared (p : Ordered s config catalog) (hapart : PathsApart s.relations) :
    ∃ q : Prepared s config catalog, q.toOrdered = p := by
  have hstage : ∀ c ∈ p.pinned, ∃ k, stageOf p.ordered c = .ok k := by
    refine fun c hc => exists_stageOf p.opened_ordered p.sound p.nodup_places fun n hn => ?_
    obtain ⟨o, ho⟩ := p.opened.pinnedTo_of_mem p.sound
      ((s.map_fst_schema config catalog).symm ▸ hapart) p.pinned_ok hc hn
    obtain ⟨-, r, hr, -⟩ := ho.within
    refine ⟨o, ho.meansOnly, p.places_perm.mem_iff.2 (List.mem_range.2 ?_)⟩
    exact (List.getElem?_eq_some_iff.1 hr).1
  -- joins and filters are staged apart
  have hperm := classify_perm p.pinned
  obtain ⟨js, hjs⟩ := exists_stageConditions_iff.2 fun c hc =>
    hstage c (hperm.mem_iff.1 (List.mem_append_left _ hc))
  obtain ⟨fs, hfs⟩ := exists_stageConditions_iff.2 fun c hc =>
    hstage c (hperm.mem_iff.1 (List.mem_append_right _ hc))
  exact ⟨⟨p, js, fs, hjs, hfs⟩, rfl⟩

/-- Every relation but the first is a neighbour of an earlier one, so it has an equality at its
stage. -/
theorem Prepared.joinStage_ne_nil (p : Prepared s config catalog) (hapart : PathsApart s.relations)
    {k i : Nat} (hk : p.places[k + 1]? = some i) {js : List Condition}
    (hjs : p.joinStages[k + 1]? = some js) : js ≠ [] := by
  intro hnil
  have hjoins := p.forall₂_joins hapart
  have hgraph := p.graph_ok
  rw [← s.map_fst_schema config catalog] at hgraph
  have hvisited := p.visited_order.1
  rw [Ordered.places, List.getElem?_map, Option.map_eq_some_iff] at hk
  obtain ⟨n, hn, rfl⟩ := hk
  -- `m` is the neighbour, at the place `j` of the order
  obtain ⟨m, hm, hneighbor⟩ := hvisited.behind k n hn
  obtain ⟨j, hj⟩ := List.mem_iff_getElem?.1 hm
  have hjk : j < k + 1 := by
    have := (List.getElem?_eq_some_iff.1 hj).1
    rw [List.length_take] at this
    omega
  rw [List.getElem?_take_of_lt hjk] at hj
  have hnode := hvisited.mem n (List.mem_of_getElem? hn)
  have hnode' := hvisited.mem m (List.mem_of_getElem? hj)
  have hcalled := called_of_mem_nodes p.sound hgraph hnode
  have hcalled' := called_of_mem_nodes p.sound hgraph hnode'
  -- `c` is the equality between the two, and both of its fields are met at this stage
  obtain ⟨e, he, hends⟩ := (adjacent_iff p.sound
    ((s.map_fst_schema config catalog).symm ▸ hapart) hjoins hgraph).1 ⟨n, hnode, rfl, hneighbor⟩
  obtain ⟨c, hc, hfields⟩ := exists_left_of_forall₂ hjoins he
  have hplace : p.places[k + 1]? = some n.position := by
    rw [Ordered.places, List.getElem?_map, hn]
    rfl
  have hplace' : p.places[j]? = some m.position := by
    rw [Ordered.places, List.getElem?_map, hj]
    rfl
  have hstage : stageOf p.ordered (.atom c) = .ok (k + 1) := by
    refine (hfields.stageOf_ok_iff p.opened_ordered p.sound p.nodup_places).2 ⟨j, hjk, ?_⟩
    rcases hends with ⟨h₁, h₂⟩ | ⟨h₁, h₂⟩
    · rw [p.sound.eq_of_called h₁ hcalled, p.sound.eq_of_called h₂ hcalled']
      exact .inr ⟨hplace', hplace⟩
    · rw [p.sound.eq_of_called h₁ hcalled', p.sound.eq_of_called h₂ hcalled]
      exact .inl ⟨hplace', hplace⟩
  have hmem := (mem_stage_iff p.joinStages_ok hjs).2 ⟨List.mem_map_of_mem hc, hstage⟩
  rw [hnil] at hmem
  exact absurd hmem List.not_mem_nil

/-- The equalities of every stage but the first cross to an earlier relation. -/
theorem Prepared.crosses (p : Prepared s config catalog) (hapart : PathsApart s.relations)
    {k i : Nat} (hk : p.places[k + 1]? = some i) {js : List Condition}
    (hjs : p.joinStages[k + 1]? = some js) {c : Comparison} (hc : .atom c ∈ js) :
    Crosses (s.schema config catalog) (p.places.take (k + 1)) i c := by
  have htake : ∀ {j q : Nat}, j < k + 1 → p.places[j]? = some q → q ∈ p.places.take (k + 1) := by
    intro j q hj hq
    refine List.mem_of_getElem? (i := j) ?_
    rwa [List.getElem?_take_of_lt hj]
  obtain ⟨hmem, hstage⟩ := (mem_stage_iff p.joinStages_ok hjs).1 hc
  obtain ⟨c', hc', heq⟩ := List.mem_map.1 hmem
  obtain rfl := Formula.atom.inj heq
  obtain ⟨e, -, hfields⟩ := exists_right_of_forall₂ (p.forall₂_joins hapart) hc'
  obtain ⟨j, hjk, hends⟩ :=
    (hfields.stageOf_ok_iff p.opened_ordered p.sound p.nodup_places).1 hstage
  obtain ⟨l, r, rfl, hl, hr, -⟩ := hfields
  -- one field is met at this stage and the other one at the earlier place `j`
  rcases hends with ⟨h₁, h₂⟩ | ⟨h₂, h₁⟩
  · have hi : e.2.relation = i := Option.some.inj (h₂.symm.trans hk)
    have hmem := htake hjk h₁
    exact ⟨l, r, e.1, e.2, rfl, hl.meansOnly.pinnedIn (List.mem_append_left _ hmem),
      hr.meansOnly.pinnedIn (by rw [hi]; simp), .inl ⟨hmem, hi⟩⟩
  · have hi : e.1.relation = i := Option.some.inj (h₁.symm.trans hk)
    have hmem := htake hjk h₂
    exact ⟨l, r, e.1, e.2, rfl, hl.meansOnly.pinnedIn (by rw [hi]; simp),
      hr.meansOnly.pinnedIn (List.mem_append_left _ hmem), .inr ⟨hi, hmem⟩⟩

/-- Once the relations are ordered, they can be joined. -/
theorem Ordered.exists_planned (p : Ordered s config catalog) (hapart : PathsApart s.relations) :
    ∃ q : Planned s config catalog, q.toOrdered = p := by
  obtain ⟨q, rfl⟩ := p.exists_prepared hapart
  obtain ⟨i, places, hplaces⟩ := List.exists_cons_of_ne_nil q.places_ne_nil
  obtain ⟨st, rest, hstages⟩ : ∃ st rest, q.stages = st :: rest := by
    obtain ⟨t, js, fs, hst, -⟩ :=
      q.exists_getElem?_stages (List.length_pos_iff.2 q.places_ne_nil)
    exact List.exists_cons_of_ne_nil fun hnil => by simp [hnil] at hst
  have hstaged := q.staged
  rw [hplaces, hstages] at hstaged
  -- the first relation has no stage to reach back from
  have hreaching : Reaching (s.schema config catalog) [i] places rest := by
    refine reaching_of_forall fun k j st' hj hst' => ?_
    have hk : q.places[k + 1]? = some j := by rw [hplaces, List.getElem?_cons_succ, hj]
    obtain ⟨t, js, fs, hat, hjs, -⟩ :=
      q.exists_getElem?_stages (List.getElem?_eq_some_iff.1 hk).1
    rw [hstages, List.getElem?_cons_succ, hst'] at hat
    obtain rfl := Option.some.inj hat
    refine ⟨q.joinStage_ne_nil hapart hk hjs, fun c hc => ?_⟩
    have := q.crosses hapart hk hjs hc
    rwa [hplaces, List.take_succ_cons] at this
  obtain ⟨joined, hjoined⟩ := exists_leftDeep hstaged hreaching
  rw [← hstages] at hjoined
  exact ⟨⟨q, joined, hjoined⟩, rfl⟩

/-! ### Accepted statements -/

/-- The joined rows can be printed exactly when every printed name is found. -/
theorem exists_finish_iff {sch : Schema} {relations : List Relation} {items : List SelectItem}
    (hprintable : Printable relations items) {sample : Option Nat} {joined : Table} :
    (∃ t, finish config sample joined (sch.outputOf items) = .ok t) ↔
      ∀ n ∈ sch.printed items, ∃ q, joined.resolve n = .ok q := by
  have hsampled : ∀ n, (sampled joined sample config.seed).resolve n = joined.resolve n := by
    intro n
    cases sample with
    | none => rfl
    | some size => rfl
  -- a count looks up one name at most, everything else all of them
  by_cases hcount : ∃ n, items = [.count n]
  · obtain ⟨n, rfl⟩ := hcount
    cases n with
    | none => simp [Schema.outputOf, Schema.printed, Schema.expand, finish, Table.countRows]
    | some n =>
      simp [Schema.outputOf, Schema.printed, Schema.expand, finish, Table.countRows, hsampled,
        map_ok_iff]
  · rw [sch.outputOf_eq_columns fun n hn => hcount ⟨n, hn⟩, finish]
    simp only [bind_ok_iff, pure_ok_iff, Table.reorderColumns]
    constructor
    · rintro ⟨_, _, ⟨positions, hpositions, -⟩, -⟩ n hn
      obtain ⟨q, -, hq⟩ := exists_right_of_forall₂ (mapM_ok_iff.1 hpositions) hn
      exact ⟨q, hq⟩
    · intro h
      obtain ⟨positions, hpositions⟩ := exists_mapM_ok h
      exact ⟨_, _, ⟨positions, hpositions, rfl⟩, rfl⟩

/-- In the joined table exactly one column answers to a name, or the name is found, exactly when all
the fields that it may mean are equated. -/
theorem Planned.meansOneColumn_iff (p : Planned s config catalog)
    (hapart : PathsApart s.relations) {n : ColumnName} :
    ((∃! q : Nat, ∃ c : Column, p.joined.columns[q]? = some c ∧ c.answersTo n = true) ↔
      (s.schema config catalog).MeansOneColumn p.condition n) ∧
    ((∃ q, p.joined.resolve n = .ok q) ↔
      (s.schema config catalog).MeansOneColumn p.condition n) := by
  obtain ⟨es, leads, cs, hbuilt, -, hequated⟩ := p.exists_built_equated hapart
  have hplaces : ∀ {o}, (s.schema config catalog).means n o = true → o.relation ∈ p.places :=
    fun ho => p.mem_places_of_means ho
  -- every field belongs to some joined relation
  have hall : (∃ o, (s.schema config catalog).means n o = true ∧ o.relation ∈ p.places ∧
      ∀ o', (s.schema config catalog).means n o' = true → o'.relation ∈ p.places →
        Equated es o o') ↔ (s.schema config catalog).MeansOneColumn p.condition n := by
    refine exists_congr fun o => and_congr_right fun ho => ?_
    simp only [hequated, hplaces ho, true_and]
    exact ⟨fun h o' ho' => h o' ho' (hplaces ho'), fun h o' ho' _ => h o' ho'⟩
  constructor
  · rw [hbuilt.laid.existsUnique_column_iff, hall]
  · simp only [Table.resolve_eq_ok_iff]
    rw [hbuilt.laid.exists_tryResolve_iff p.sound
      ((s.map_fst_schema config catalog).symm ▸ hapart), hall]

/-- A statement has a plan exactly when it is joinable and each name that it prints means one column
of the joined table; the joined table of a joinable statement exists, and its columns are the
classes of fields that the join equalities equate. -/
theorem exists_table_iff (hapart : PathsApart s.relations) :
    ((∃ t, table s config catalog = .ok t) ↔ ∃ items condition,
      Joinable s config catalog items condition ∧
      ∀ n ∈ (s.schema config catalog).printed items,
        (s.schema config catalog).MeansOneColumn condition n) ∧
    ∀ items condition, Joinable s config catalog items condition →
      ∃ p : Planned s config catalog, p.condition = condition ∧
        p.output = (s.schema config catalog).outputOf items ∧
        ∀ n, (∃! q : Nat, ∃ c : Column, p.joined.columns[q]? = some c ∧ c.answersTo n = true) ↔
          (s.schema config catalog).MeansOneColumn condition n := by
  have hplanned : ∀ items condition, Joinable s config catalog items condition →
      ∃ p : Planned s config catalog, p.condition = condition ∧
        p.output = (s.schema config catalog).outputOf items := by
    intro items condition h
    obtain ⟨p, hcondition, houtput⟩ := h.exists_ordered hapart
    obtain ⟨q, rfl⟩ := p.exists_planned hapart
    exact ⟨q, hcondition, houtput⟩
  refine ⟨⟨?_, ?_⟩, fun items condition h => ?_⟩
  · -- the names of a plan were found, and nothing is found but what means one column
    rintro ⟨t, ht⟩
    obtain ⟨p, hfinish⟩ := table_ok_iff.1 ht
    obtain ⟨items, hjoinable, houtput⟩ := p.joinable hapart
    refine ⟨items, p.condition, hjoinable, fun n hn => (p.meansOneColumn_iff hapart).2.1 ?_⟩
    rw [← houtput] at hfinish
    exact (exists_finish_iff hjoinable.printable).1 ⟨t, hfinish⟩ n hn
  · rintro ⟨items, condition, hjoinable, hprinted⟩
    obtain ⟨p, rfl, houtput⟩ := hplanned items condition hjoinable
    obtain ⟨t, ht⟩ := (exists_finish_iff hjoinable.printable).2 fun n hn =>
      (p.meansOneColumn_iff hapart).2.2 (hprinted n hn)
    exact ⟨t, table_ok_iff.2 ⟨p, by rw [houtput]; exact ht⟩⟩
  · obtain ⟨p, rfl, houtput⟩ := hplanned items condition h
    exact ⟨p, rfl, houtput, fun n => (p.meansOneColumn_iff hapart).1⟩

/-- Two relations that share two keys, with a filter on both; the first printed name means a field
of each. -/
def sharedKeys : Statement where
  columns := ["k", "b.n"]
  relations := [⟨"a.csv", some "a"⟩, ⟨"b.csv", some "b"⟩]
  conditions := [.comparison "a.k" "=" "b.k", .and, .comparison "b.m" "=" "a.m", .and,
    .group [.comparison "n" "=" "1", .or, .comparison "a.p" ">" "n"]]
  sample := none

def sharedKeysCatalog : Catalog :=
  .ofList [("a.csv", ["p", "m", "k"]), ("b.csv", ["k", "n", "m"])]

theorem joinable_sharedKeys : PathsApart sharedKeys.relations ∧
    ∃ items condition, Joinable sharedKeys {} sharedKeysCatalog items condition ∧
      ∀ n ∈ (sharedKeys.schema {} sharedKeysCatalog).printed items,
        (sharedKeys.schema {} sharedKeysCatalog).MeansOneColumn condition n := by
  have hapart : PathsApart sharedKeys.relations := by decide
  have htable : ∃ t, table sharedKeys {} sharedKeysCatalog = .ok t :=
    isOk_iff.1 (by decide +kernel)
  exact ⟨hapart, (exists_table_iff hapart).1.1 htable⟩

end Query

end ShellQuery
