import ShellQuery.Proofs.Formula.Cnf
import ShellQuery.Proofs.JoinGraph.Order
import ShellQuery.Proofs.Query.LeftDeep

/-!
# The steps of a plan

`Ordered` names everything that a plan goes through up to the order of the relations: the opened
relations, the pinned conjuncts and the graph. `Prepared` adds the stages and `Planned` the joined
table. A plan is made of these steps and of bringing the joined rows into the form that the
statement prints (`table_ok_iff`). The steps meet the conditions under which joins are studied:

* `Ordered.opened`, `Ordered.sound`: the relations are opened, and their schema is sound;
* `Prepared.staged`: the stages are stages of a left-deep tree in the sense of `Staged`;
* `Planned.exists_built`: the joined table is `Built`, over all relations and with all the pinned
  conjuncts of the condition applied.
-/

namespace ShellQuery

/-! ### Conjuncts -/

/-- The conjuncts of a condition, if there is one. -/
def Condition.conjunctsOf (c : Option Condition) : List Condition :=
  c.elim [] Condition.cnf

/-- A condition joins if it is a single comparison that can. -/
theorem Condition.join?_eq_some_iff {c : Condition} {x : Comparison} :
    c.join? = some x ↔ c = .atom x ∧ x.canJoin = true := by
  rw [join?, Option.filter_eq_some_iff]
  refine and_congr_left fun _ => ?_
  cases c with
  | atom a => simp [Formula.atom?]
  | all ps => simp [Formula.atom?]
  | any ps => simp [Formula.atom?]

/-- Equal comparisons have identical columns. -/
theorem Comparison.exists_identical_of_beq {c d : Comparison} (h : (c == d) = true) {n : ColumnName}
    (hn : n ∈ c.columns) : ∃ m ∈ d.columns, n.identical m = true := by
  -- equal operands are both columns or both literals
  have hside : ∀ {x y : Operand}, (x == y) = true → x = .column n →
      ∃ m, y = .column m ∧ n.identical m = true := by
    rintro x y hxy rfl
    rcases Operand.beq_iff.1 hxy with ⟨_, m, ⟨⟩, rfl, hmn⟩ | ⟨_, ⟨⟩, -⟩
    exact ⟨m, rfl, hmn⟩
  obtain ⟨hl, -, hr⟩ := beq_iff.1 h
  rcases mem_columns_iff.1 hn with hn | hn
  · obtain ⟨m, hm, hid⟩ := hside hl hn
    exact ⟨m, mem_columns_iff.2 (.inl hm), hid⟩
  · obtain ⟨m, hm, hid⟩ := hside hr hn
    exact ⟨m, mem_columns_iff.2 (.inr hm), hid⟩

/-- Every column of a condition, or one identical to it, stands in some conjunct: a comparison is
dropped for an equal one only. -/
theorem Condition.exists_identical_of_mem_columns {c : Condition} (hc : Formula.Solid c)
    {n : ColumnName} (hn : n ∈ c.columns) :
    ∃ d ∈ c.cnf, ∃ m ∈ d.columns, n.identical m = true := by
  obtain ⟨a, ha, hna⟩ := mem_columns_iff.1 hn
  obtain ⟨d, hd, b, hb, hab⟩ := exists_mem_cnf_of_mem_atoms hc ha
  obtain ⟨m, hm, hidentical⟩ := Comparison.exists_identical_of_beq hab hna
  exact ⟨d, hd, m, mem_columns_iff.2 ⟨b, hb, hm⟩, hidentical⟩

namespace Query

open scoped List

variable {s : Statement} {config : Config} {catalog : Catalog} {tables : List Table}

/-- The terms are classified by their pinned conjuncts. -/
theorem classifyTerms_ok_iff {terms : List Term} {result : List Comparison × List Condition} :
    classifyTerms tables terms = .ok result ↔ ∃ condition pinned,
      Condition.ofTerms terms = .ok condition ∧
      List.Forall₂ (fun c c' => Condition.mapColumnsM (pin tables) c = .ok c')
        (Condition.conjunctsOf condition) pinned ∧ Condition.classify pinned = result := by
  rw [classifyTerms, bind_ok_iff]
  refine exists_congr fun condition => ?_
  rw [exists_and_left, and_congr_right_iff]
  intro _
  cases condition with
  | none =>
    simp only [Condition.conjunctsOf, Option.elim_none, List.forall₂_nil_left_iff,
      exists_eq_left]
    rw [pure_ok_iff]
    rfl
  | some c =>
    simp only [bind_ok_iff, Condition.conjuncts_toCnf, Except.ok.injEq, exists_eq_left',
      mapM_ok_iff, pure_ok_iff]
    rfl

/-- The comparisons that join and the other conjuncts are all the conjuncts. -/
theorem classify_perm (cs : List Condition) :
    ((Condition.classify cs).1.map Formula.atom ++ (Condition.classify cs).2).Perm cs := by
  induction cs with
  | nil => exact .refl _
  | cons c cs ih =>
    rw [Condition.classify] at ih ⊢
    cases hc : Condition.join? c with
    | none =>
      simp only [List.filterMap_cons, hc, List.filter_cons, Option.isNone_none, ↓reduceIte]
      exact List.perm_middle.trans (ih.cons c)
    | some a =>
      obtain ⟨hatom, -⟩ := Condition.join?_eq_some_iff.1 hc
      simp only [List.filterMap_cons, hc, List.filter_cons, Option.isNone_some, Bool.false_eq_true,
        ↓reduceIte, List.map_cons, List.cons_append]
      rw [hatom]
      exact ih.cons _

/-! ### The run of a plan -/

/-- A successful run of the planner up to the order of the relations: what every step gives. -/
structure Ordered (s : Statement) (config : Config) (catalog : Catalog) where
  tables : List Table
  output : Output
  condition : Option Condition
  /-- The conjuncts of the condition with their columns pinned. -/
  pinned : List Condition
  graph : JoinGraph
  order : List JoinNode
  relations_ne_nil : s.relations ≠ []
  names_ok : checkNames [] s.relations = .ok ()
  tables_ok : s.relations.mapM (openRelation config catalog) = .ok tables
  output_ok : Query.output (s.relations.zip tables) s.columns = .ok output
  condition_ok : Condition.ofTerms s.conditions = .ok condition
  pinned_ok : List.Forall₂ (fun c c' => Condition.mapColumnsM (pin tables) c = .ok c')
    (Condition.conjunctsOf condition) pinned
  graph_ok : JoinGraph.build s.relations (Condition.classify pinned).1 = .ok graph
  order_ok : graph.order (config.weight graph (Condition.classify pinned).2) = .ok order

/-- A successful run of the planner up to the stages. -/
structure Prepared (s : Statement) (config : Config) (catalog : Catalog) extends
    Ordered s config catalog where
  joinStages : List (List Condition)
  filterStages : List (List Condition)
  joinStages_ok : stageConditions (order.filterMap fun n => tables[n.position]?)
    ((Condition.classify pinned).1.map .atom) = .ok joinStages
  filterStages_ok : stageConditions (order.filterMap fun n => tables[n.position]?)
    (Condition.classify pinned).2 = .ok filterStages

/-- A successful run of the planner up to the joined table. -/
structure Planned (s : Statement) (config : Config) (catalog : Catalog) extends
    Prepared s config catalog where
  joined : Table
  joined_ok : leftDeep ((order.filterMap fun n => tables[n.position]?).zip
    (joinStages.zip filterStages)) = .ok joined

/-- A plan is a run up to the joined table whose rows can be brought into the form the statement
prints. -/
theorem table_ok_iff {t : Table} : table s config catalog = .ok t ↔
    ∃ p : Planned s config catalog, finish config s.sample p.joined p.output = .ok t := by
  unfold table
  constructor
  · intro h
    split at h
    · simp at h
    · next hne =>
      -- each bind is a step of the run, in the order of the fields of `Planned`
      simp only [bind_ok_iff] at h
      obtain ⟨_, hnames, tables, htables, output, houtput, ⟨joins, filters⟩, hclassify, graph,
        hgraph, order, horder, js, hjs, fs, hfs, joined, hjoined, h⟩ := h
      obtain ⟨condition, pinned, hcondition, hpinned, heq⟩ := classifyTerms_ok_iff.1 hclassify
      obtain ⟨rfl, rfl⟩ := Prod.mk.inj heq
      exact ⟨⟨⟨⟨tables, output, condition, pinned, graph, order,
        fun hnil => hne (List.isEmpty_iff.2 hnil), hnames, htables, houtput, hcondition, hpinned,
        hgraph, horder⟩, js, fs, hjs, hfs⟩, joined, hjoined⟩, h⟩
  · rintro ⟨p, h⟩
    have hne : ¬s.relations.isEmpty = true := fun hnil =>
      p.relations_ne_nil (List.isEmpty_iff.1 hnil)
    rw [if_neg hne]
    simp only [bind_ok_iff]
    exact ⟨(), p.names_ok, p.tables, p.tables_ok, p.output, p.output_ok, _,
      classifyTerms_ok_iff.2 ⟨p.condition, p.pinned, p.condition_ok, p.pinned_ok, rfl⟩, p.graph,
      p.graph_ok, p.order, p.order_ok, _, p.joinStages_ok, _, p.filterStages_ok, _, p.joined_ok, h⟩

/-- What a statement prints is found last, so another select list leaves the joined table as it
is. -/
theorem Planned.table_columns (p : Planned s config catalog) {columns : List String} {out : Output}
    (h : Query.output (s.relations.zip p.tables) columns = .ok out) :
    table { s with columns := columns } config catalog = finish config s.sample p.joined out := by
  have hclassify := classifyTerms_ok_iff.2 ⟨p.condition, p.pinned, p.condition_ok, p.pinned_ok, rfl⟩
  have hne : ¬s.relations.isEmpty = true := fun hnil =>
    p.relations_ne_nil (List.isEmpty_iff.1 hnil)
  -- every step but the last is the one of the run
  unfold table
  rw [if_neg hne]
  simp only [p.names_ok, p.tables_ok, h, hclassify, p.graph_ok, p.order_ok, p.joinStages_ok,
    p.filterStages_ok, p.joined_ok, bind, Except.bind]

/-- The schema of relations that are opened is sound, and their tables are opened at its places. -/
theorem opened_of_mapM (hnames : checkNames [] s.relations = .ok ())
    (htables : s.relations.mapM (openRelation config catalog) = .ok tables) :
    (s.schema config catalog).Sound ∧
      Opened (s.schema config catalog) (List.range (s.schema config catalog).length) tables := by
  rw [mapM_ok_iff] at htables
  -- the schema lists the relations in the order of the statement, as the tables are opened
  have hat : ∀ {i : Nat} {r : Relation}, s.relations[i]? = some r →
      (s.schema config catalog)[i]? =
        some (r, (catalog.fields r.path config.delimiter).getD []) := by
    intro i r hr
    rw [Statement.schema, List.getElem?_map, hr]
    rfl
  constructor
  · refine ⟨?_, fun r hr => ?_⟩
    · rw [Statement.schema, List.map_map]
      exact checkNames_ok_iff.1 hnames
    · obtain ⟨r, hmem, rfl⟩ := List.mem_map.1 hr
      obtain ⟨t, -, ht⟩ := exists_right_of_forall₂ htables hmem
      exact (opens_of_openRelation ht).header
  · -- the table of a relation stands at its place
    refine List.forall₂_iff_get.2 ?_
    have hlength : (s.schema config catalog).length = s.relations.length := List.length_map _
    refine ⟨by rw [List.length_range, hlength, htables.length_eq], fun i hi hi' => ?_⟩
    have hlt : i < s.relations.length := by rwa [htables.length_eq]
    have ht := (List.forall₂_iff_get.1 htables).2 i hlt hi'
    rw [List.get_eq_getElem, List.getElem_range]
    exact ⟨_, _, hat (List.getElem?_eq_getElem hlt), opens_of_openRelation ht⟩

namespace Ordered

variable (p : Ordered s config catalog)

/-- The places of the relations in the order in which they are joined. -/
def places : List Nat :=
  p.order.map (·.position)

/-- The opened relations in the order in which they are joined. -/
def ordered : List Table :=
  p.order.filterMap fun n => p.tables[n.position]?

theorem sound (p : Ordered s config catalog) : (s.schema config catalog).Sound :=
  (opened_of_mapM p.names_ok p.tables_ok).1

theorem opened :
    Opened (s.schema config catalog) (List.range (s.schema config catalog).length) p.tables :=
  (opened_of_mapM p.names_ok p.tables_ok).2

/-! ### The order -/

theorem nodup_names (p : Ordered s config catalog) : (s.relations.map Relation.name).Nodup :=
  nodup_of_checkNames p.names_ok

theorem visited_order : JoinGraph.Visited p.graph p.order ∧ p.order.Perm p.graph.nodes :=
  JoinGraph.order_ok (JoinGraph.map_name_build p.nodup_names p.graph_ok ▸ p.nodup_names) p.order_ok

theorem places_perm : p.places.Perm (List.range (s.schema config catalog).length) := by
  rw [Statement.schema, List.length_map, ← JoinGraph.map_position_build p.nodup_names p.graph_ok]
  exact p.visited_order.2.map _

/-- The relation that a name means is one of those that are joined. -/
theorem mem_places_of_means {n : ColumnName} {o : Origin}
    (h : (s.schema config catalog).means n o = true) : o.relation ∈ p.places := by
  obtain ⟨r, f, hf, -⟩ := Schema.means_iff.1 h
  obtain ⟨fields, hr, -⟩ := Schema.fieldAt?_eq_some_iff.1 hf
  rw [p.places_perm.mem_iff, List.mem_range]
  exact (List.getElem?_eq_some_iff.1 hr).1

theorem nodup_places : p.places.Nodup :=
  p.places_perm.nodup_iff.2 List.nodup_range

/-- The relations are opened at the places in which the order lists them. -/
theorem opened_ordered : Opened (s.schema config catalog) p.places p.ordered := by
  rw [places, ← List.filterMap_eq_map, ordered]
  refine forall₂_filterMap fun n hn => ?_
  have hmem : n.position ∈ List.range (s.schema config catalog).length :=
    p.places_perm.mem_iff.1 (List.mem_map_of_mem hn)
  have hat := List.getElem?_range (List.mem_range.1 hmem)
  obtain ⟨t, ht, hopened⟩ := getElem?_of_forall₂ p.opened hat
  exact ⟨n.position, t, rfl, ht, hopened⟩

theorem places_ne_nil : p.places ≠ [] := by
  intro hnil
  have hlength := p.places_perm.length_eq
  rw [hnil, List.length_range, Statement.schema, List.length_map, List.length_nil] at hlength
  exact p.relations_ne_nil (List.length_eq_zero_iff.1 hlength.symm)

/-- There is a stage for every relation. -/
theorem length_stages {cs : List Condition} {lists : List (List Condition)}
    (h : stageConditions p.ordered cs = .ok lists) : lists.length = p.places.length := by
  rw [ShellQuery.length_stages h, ← p.opened_ordered.length_eq]
  have := List.length_pos_iff.2 p.places_ne_nil
  omega

/-- The columns of a condition are pinned among the relations up to its stage. -/
theorem allPinned_of_stageOf {c : Condition} {k : Nat} (h : stageOf p.ordered c = .ok k) :
    AllPinned (s.schema config catalog) (p.places.take (k + 1)) c := by
  intro n hn
  obtain ⟨i, hik, ⟨q, j, hq, hj⟩, huniq⟩ := ((p.opened_ordered.stageOf_ok_iff p.sound).1 h).1 n hn
  refine ⟨⟨q, j⟩, hj, List.mem_of_getElem? (i := i) ?_, ?_⟩
  · rwa [List.getElem?_take_of_lt (by omega)]
  -- a second field that the name means would be found at a second stage
  · rintro ⟨q', j'⟩ hj' hmem
    obtain ⟨i', hi'⟩ := List.mem_iff_getElem?.1 hmem
    have hlt := (List.getElem?_eq_some_iff.1 hi').1
    rw [List.length_take] at hlt
    rw [List.getElem?_take_of_lt (by omega)] at hi'
    obtain rfl := huniq i' (by omega) ⟨q', j', hi', hj'⟩
    obtain rfl : q = q' := Option.some.inj (hq.symm.trans hi')
    rw [p.sound.field_eq hj' hj]

theorem stageOf_lt {c : Condition} {k : Nat} (h : stageOf p.ordered c = .ok k) :
    k < p.places.length := by
  rcases ((p.opened_ordered.stageOf_ok_iff p.sound).1 h).2 with rfl | ⟨n, -, q, j, hq, -⟩
  · exact List.length_pos_iff.2 p.places_ne_nil
  · exact (List.getElem?_eq_some_iff.1 hq).1

end Ordered

/-! ### The joined table -/

/-- Stages are staged if each has an opened relation and its columns are pinned by then. -/
theorem staged_of_forall {sch : Schema} {places : List Nat} :
    ∀ {ps : List Nat} {stages : List (Table × List Condition × List Condition)},
      (ps ++ places).Nodup → places.length = stages.length →
      (∀ (k i : Nat) (st : Table × List Condition × List Condition), places[k]? = some i →
        stages[k]? = some st → OpenedAt sch i st.1 ∧
          (∀ c ∈ st.2.1 ++ st.2.2, AllPinned sch (ps ++ places.take (k + 1)) c) ∧
          ∃ cs : List Comparison, st.2.1 = cs.map .atom) →
      Staged sch ps places stages := by
  -- on the relations that are still to come
  induction places with
  | nil =>
    intro ps stages _ hlength _
    cases stages with
    | nil => trivial
    | cons => simp at hlength
  | cons i places ih =>
    intro ps stages hnodup hlength h
    cases stages with
    | nil => simp at hlength
    | cons st stages =>
      obtain ⟨hopened, hpinned, hatoms⟩ := h 0 i st rfl rfl
      -- the induction moves one place from those to come to those before
      rw [List.append_cons] at hnodup
      refine ⟨hopened, fun hi => ?_, hpinned, hatoms, ih hnodup (Nat.succ.inj hlength) ?_⟩
      · have hdisjoint := (List.nodup_append.1 (List.nodup_append.1 hnodup).1).2.2
        exact hdisjoint i hi i (List.mem_singleton_self i) rfl
      · intro k j st' hj hst'
        have := h (k + 1) j st' hj hst'
        rwa [List.take_succ_cons, List.append_cons] at this

/-- Conditions that are single comparisons are a list of comparisons. -/
theorem exists_eq_map_atom {cs : List Condition} (h : ∀ c ∈ cs, ∃ a, c = .atom a) :
    ∃ as : List Comparison, cs = as.map .atom := by
  induction cs with
  | nil => exact ⟨[], rfl⟩
  | cons c cs ih =>
    obtain ⟨a, rfl⟩ := h c List.mem_cons_self
    obtain ⟨as, rfl⟩ := ih fun d hd => h d (List.mem_cons_of_mem _ hd)
    exact ⟨a :: as, rfl⟩

/-- The conditions of all stages are those of both lists of stages. -/
theorem stagedConditions_perm {ts : List Table} {js fs : List (List Condition)}
    (hjs : js.length = ts.length) (hfs : fs.length = ts.length) :
    (stagedConditions (ts.zip (js.zip fs))).Perm (js.flatten ++ fs.flatten) := by
  -- on the relations, whose stages stand side by side in the two lists
  induction ts generalizing js fs with
  | nil =>
    rw [List.length_eq_zero_iff.1 hjs, List.length_eq_zero_iff.1 hfs]
    exact .refl _
  | cons t ts ih =>
    obtain ⟨j, js, rfl⟩ := List.exists_cons_of_length_eq_add_one hjs
    obtain ⟨f, fs, rfl⟩ := List.exists_cons_of_length_eq_add_one hfs
    have hrest := ih (Nat.succ.inj hjs) (Nat.succ.inj hfs)
    have hmiddle : (f ++ (js.flatten ++ fs.flatten)).Perm (js.flatten ++ (f ++ fs.flatten)) :=
      List.perm_append_comm_assoc _ _ _
    rw [List.zip_cons_cons, List.zip_cons_cons, stagedConditions_cons, List.flatten_cons,
      List.flatten_cons, List.append_assoc, List.append_assoc]
    calc j ++ (f ++ stagedConditions (ts.zip (js.zip fs)))
        ~ j ++ (f ++ (js.flatten ++ fs.flatten)) := (hrest.append_left f).append_left j
      _ ~ j ++ (js.flatten ++ (f ++ fs.flatten)) := hmiddle.append_left j

namespace Prepared

variable (p : Prepared s config catalog)

/-- The stages of the plan. -/
def stages : List (Table × List Condition × List Condition) :=
  p.ordered.zip (p.joinStages.zip p.filterStages)

theorem length_joinStages : p.joinStages.length = p.ordered.length :=
  (p.length_stages p.joinStages_ok).trans p.opened_ordered.length_eq

theorem length_filterStages : p.filterStages.length = p.ordered.length :=
  (p.length_stages p.filterStages_ok).trans p.opened_ordered.length_eq

/-- At the place of a relation both lists have a stage. -/
theorem exists_getElem?_stages {k : Nat} (hk : k < p.places.length) : ∃ t js fs,
    p.stages[k]? = some (t, js, fs) ∧ p.joinStages[k]? = some js ∧
      p.filterStages[k]? = some fs := by
  have hlength := p.opened_ordered.length_eq
  have ht := List.getElem?_eq_getElem (hlength ▸ hk)
  have hjs := List.getElem?_eq_getElem (p.length_stages p.joinStages_ok ▸ hk)
  have hfs := List.getElem?_eq_getElem (p.length_stages p.filterStages_ok ▸ hk)
  refine ⟨p.ordered[k], _, _, ?_, hjs, hfs⟩
  rw [stages, List.getElem?_zip_eq_some, List.getElem?_zip_eq_some]
  exact ⟨ht, hjs, hfs⟩

/-- The stages of a run are stages of a left-deep tree. -/
theorem staged : Staged (s.schema config catalog) [] p.places p.stages := by
  refine staged_of_forall p.nodup_places ?_ ?_
  · rw [stages, List.length_zip, List.length_zip, p.length_joinStages, p.length_filterStages,
      p.opened_ordered.length_eq]
    omega
  · rintro k i ⟨t, js, fs⟩ hi hst
    rw [stages, List.getElem?_zip_eq_some, List.getElem?_zip_eq_some] at hst
    obtain ⟨ht, hjs, hfs⟩ := hst
    obtain ⟨t', ht', hopened⟩ := getElem?_of_forall₂ p.opened_ordered hi
    obtain rfl : t = t' := Option.some.inj (ht.symm.trans ht')
    refine ⟨hopened, fun c hc => ?_, exists_eq_map_atom fun c hc => ?_⟩
    · rcases List.mem_append.1 hc with hc | hc
      · exact p.allPinned_of_stageOf ((mem_stage_iff p.joinStages_ok hjs).1 hc).2
      · exact p.allPinned_of_stageOf ((mem_stage_iff p.filterStages_ok hfs).1 hc).2
    · obtain ⟨a, -, rfl⟩ := List.mem_map.1 ((mem_stage_iff p.joinStages_ok hjs).1 hc).1
      exact ⟨a, rfl⟩

/-- The stages apply the pinned conjuncts, each of them once. -/
theorem stagedConditions_stages_perm : (stagedConditions p.stages).Perm p.pinned := by
  calc stagedConditions p.stages
      ~ p.joinStages.flatten ++ p.filterStages.flatten :=
        stagedConditions_perm p.length_joinStages p.length_filterStages
    _ ~ (Condition.classify p.pinned).1.map .atom ++ (Condition.classify p.pinned).2 :=
        (flatten_stages_perm p.joinStages_ok).append (flatten_stages_perm p.filterStages_ok)
    _ ~ p.pinned := classify_perm p.pinned

end Prepared

/-- The joined table is built over all relations, with all conjuncts applied, and the equalities of
all stages but the first equate fields. -/
theorem Planned.exists_built (p : Planned s config catalog) : ∃ es leads cs,
    Built (s.schema config catalog) p.places es leads cs p.joined ∧ cs.Perm p.pinned ∧
      ∀ st ∈ p.stages.tail, ∀ c, .atom c ∈ st.2.1 →
        ∃ ps, ∃ e ∈ es, EquatesIn (s.schema config catalog) ps c e := by
  obtain ⟨es, leads, cs, hbuilt, hperm, hequates⟩ := built_of_leftDeep p.staged p.joined_ok
  exact ⟨es, leads, cs, hbuilt, hperm.trans p.stagedConditions_stages_perm, hequates⟩

end Query

end ShellQuery
