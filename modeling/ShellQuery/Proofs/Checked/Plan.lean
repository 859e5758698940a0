import ShellQuery.Proofs.Checked.Graph
import ShellQuery.Proofs.Checked.Join
import ShellQuery.Proofs.Checked.SelectItem
import ShellQuery.Proofs.Checked.Stage
import ShellQuery.Proofs.Query.Plan

/-!
# Checked plans

The planner with every lookup checked. The joins look up the conditions of each stage in two lists,
which are as long as there are stages (`leftDeep_eq`). With that no lookup on the way to a pipeline
misses: `table_eq` says that the checked planner does what the planner does, and
`plan_refused_or_rendered` that it ends in an error of the planner or in a text.
-/

namespace ShellQuery.Checked

/-! ### Conditions -/

/-- The joins and filters that a sequence of terms asks for, with all columns pinned. -/
def classifyTerms (tables : List Table) (terms : List Term) :
    Except Stop (List Comparison × List Condition) := do
  match ← lift (Condition.ofTerms terms) with
  | none => return ([], [])
  | some condition =>
    let conjuncts ← lift (Condition.conjuncts (Formula.toCnf condition))
    let pinned ← conjuncts.mapM (Condition.mapColumnsM (pin tables))
    return Condition.classify pinned

section

variable {α β : Type}

theorem formula_mapM_lift {f : α → Except Stop β} {plain : α → Except PlanError β}
    (h : ∀ a, f a = lift (plain a)) (p : Formula α) : p.mapM f = lift (p.mapM plain) := by
  induction p with
  | atom a => rw [Formula.mapM_atom, Formula.mapM_atom, h, lift_map]
  | all ps ih => rw [Formula.mapM_all, Formula.mapM_all, mapM_lift ih, lift_map]
  | any ps ih => rw [Formula.mapM_any, Formula.mapM_any, mapM_lift ih, lift_map]

variable {f : ColumnName → Except Stop ColumnName}
  {plain : ColumnName → Except PlanError ColumnName}

theorem mapColumnM_lift (h : ∀ n, f n = lift (plain n)) (x : Operand) :
    x.mapColumnM f = lift (x.mapColumnM plain) := by
  cases x with
  | column n => rw [Operand.mapColumnM, Operand.mapColumnM, h, lift_map]
  | literal text => rfl

theorem mapColumnsM_lift (h : ∀ n, f n = lift (plain n)) (c : Condition) :
    c.mapColumnsM f = lift (c.mapColumnsM plain) := by
  refine formula_mapM_lift (fun x => ?_) c
  rw [Comparison.mapColumnsM, mapColumnM_lift h, mapColumnM_lift h]
  refine bind_lift fun left _ => ?_
  exact bind_lift fun right _ => rfl

end

theorem classifyTerms_eq (tables : List Table) (terms : List Term) :
    classifyTerms tables terms = lift (Query.classifyTerms tables terms) := by
  refine bind_lift fun condition _ => ?_
  cases condition with
  | none => rfl
  | some condition =>
    refine bind_lift fun conjuncts _ => ?_
    rw [mapM_lift fun c _ => mapColumnsM_lift (pin_eq tables) c]
    exact bind_lift fun pinned _ => rfl

/-! ### The left-deep tree -/

/-- Joins the table of a stage to the result so far. -/
def joinStage (joinStages filterStages : List (List Condition)) (result table : Table)
    (stage : Nat) : Except Stop Table := do
  let filters ← lookup filterStages stage
  let (before, after) := filters.partition fun c => c.columns.all table.resolves
  let table ← lift (table.filterRows before)
  let joins ← lookup joinStages stage
  let joined ← mergeJoin result table (joins.filterMap Formula.atom?) ("join_" ++ toString stage)
  lift (joined.filterRows after)

/-- Joins tables one after the other, with the joins and the filters of each stage. -/
def leftDeep (tables : List Table) (joinStages filterStages : List (List Condition)) :
    Except Stop Table :=
  match tables with
  | [] => .error (.refused .noRelations)
  | table :: rest => do
    let filters ← lookup filterStages 0
    let joins ← lookup joinStages 0
    let first ← lift (table.filterRows (filters ++ joins))
    (rest.zipIdx 1).foldlM (fun result s => joinStage joinStages filterStages result s.1 s.2) first

section

variable {joinStages filterStages : List (List Condition)}

theorem joinStage_eq {stage : Nat} {joins filters : List Condition}
    (hjoins : joinStages[stage]? = some joins) (hfilters : filterStages[stage]? = some filters)
    (result table : Table) :
    joinStage joinStages filterStages result table stage =
      lift (Query.joinStage result table joins filters stage) := by
  rw [joinStage, lookup_eq_ok hfilters, ok_bind]
  refine bind_lift fun filtered _ => ?_
  rw [lookup_eq_ok hjoins, ok_bind, mergeJoin_eq]
  exact bind_lift fun joined _ => rfl

/-- Every table behind the first one stands beside the conditions that are looked up for it. -/
theorem foldlM_joinStage {rest : List Table} {joins filters : List Condition}
    (hjoins : joinStages.length = rest.length) (hfilters : filterStages.length = rest.length)
    (first : Table) :
    (rest.zipIdx 1).foldlM (fun result s =>
        joinStage (joins :: joinStages) (filters :: filterStages) result s.1 s.2) first =
      lift (((rest.zip (joinStages.zip filterStages)).zipIdx 1).foldlM (fun result s =>
        Query.joinStage result s.1.1 s.1.2.1 s.1.2.2 s.2) first) := by
  have hrest : (rest.zip (joinStages.zip filterStages)).map Prod.fst = rest := by
    apply List.map_fst_zip
    rw [List.length_zip]
    omega
  nth_rewrite 1 [← hrest]
  rw [List.zipIdx_map, List.foldlM_map]
  -- the invariant of the loop is trivial: the lookups depend on the stage only
  apply foldlM_lift _ (fun _ => True) trivial
  · rintro result - ⟨⟨table, js, fs⟩, stage⟩ hmem
    obtain ⟨hstage, hat⟩ := List.mk_mem_zipIdx_iff_le_and_getElem?_sub.1 hmem
    obtain ⟨k, rfl⟩ : ∃ k, stage = k + 1 := ⟨stage - 1, by omega⟩
    rw [Nat.add_sub_cancel, List.getElem?_zip_eq_some, List.getElem?_zip_eq_some] at hat
    obtain ⟨-, hjs, hfs⟩ := hat
    rw [← List.getElem?_cons_succ (a := joins)] at hjs
    rw [← List.getElem?_cons_succ (a := filters)] at hfs
    exact joinStage_eq hjs hfs result table
  · exact fun _ _ _ _ _ _ => trivial

/-- Where there is a list of conditions for every stage, no stage is looked up in vain. -/
theorem leftDeep_eq {tables : List Table} (hjoins : joinStages.length = max 1 tables.length)
    (hfilters : filterStages.length = max 1 tables.length) :
    leftDeep tables joinStages filterStages =
      lift (Query.leftDeep (tables.zip (joinStages.zip filterStages))) := by
  cases tables with
  | nil => rfl
  | cons table rest =>
    have hmax : max 1 (table :: rest).length = rest.length + 1 := by
      rw [List.length_cons]
      omega
    rw [hmax] at hjoins hfilters
    obtain ⟨joins, joinStages, rfl⟩ := List.exists_cons_of_length_eq_add_one hjoins
    obtain ⟨filters, filterStages, rfl⟩ := List.exists_cons_of_length_eq_add_one hfilters
    rw [leftDeep, lookup_eq_ok (a := filters) rfl, ok_bind, lookup_eq_ok (a := joins) rfl, ok_bind,
      List.zip_cons_cons, List.zip_cons_cons, Query.leftDeep]
    exact bind_lift fun first _ =>
      foldlM_joinStage (Nat.succ.inj hjoins) (Nat.succ.inj hfilters) first

end

/-! ### The plan -/

/-- Brings the joined rows into the form the statement prints. -/
def finish (config : Config) (sample : Option Nat) (joined : Table) :
    Output → Except Stop Table
  | .count name => lift ((Query.sampled joined sample config.seed).countRows name)
  | .columns names => do
    let reordered ← reorderColumns joined names true
    let labeled ← labelColumns reordered (names.map ColumnName.unqualified)
    return Query.sampled labeled sample config.seed

/-- The table that a statement describes. -/
def table (s : Statement) (config : Config) (catalog : Catalog) : Except Stop Table := do
  if s.relations.isEmpty then .error (.refused .noRelations)
  else
    lift (Query.checkNames [] s.relations)
    let tables ← lift (s.relations.mapM (Query.openRelation config catalog))
    let output ← output (s.relations.zip tables) s.columns
    let (joins, filters) ← classifyTerms tables s.conditions
    let graph ← build s.relations joins
    let order ← lift (graph.order (config.weight graph filters))
    let ordered ← takeTables graph (tables.map some) (order.map (·.name))
    let joinStages ← stageConditions ordered (joins.map .atom)
    let filterStages ← stageConditions ordered filters
    let joined ← leftDeep ordered joinStages filterStages
    finish config s.sample joined output

/-- The pipeline that prints what a statement asks for. -/
def plan (s : Statement) (config : Config) (catalog : Catalog) : Except Stop String :=
  (table s config catalog).map (·.render config.header)

theorem finish_eq (config : Config) (sample : Option Nat) (joined : Table) (output : Output) :
    finish config sample joined output = lift (Query.finish config sample joined output) := by
  cases output with
  | count name => rfl
  | columns names =>
    rw [finish, reorderColumns_eq]
    refine bind_lift fun reordered _ => ?_
    rw [labelColumns_eq]
    rfl

/-- No lookup on the way to the table of a statement misses. -/
theorem table_eq (s : Statement) (config : Config) (catalog : Catalog) :
    table s config catalog = lift (Query.table s config catalog) := by
  unfold table Query.table
  by_cases hempty : s.relations.isEmpty = true
  · simp only [hempty, ↓reduceIte]
    rfl
  · simp only [hempty, Bool.false_eq_true, ↓reduceIte]
    -- step by step; what a step has found out bounds the lookups of the later ones
    refine bind_lift fun _ hnames => ?_
    refine bind_lift fun tables htables => ?_
    rw [output_eq]
    refine bind_lift fun output _ => ?_
    rw [classifyTerms_eq]
    refine bind_lift fun conjuncts _ => ?_
    rw [build_eq]
    refine bind_lift fun graph hgraph => ?_
    refine bind_lift fun order horder => ?_
    have hlength : tables.length = s.relations.length := (mapM_ok_iff.1 htables).length_eq.symm
    rw [takeTables_eq (Query.nodup_of_checkNames hnames) hgraph horder hlength, ok_bind,
      stageConditions_eq]
    refine bind_lift fun joinStages hjoins => ?_
    rw [stageConditions_eq]
    refine bind_lift fun filterStages hfilters => ?_
    rw [leftDeep_eq (length_stages hjoins) (length_stages hfilters)]
    exact bind_lift fun joined _ => finish_eq config s.sample joined output

/-- For every statement, every catalog and all settings, the weights of the relations among them,
the planner with checked lookups ends as the planner does: it refuses the statement with an error or
it gives the text of a pipeline. No lookup misses. -/
theorem plan_refused_or_rendered (s : Statement) (config : Config) (catalog : Catalog) :
    (∃ e, Query.plan s config catalog = .error e ∧
      plan s config catalog = .error (.refused e)) ∨
    ∃ text, Query.plan s config catalog = .ok text ∧ plan s config catalog = .ok text := by
  have hplan : plan s config catalog = lift (Query.plan s config catalog) := by
    rw [plan, table_eq, Query.plan, lift_map]
  rw [hplan]
  cases Query.plan s config catalog with
  | error e => exact .inl ⟨e, rfl, rfl⟩
  | ok text => exact .inr ⟨text, rfl, rfl⟩

end ShellQuery.Checked
