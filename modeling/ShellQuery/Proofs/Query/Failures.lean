import ShellQuery.Proofs.Formula.Cnf
import ShellQuery.Query

/-!
# Which errors the steps of a plan give

Two kinds of errors blame the condition of a statement: that its terms have no structure, and that
a word in it is no operator. Main statement: only the reading of the terms gives such an error
(`Query.blameless_table`); every other step is `Blameless`. The lemmas follow the definitions, one
for each step, over the ones for steps in sequence.
-/

namespace ShellQuery

variable {α β : Type}

/-- Whether an error says that a condition cannot be read. -/
def PlanError.blamesCondition : PlanError → Bool
  | malformedCondition _ => true
  | invalidOperator _ => true
  | _ => false

/-- If the step fails, its error does not blame the condition. -/
def Blameless (step : Except PlanError α) : Prop :=
  ∀ e, step = .error e → e.blamesCondition = false

/-! ### Steps in sequence -/

theorem blameless_ok (a : α) : Blameless (.ok a) :=
  fun _ h => nomatch h

theorem blameless_error {e : PlanError} (h : e.blamesCondition = false) :
    Blameless (.error e : Except PlanError α) := by
  intro e' heq
  rwa [← Except.error.inj heq]

/-- A sequence of steps is blameless if each of them is, whatever the first one gives. -/
theorem Blameless.bind {step : Except PlanError α} {next : α → Except PlanError β}
    (hstep : Blameless step) (hnext : ∀ a, Blameless (next a)) : Blameless (step >>= next) := by
  cases step with
  | error e => exact blameless_error (hstep e rfl)
  | ok a => exact hnext a

theorem Blameless.map {step : Except PlanError α} (h : Blameless step) (f : α → β) :
    Blameless (step.map f) := by
  cases step with
  | error e => exact blameless_error (h e rfl)
  | ok a => exact blameless_ok (f a)

theorem blameless_mapM {f : α → Except PlanError β} (h : ∀ a, Blameless (f a)) (as : List α) :
    Blameless (as.mapM f) := by
  induction as with
  | nil => exact blameless_ok []
  | cons a as ih =>
    rw [List.mapM_cons]
    exact (h a).bind fun b => ih.bind fun bs => blameless_ok (b :: bs)

/-- Here the step is blameless from every state, so no invariant of the loop is needed. -/
theorem blameless_foldlM {f : β → α → Except PlanError β} (h : ∀ b a, Blameless (f b a))
    (as : List α) (b : β) : Blameless (as.foldlM f b) := by
  induction as generalizing b with
  | nil => exact blameless_ok b
  | cons a as ih =>
    rw [List.foldlM_cons]
    exact (h b a).bind ih

theorem blameless_forM {f : α → Except PlanError PUnit} (h : ∀ a, Blameless (f a))
    (as : List α) : Blameless (as.forM f) := by
  induction as with
  | nil => exact blameless_ok _
  | cons a as ih => exact (h a).bind fun _ => ih

theorem Formula.blameless_mapM {f : α → Except PlanError β} (h : ∀ a, Blameless (f a))
    (p : Formula α) : Blameless (p.mapM f) := by
  -- the parts of a junction are gone through in order, like a list of steps
  have hparts : ∀ ps : List (Formula α), (∀ p ∈ ps, Blameless (p.mapM f)) →
      Blameless (ps.mapM (Formula.mapM f)) := by
    intro ps
    induction ps with
    | nil => exact fun _ => blameless_ok []
    | cons p ps ih =>
      intro hps
      rw [List.mapM_cons]
      refine (hps p List.mem_cons_self).bind fun q => Blameless.bind ?_ fun qs => blameless_ok _
      exact ih fun p' hp' => hps p' (List.mem_cons_of_mem p hp')
  induction p with
  | atom a =>
    rw [mapM_atom]
    exact (h a).map _
  | all ps ih =>
    rw [mapM_all]
    exact (hparts ps ih).map _
  | any ps ih =>
    rw [mapM_any]
    exact (hparts ps ih).map _

/-! ### Names and tables -/

/-- A name can only be refused as a name. -/
theorem ColumnName.blameless_make (spelling : String) (qualifiers : List String) :
    Blameless (make spelling qualifiers) := by
  unfold make
  split
  · exact blameless_ok _
  · exact blameless_error rfl

theorem ColumnName.blameless_ofText (text : String) : Blameless (ofText text) := by
  unfold ofText
  split
  · exact blameless_make _ _
  · exact blameless_error rfl
  · exact blameless_make _ _

namespace Table

/-- A header is refused for a field that is no name or that comes twice. -/
theorem blameless_headerColumns (path name : String) (seen fields : List String) :
    Blameless (headerColumns path name seen fields) := by
  induction fields generalizing seen with
  | nil => exact blameless_ok []
  | cons field fields ih =>
    rw [headerColumns]
    refine ((ColumnName.blameless_make _ _).map _).bind fun column => ?_
    split
    · exact blameless_error rfl
    · exact (ih _).bind fun columns => blameless_ok _

theorem blameless_ofFile (path : String) (label : Option String) (delimiter : Char)
    (catalog : Catalog) : Blameless (ofFile path label delimiter catalog) := by
  unfold ofFile
  split
  · exact blameless_error rfl
  · exact (blameless_headerColumns _ _ _ _).bind fun columns => blameless_ok _

/-- A name that means several columns is refused as ambiguous, one that means none is not refused
here. -/
theorem blameless_find (t : Table) (n : ColumnName) : Blameless (t.find n) := by
  unfold find
  split
  · exact blameless_ok _
  · exact blameless_ok _
  · exact blameless_error rfl

theorem blameless_tryResolve (t : Table) (n : ColumnName) : Blameless (t.tryResolve n) :=
  (t.blameless_find n).map _

theorem blameless_resolve (t : Table) (n : ColumnName) : Blameless (t.resolve n) := by
  refine (t.blameless_tryResolve n).bind fun position => ?_
  cases position with
  | none => exact blameless_error rfl
  | some p => exact blameless_ok p

theorem blameless_reorderColumns (t : Table) (names : List ColumnName) (dropOthers : Bool) :
    Blameless (t.reorderColumns names dropOthers) :=
  (blameless_mapM t.blameless_resolve names).bind fun _ => blameless_ok _

theorem blameless_countRows (t : Table) (name : Option ColumnName) :
    Blameless (t.countRows name) := by
  cases name with
  | none => exact blameless_ok _
  | some n => exact (t.blameless_resolve n).map _

end Table

/-- The terms have been read, so only their columns can still be missing or ambiguous. -/
theorem Condition.blameless_resolve (t : Table) (c : Condition) :
    Blameless (Condition.resolve t.resolve c) := by
  have hside : ∀ x : Operand, Blameless (resolveOperand t.resolve x) := by
    intro x
    cases x with
    | column n => exact (t.blameless_resolve n).map _
    | literal text => exact blameless_ok _
  refine Formula.blameless_mapM (fun a => ?_) c
  exact (hside a.left).bind fun l => (hside a.right).bind fun r => blameless_ok _

/-- The shape and the operators of a condition stay, so it fails only where the function on its
columns does. -/
theorem Condition.blameless_mapColumnsM {f : ColumnName → Except PlanError ColumnName}
    (h : ∀ n, Blameless (f n)) (c : Condition) : Blameless (c.mapColumnsM f) := by
  have hside : ∀ x : Operand, Blameless (x.mapColumnM f) := by
    intro x
    cases x with
    | column n => exact (h n).map _
    | literal text => exact blameless_ok _
  refine Formula.blameless_mapM (fun a => ?_) c
  exact (hside a.left).bind fun l => (hside a.right).bind fun r => blameless_ok _

namespace Table

theorem blameless_filterRows (t : Table) (conjuncts : List Condition) :
    Blameless (t.filterRows conjuncts) := by
  unfold filterRows
  split
  · exact blameless_ok t
  · exact (blameless_mapM (Condition.blameless_resolve t) conjuncts).bind fun _ => blameless_ok _

/-- Both columns of a condition are looked for on both sides. Five of the ways this can end are told
apart, and three of them are errors about columns. -/
theorem blameless_keyPair (left right : Table) (c : Comparison) :
    Blameless (keyPair left right c) := by
  unfold keyPair
  split
  · split
    -- four lookups, then one case for each arm of the match on what they found
    · refine (left.blameless_tryResolve _).bind fun inLeftA => ?_
      refine (right.blameless_tryResolve _).bind fun inRightA => ?_
      refine (left.blameless_tryResolve _).bind fun inLeftB => ?_
      refine (right.blameless_tryResolve _).bind fun inRightB => ?_
      split
      · exact blameless_ok _
      · exact blameless_ok _
      · exact blameless_error rfl
      · exact blameless_error rfl
      · exact blameless_error rfl
    · exact blameless_error rfl
  · exact blameless_error rfl

/-- A join without conditions is refused as a cross join. -/
theorem blameless_mergeJoin (left right : Table) (conditions : List Comparison) (name : String) :
    Blameless (mergeJoin left right conditions name) := by
  refine (blameless_mapM (blameless_keyPair left right) conditions).bind fun pairs => ?_
  cases pairs with
  | nil => exact blameless_error rfl
  | cons pair more =>
    dsimp only
    split
    · exact blameless_ok _
    · exact blameless_ok _

end Table

/-! ### Stages and the graph -/

theorem Location.blameless_search (n : ColumnName) (stage : Nat) (tables : List Table) :
    Blameless (search n stage tables) := by
  induction tables generalizing stage with
  | nil => exact blameless_ok []
  | cons t ts ih =>
    exact (t.blameless_find n).bind fun found => (ih (stage + 1)).bind fun rest => blameless_ok _

theorem Location.blameless_ofName (tables : List Table) (n : ColumnName) :
    Blameless (ofName tables n) := by
  refine (blameless_search n 0 tables).bind fun hits => ?_
  cases hits with
  | nil => exact blameless_error rfl
  | cons first further => exact blameless_ok _

theorem Location.blameless_checkWithin (stage : Nat) (l : Location) :
    Blameless (l.checkWithin stage) := by
  unfold checkWithin
  split
  · exact blameless_error rfl
  · exact blameless_ok _

/-- A condition is refused here for a column that no relation or, at its stage, more than one
relation has. -/
theorem blameless_stageConditions (tables : List Table) (conditions : List Condition) :
    Blameless (stageConditions tables conditions) := by
  refine (blameless_mapM (fun c => ?_) conditions).bind fun stages => blameless_ok _
  refine (blameless_mapM (Location.blameless_ofName tables) c.columns).bind fun locations => ?_
  exact (blameless_forM (Location.blameless_checkWithin _) locations).bind fun _ => blameless_ok _

namespace JoinGraph

theorem blameless_addRelation (g : JoinGraph) (r : Relation) : Blameless (g.addRelation r) := by
  unfold addRelation
  split
  · exact blameless_error rfl
  · exact blameless_ok _

theorem blameless_relationOf (g : JoinGraph) (n : ColumnName) : Blameless (g.relationOf n) := by
  unfold relationOf
  split
  · exact blameless_ok _
  · exact blameless_error rfl

/-- A join is refused for a relation that does not exist or that is joined with itself. -/
theorem blameless_addJoin (g : JoinGraph) (c : Comparison) : Blameless (g.addJoin c) := by
  unfold addJoin
  split
  · refine (g.blameless_relationOf _).bind fun left => ?_
    refine (g.blameless_relationOf _).bind fun right => ?_
    split
    · exact blameless_error rfl
    · exact blameless_ok _
  · exact blameless_error rfl

theorem blameless_build (relations : List Relation) (joins : List Comparison) :
    Blameless (build relations joins) :=
  (blameless_foldlM blameless_addRelation relations _).bind fun g =>
    blameless_foldlM blameless_addJoin joins g

/-- An order is refused for a relation that no join reaches. -/
theorem blameless_order (g : JoinGraph) (weight : String → Nat) : Blameless (g.order weight) := by
  unfold order
  split
  · exact blameless_ok []
  · dsimp only
    split
    · exact blameless_error rfl
    · exact blameless_ok _

end JoinGraph

/-! ### The plan -/

namespace Query

/-- Item by item: the texts are read first, and wildcards are spelled out then. -/
theorem blameless_output (relations : List (Relation × Table)) (columns : List String) :
    Blameless (output relations columns) := by
  -- what an item says can be refused as a name, its wildcard for a relation that does not exist
  have hitem : ∀ text, Blameless (SelectItem.ofText text) := by
    intro text
    unfold SelectItem.ofText
    dsimp only
    split
    · exact blameless_ok _
    · split
      · exact blameless_ok _
      · split
        · exact blameless_ok _
        · exact (ColumnName.blameless_ofText _).map _
        · exact (ColumnName.blameless_ofText _).map _
  have hexpand : ∀ item, Blameless (expandItem relations item) := by
    intro item
    cases item with
    | wildcard => exact blameless_ok _
    | column name => exact blameless_ok _
    | count name => exact blameless_ok _
    | wildcardOf qualifier =>
      refine Blameless.map ?_ _
      unfold wildcardTable
      dsimp only
      split
      · exact blameless_ok _
      · exact blameless_error rfl
  refine (blameless_mapM hitem columns).bind fun items => ?_
  unfold outputOfItems
  split
  · split
    · exact blameless_ok _
    · exact blameless_error rfl
  · exact (blameless_mapM hexpand _).bind fun names => blameless_ok _

theorem blameless_checkNames (seen : List String) (relations : List Relation) :
    Blameless (checkNames seen relations) := by
  induction relations generalizing seen with
  | nil => exact blameless_ok ()
  | cons r rs ih =>
    rw [checkNames]
    split
    · exact blameless_error rfl
    · exact ih _

theorem blameless_pin (tables : List Table) (n : ColumnName) : Blameless (pin tables n) := by
  refine (Location.blameless_ofName tables n).bind fun location => ?_
  split
  · exact blameless_ok _
  · exact blameless_error rfl

/-- What is done with a condition that has been read blames it no more. -/
theorem blameless_classifyTerms (tables : List Table) {terms : List Term}
    {condition : Option Condition} (h : Condition.ofTerms terms = .ok condition) :
    Blameless (classifyTerms tables terms) := by
  rw [classifyTerms, h]
  cases condition with
  | none => exact blameless_ok _
  | some c =>
    have hconjuncts : Blameless (Condition.conjuncts (Formula.toCnf c)) := by
      rw [Condition.conjuncts_toCnf]
      exact blameless_ok _
    refine hconjuncts.bind fun conjuncts => ?_
    exact (blameless_mapM (Condition.blameless_mapColumnsM (blameless_pin tables)) _).bind
      fun pinned => blameless_ok _

theorem blameless_joinStage (result table : Table) (joins filters : List Condition)
    (number : Nat) : Blameless (joinStage result table joins filters number) :=
  (table.blameless_filterRows _).bind fun table =>
    (result.blameless_mergeJoin table _ _).bind fun joined => joined.blameless_filterRows _

/-- The first table is only filtered; every further one is joined to what there is. -/
theorem blameless_leftDeep (stages : List (Table × List Condition × List Condition)) :
    Blameless (leftDeep stages) := by
  cases stages with
  | nil => exact blameless_error rfl
  | cons st rest =>
    obtain ⟨table, joins, filters⟩ := st
    exact (table.blameless_filterRows _).bind fun first =>
      blameless_foldlM (fun result s => blameless_joinStage result _ _ _ _) _ first

theorem blameless_finish (config : Config) (sample : Option Nat) (joined : Table)
    (output : Output) : Blameless (finish config sample joined output) := by
  cases output with
  | count name => exact Table.blameless_countRows _ name
  | columns names => exact (joined.blameless_reorderColumns _ _).bind fun _ => blameless_ok _

/-- A statement whose condition can be read is never refused for its condition. -/
theorem blameless_table {s : Statement} {condition : Option Condition}
    (h : Condition.ofTerms s.conditions = .ok condition) (config : Config) (catalog : Catalog) :
    Blameless (table s config catalog) := by
  unfold table
  split
  · exact blameless_error rfl
  -- one line for each step of the planner, in its order
  · refine (blameless_checkNames _ _).bind fun _ => ?_
    refine (blameless_mapM (fun r => Table.blameless_ofFile _ _ _ _) _).bind fun tables => ?_
    refine (blameless_output _ _).bind fun output => ?_
    refine (blameless_classifyTerms tables h).bind fun classified => ?_
    refine (JoinGraph.blameless_build _ _).bind fun graph => ?_
    refine (graph.blameless_order _).bind fun order => ?_
    refine (blameless_stageConditions _ _).bind fun joinStages => ?_
    refine (blameless_stageConditions _ _).bind fun filterStages => ?_
    exact (blameless_leftDeep _).bind fun joined => blameless_finish _ _ _ _

end Query

end ShellQuery
