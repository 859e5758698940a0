import ShellQuery.Proofs.Condition.Case
import ShellQuery.Query

/-!
# Plans do not look at the case

Two statements that differ in the case of their select items, of the column names in their
conditions and of their operator words are planned alike. Names are looked up by what they are
compared by, so every step after the reading does the same in both runs: the pinned columns, the
graph, the stages and the joined table do not depend on the case. Only the labels of the printed
columns show it.

* `Agree` relates the outcomes of two runs, and `Agree.bind` puts steps together;
* `pin_caseless`, `JoinGraph.build_caseless`, `stageConditions_caseless`, `leftDeep_caseless`: the
  steps between the reading and the labels;
* `agree_output`, `agree_finish`: the select list, in which the case survives up to the labels;
* `table_of_caseless`: both statements fail with errors of one kind, or both have plans with the
  same source, the same steps and identical columns.
-/

namespace ShellQuery

variable {α β γ δ : Type}

/-! ### Two runs -/

/-- Two steps agree if both succeed, with related results, or both fail with errors that differ in
the case of a quoted text only. -/
inductive Agree (R : α → β → Prop) : Except PlanError α → Except PlanError β → Prop where
  | ok {a : α} {b : β} (h : R a b) : Agree R (.ok a) (.ok b)
  | error {e e' : PlanError} (h : e.caseless = e'.caseless) : Agree R (.error e) (.error e')

/-- Steps that agree can be put one behind the other: an error in either run is an error of that
kind in both. -/
theorem Agree.bind {R : α → β → Prop} {S : γ → δ → Prop} {x : Except PlanError α}
    {y : Except PlanError β} {f : α → Except PlanError γ} {g : β → Except PlanError δ}
    (h : Agree R x y) (hnext : ∀ a b, R a b → Agree S (f a) (g b)) :
    Agree S (x >>= f) (y >>= g) := by
  cases h with
  | ok hab => exact hnext _ _ hab
  | error he => exact .error he

theorem Agree.map {R : α → β → Prop} {S : γ → δ → Prop} {x : Except PlanError α}
    {y : Except PlanError β} {f : α → γ} {g : β → δ} (h : Agree R x y)
    (hfg : ∀ a b, R a b → S (f a) (g b)) : Agree S (x.map f) (y.map g) := by
  cases h with
  | ok hab => exact .ok (hfg _ _ hab)
  | error he => exact .error he

theorem Agree.imp {R S : α → β → Prop} {x : Except PlanError α} {y : Except PlanError β}
    (h : Agree R x y) (hRS : ∀ a b, R a b → S a b) : Agree S x y := by
  cases h with
  | ok hab => exact .ok (hRS _ _ hab)
  | error he => exact .error he

/-- Steps over two lists agree if they do element by element. -/
theorem agree_mapM {R : α → β → Prop} {S : γ → δ → Prop} {f : α → Except PlanError γ}
    {g : β → Except PlanError δ} (h : ∀ a b, R a b → Agree S (f a) (g b)) {as : List α}
    {bs : List β} (hlists : List.Forall₂ R as bs) :
    Agree (List.Forall₂ S) (as.mapM f) (bs.mapM g) := by
  induction hlists with
  | nil => exact .ok .nil
  | cons hab _ ih =>
    rw [List.mapM_cons, List.mapM_cons]
    exact (h _ _ hab).bind fun c d hcd => ih.bind fun cs ds hcds => .ok (.cons hcd hcds)

/-- A step agrees with itself, and its results are then the same. -/
theorem agree_self (x : Except PlanError α) : Agree Eq x x := by
  cases x with
  | error e => exact .error rfl
  | ok a => exact .ok rfl

/-- A step that both runs take leaves only the steps behind it to compare. -/
theorem agree_bind {S : γ → δ → Prop} {x : Except PlanError α} {f : α → Except PlanError γ}
    {g : α → Except PlanError δ} (h : ∀ a, Agree S (f a) (g a)) : Agree S (x >>= f) (x >>= g) := by
  refine (agree_self x).bind ?_
  rintro a _ rfl
  exact h a

/-- Steps agree if they give the same up to what `f` and `g` forget. -/
theorem agree_of_map_eq {f : α → γ} {g : β → γ} {x : Except PlanError α} {y : Except PlanError β}
    (h : x.map f = y.map g) : Agree (fun a b => f a = g b) x y := by
  cases x with
  | error e =>
    cases y with
    | error e' =>
      obtain rfl := Except.error.inj h
      exact .error rfl
    | ok b => cases h
  | ok a =>
    cases y with
    | error e' => cases h
    | ok b => exact .ok (Except.ok.inj h)

/-- Steps agree if they give the same without the case. -/
theorem agree_of_withoutCase {f : α → γ} {x y : Except PlanError α}
    (h : withoutCase f x = withoutCase f y) : Agree (fun a b => f a = f b) x y := by
  cases x with
  | error e =>
    cases y with
    | error e' => exact .error (Except.error.inj h)
    | ok b => cases h
  | ok a =>
    cases y with
    | error e' => cases h
    | ok b => exact .ok (Except.ok.inj h)

/-! ### Looking up names -/

namespace Table

/-- A table compares names by their lower-case form, so looking one up does not change. -/
theorem find_caseless (t : Table) (n : ColumnName) : t.find n.caseless = t.find n := rfl

theorem resolve_caseless (t : Table) (n : ColumnName) : t.resolve n.caseless = t.resolve n := rfl

/-- The tests of a filter name positions, so no case is left in them. -/
theorem filterRows_caseless (t : Table) (cs : List Condition) :
    t.filterRows (cs.map Condition.caseless) = t.filterRows cs := by
  rw [filterRows, List.isEmpty_map, List.mapM_map, filterRows]
  have hresolve : Condition.resolve t.resolve ∘ Condition.caseless = Condition.resolve t.resolve :=
    funext (Condition.resolve_caseless t.resolve_caseless)
  rw [hresolve]

/-- Neither the columns of a key nor whether they can be a key depends on the case. -/
theorem keyPair_caseless (left right : Table) (c : Comparison) :
    keyPair left right c.caseless = keyPair left right c := by
  obtain ⟨l, o, r⟩ := c
  cases l <;> cases r <;> rfl

theorem mergeJoin_caseless (left right : Table) (cs : List Comparison) (name : String) :
    mergeJoin left right (cs.map Comparison.caseless) name = mergeJoin left right cs name := by
  have hpair : keyPair left right ∘ Comparison.caseless = keyPair left right :=
    funext (keyPair_caseless left right)
  rw [mergeJoin, List.mapM_map, hpair, mergeJoin]

theorem countRows_caseless (t : Table) (name : Option ColumnName) :
    t.countRows (name.map ColumnName.caseless) = t.countRows name := by
  cases name with
  | none => rfl
  | some n => rfl

/-- The labels of the columns are given later, so the order of the columns shows no case. -/
theorem reorderColumns_caseless (t : Table) (names : List ColumnName) (dropOthers : Bool) :
    t.reorderColumns (names.map ColumnName.caseless) dropOthers =
      t.reorderColumns names dropOthers := by
  have hresolve : t.resolve ∘ ColumnName.caseless = t.resolve := funext t.resolve_caseless
  rw [reorderColumns, List.mapM_map, hresolve, reorderColumns]

end Table

/-- The location without the case of its name. -/
def Location.caseless (l : Location) : Location :=
  { l with name := l.name.caseless }

theorem Location.search_caseless (n : ColumnName) (stage : Nat) (tables : List Table) :
    search n.caseless stage tables = search n stage tables := by
  induction tables generalizing stage with
  | nil => rfl
  | cons t ts ih => rw [search, ih, t.find_caseless, search]

/-- The location of a name is where it was, under the name without its case. -/
theorem Location.ofName_caseless (tables : List Table) (n : ColumnName) :
    ofName tables n.caseless = (ofName tables n).map caseless := by
  rw [ofName, search_caseless, ofName]
  cases search n 0 tables with
  | error e => rfl
  | ok hits =>
    cases hits with
    | nil => rfl
    | cons first further => rfl

/-- A condition is applied at the same stage, whatever its case: its columns are found at the same
places, and refused for the same ambiguity. -/
theorem stageOf_caseless (tables : List Table) (c : Condition) :
    stageOf tables c.caseless = stageOf tables c := by
  have hlocations : c.caseless.columns.mapM (Location.ofName tables) =
      (c.columns.mapM (Location.ofName tables)).map (List.map Location.caseless) := by
    rw [c.columns_caseless, List.mapM_map, mapM_comp_map]
    exact mapM_congr_mem fun n _ => Location.ofName_caseless tables n
  rw [stageOf, hlocations, stageOf]
  cases c.columns.mapM (Location.ofName tables) with
  | error e => rfl
  | ok locations =>
    have hstage : (locations.map Location.caseless).foldl
        (fun s (l : Location) => max s l.first.stage) 0 =
        locations.foldl (fun s l => max s l.first.stage) 0 := List.foldl_map
    have hcheck : ∀ stage, (locations.map Location.caseless).forM (Location.checkWithin stage) =
        locations.forM (Location.checkWithin stage) := fun stage => List.forM_map
    simp only [Except.map, bind, Except.bind, hstage, hcheck]

/-- The conditions of every stage differ in their case only. -/
theorem stageConditions_caseless (tables : List Table) (cs : List Condition) :
    stageConditions tables (cs.map Condition.caseless) =
      (stageConditions tables cs).map (List.map (List.map Condition.caseless)) := by
  have hstages : stageOf tables ∘ Condition.caseless = stageOf tables :=
    funext (stageOf_caseless tables)
  rw [stageConditions, List.mapM_map, hstages, stageConditions]
  cases cs.mapM (stageOf tables) with
  | error e => rfl
  | ok stages =>
    refine congrArg Except.ok ?_
    rw [List.map_map]
    refine List.map_congr_left fun k _ => ?_
    rw [List.zip_map_left, List.filter_map, List.map_map, Function.comp_apply, List.map_map]
    rfl

/-! ### The graph -/

namespace JoinGraph

/-- The edges of the graph are between positions. -/
theorem addJoin_caseless (g : JoinGraph) (c : Comparison) : g.addJoin c.caseless = g.addJoin c := by
  obtain ⟨l, o, r⟩ := c
  cases l <;> cases r <;> rfl

theorem build_caseless (relations : List Relation) (joins : List Comparison) :
    build relations (joins.map Comparison.caseless) = build relations joins := by
  have hjoin : (fun (g : JoinGraph) (c : Comparison) => g.addJoin c.caseless) = addJoin := by
    funext g c
    exact g.addJoin_caseless c
  simp only [build, List.foldlM_map, hjoin]

end JoinGraph

/-- The output without the case of its names. -/
def Output.caseless : Output → Output
  | .columns names => .columns (names.map ColumnName.caseless)
  | .count name => .count (name.map ColumnName.caseless)

namespace Query

/-! ### Conditions -/

/-- A name is pinned to the same relation. -/
theorem pin_caseless (tables : List Table) (n : ColumnName) :
    pin tables n.caseless = (pin tables n).map ColumnName.caseless := by
  rw [pin, Location.ofName_caseless, pin]
  cases Location.ofName tables n with
  | error e => rfl
  | ok l =>
    obtain ⟨name, first, further⟩ := l
    cases further with
    | nil => rfl
    | cons hit hits => rfl

/-- What becomes of a condition that has been read does not depend on its case. -/
theorem agree_classifyTerms (tables : List Table) {ts ts' : List Term}
    (h : ts.map Term.caseless = ts'.map Term.caseless) :
    Agree (fun a b => a.1.map Comparison.caseless = b.1.map Comparison.caseless ∧
        a.2.map Condition.caseless = b.2.map Condition.caseless)
      (classifyTerms tables ts) (classifyTerms tables ts') := by
  have hread : Agree
      (fun c c' => Option.map Condition.caseless c = Option.map Condition.caseless c')
      (Condition.ofTerms ts) (Condition.ofTerms ts') := by
    refine agree_of_withoutCase ?_
    rw [← Condition.ofTerms_caseless, h, Condition.ofTerms_caseless]
  refine hread.bind fun c c' hc => ?_
  cases c with
  | none =>
    cases c' with
    | none => exact .ok ⟨rfl, rfl⟩
    | some c' => cases hc
  | some c =>
    cases c' with
    | none => cases hc
    | some c' =>
      have hc : c.caseless = c'.caseless := Option.some.inj hc
      have hpin : ∀ c : Condition, (c.cnf.mapM (Condition.mapColumnsM (pin tables))).map
          (List.map Condition.caseless) =
          c.caseless.cnf.mapM (Condition.mapColumnsM (pin tables)) := by
        intro c
        rw [mapM_comp_map, c.cnf_caseless, List.mapM_map]
        refine mapM_congr_mem fun d _ => ?_
        exact (Condition.mapColumnsM_caseless (pin_caseless tables) d).symm
      have hpinned : Agree (fun a b => a.map Condition.caseless = b.map Condition.caseless)
          (c.cnf.mapM (Condition.mapColumnsM (pin tables)))
          (c'.cnf.mapM (Condition.mapColumnsM (pin tables))) :=
        agree_of_map_eq (by rw [hpin, hc, ← hpin])
      dsimp only
      rw [Condition.conjuncts_toCnf, Condition.conjuncts_toCnf]
      refine hpinned.bind fun a b hab => .ok ?_
      have hclassify := calc
        ((Condition.classify a).1.map Comparison.caseless,
            (Condition.classify a).2.map Condition.caseless)
          = Condition.classify (a.map Condition.caseless) := (Condition.classify_caseless a).symm
        _ = Condition.classify (b.map Condition.caseless) := congrArg Condition.classify hab
        _ = ((Condition.classify b).1.map Comparison.caseless,
            (Condition.classify b).2.map Condition.caseless) := Condition.classify_caseless b
      exact Prod.mk.inj hclassify

/-! ### The joined table -/

/-- A stage does the same with conditions in another case. The filters are parted by which columns
the table has, and the joins are taken apart into comparisons; both do not look at the case. -/
theorem joinStage_caseless (result table : Table) (joins filters : List Condition) (number : Nat) :
    joinStage result table (joins.map Condition.caseless) (filters.map Condition.caseless) number =
      joinStage result table joins filters number := by
  have hresolves : (fun c : Condition => c.columns.all table.resolves) ∘ Condition.caseless =
      fun c => c.columns.all table.resolves := by
    funext c
    rw [Function.comp_apply, c.columns_caseless, List.all_map]
    rfl
  have hbefore : (filters.map Condition.caseless).filter (fun c => c.columns.all table.resolves) =
      (filters.filter fun c => c.columns.all table.resolves).map Condition.caseless := by
    rw [List.filter_map, hresolves]
  have hafter : (filters.map Condition.caseless).filter
      (not ∘ fun c => c.columns.all table.resolves) =
      (filters.filter (not ∘ fun c => c.columns.all table.resolves)).map Condition.caseless := by
    rw [List.filter_map, Function.comp_assoc, hresolves]
  have hatoms : (joins.map Condition.caseless).filterMap Formula.atom? =
      (joins.filterMap Formula.atom?).map Comparison.caseless := by
    rw [List.filterMap_map, List.map_filterMap]
    exact List.filterMap_congr fun c _ => Formula.atom?_map Comparison.caseless c
  simp only [joinStage, List.partition_eq_filter_filter, hbefore, hafter, hatoms,
    Table.filterRows_caseless, Table.mergeJoin_caseless]

/-- A stage without the case of its conditions. -/
def caselessStage (st : Table × List Condition × List Condition) :
    Table × List Condition × List Condition :=
  (st.1, st.2.1.map Condition.caseless, st.2.2.map Condition.caseless)

/-- The joined table shows nothing of the case of its conditions. -/
theorem leftDeep_caseless (stages : List (Table × List Condition × List Condition)) :
    leftDeep (stages.map caselessStage) = leftDeep stages := by
  cases stages with
  | nil => rfl
  | cons st rest =>
    obtain ⟨table, joins, filters⟩ := st
    rw [List.map_cons, caselessStage, leftDeep, leftDeep, ← List.map_append,
      Table.filterRows_caseless, List.zipIdx_map]
    simp only [List.foldlM_map]
    have hstage : ∀ (result : Table)
        (s : (Table × List Condition × List Condition) × Nat),
        joinStage result (Prod.map caselessStage id s).1.1 (Prod.map caselessStage id s).1.2.1
          (Prod.map caselessStage id s).1.2.2 (Prod.map caselessStage id s).2 =
          joinStage result s.1.1 s.1.2.1 s.1.2.2 s.2 := by
      intro result s
      exact joinStage_caseless result s.1.1 s.1.2.1 s.1.2.2 s.2
    simp only [hstage]

/-! ### The select list -/

/-- A wildcard stands for the columns of one relation in both runs. If there is none, the errors
quote the qualifier as it was written. -/
theorem agree_wildcardTable (relations : List (Relation × Table)) {q q' : String}
    (h : Text.lower q = Text.lower q') :
    Agree Eq (wildcardTable relations q) (wildcardTable relations q') := by
  have hmeans : ∀ s, Text.sameIgnoringCase s q = Text.sameIgnoringCase s q' := by
    intro s
    rw [Text.sameIgnoringCase, h, Text.sameIgnoringCase]
  unfold wildcardTable
  simp only [hmeans]
  split
  · exact .ok rfl
  · exact .error (congrArg PlanError.unknownRelation h)

/-- An item stands for the same columns in both runs, up to the case of the names. -/
theorem agree_expandItem (relations : List (Relation × Table)) {item item' : SelectItem}
    (h : item.caseless = item'.caseless) :
    Agree (fun a b => a.map ColumnName.caseless = b.map ColumnName.caseless)
      (expandItem relations item) (expandItem relations item') := by
  -- items that are the same without their case are of one kind, so the mixed cases are empty
  cases item with
  | wildcard =>
    cases item' with
    | wildcard => exact .ok rfl
    | wildcardOf _ | column _ | count _ => nomatch h
  | wildcardOf q =>
    cases item' with
    | wildcardOf q' =>
      refine (agree_wildcardTable relations (SelectItem.wildcardOf.inj h)).map ?_
      rintro t _ rfl
      rfl
    | wildcard | column _ | count _ => nomatch h
  | column n =>
    cases item' with
    | column n' => exact .ok (congrArg (fun m => [m]) (SelectItem.column.inj h))
    | wildcard | wildcardOf _ | count _ => nomatch h
  | count n =>
    cases item' with
    | count n' => exact .ok rfl
    | wildcard | wildcardOf _ | column _ => nomatch h

/-- What is printed does not depend on the case of the select items, but for that of the names. -/
theorem agree_outputOfItems (relations : List (Relation × Table)) {items items' : List SelectItem}
    (h : items.map SelectItem.caseless = items'.map SelectItem.caseless) :
    Agree (fun a b => a.caseless = b.caseless)
      (outputOfItems relations items) (outputOfItems relations items') := by
  have hcount : items.any SelectItem.isCount = items'.any SelectItem.isCount := by
    have hmap : ∀ l : List SelectItem,
        (l.map SelectItem.caseless).any SelectItem.isCount = l.any SelectItem.isCount := by
      intro l
      rw [List.any_map]
      exact List.any_congr rfl fun item => item.isCount_caseless
    rw [← hmap, h, hmap]
  have hitems := map_eq_map_iff_forall₂.1 h
  unfold outputOfItems
  rw [hcount]
  split
  · cases hitems with
    | nil => exact .error rfl
    | @cons i i' _ _ hi hrest =>
      cases hrest with
      | cons _ _ =>
        cases i <;> cases i' <;> exact .error rfl
      | nil =>
        cases i with
        | count n =>
          cases i' with
          | count n' => exact .ok (congrArg Output.count (SelectItem.count.inj hi))
          | wildcard | wildcardOf _ | column _ => nomatch hi
        | wildcard | wildcardOf _ | column _ =>
          cases i' with
          | count n' => nomatch hi
          | wildcard | wildcardOf _ | column _ => exact .error rfl
  · have hsame : List.Forall₂ (fun a b => a.caseless = b.caseless)
        (if items.isEmpty then [.wildcard] else items)
        (if items'.isEmpty then [.wildcard] else items') := by
      cases hitems with
      | nil => exact .cons rfl .nil
      | cons hi hrest => exact .cons hi hrest
    have hnames := agree_mapM (fun _ _ h => agree_expandItem relations h) hsame
    refine hnames.bind fun names names' hnames => .ok (congrArg Output.columns ?_)
    rw [List.map_flatten, List.map_flatten, map_eq_map_iff_forall₂.2 hnames]

/-- The items are read and spelled out alike. -/
theorem agree_output (relations : List (Relation × Table)) {columns columns' : List String}
    (h : columns.map Text.lower = columns'.map Text.lower) :
    Agree (fun a b => a.caseless = b.caseless)
      (output relations columns) (output relations columns') := by
  have hitem : ∀ text text' : String, Text.lower text = Text.lower text' →
      Agree (fun a b => a.caseless = b.caseless)
        (SelectItem.ofText text) (SelectItem.ofText text') := by
    intro text text' htext
    refine agree_of_withoutCase ?_
    rw [← SelectItem.ofText_lower, htext, SelectItem.ofText_lower]
  have hitems := agree_mapM hitem (map_eq_map_iff_forall₂.1 h)
  exact hitems.bind fun items items' h => agree_outputOfItems relations (map_eq_map_iff_forall₂.2 h)

end Query

/-! ### The labels -/

namespace Table

/-- Tables of the same rows, whose columns differ in the case of their labels only. -/
structure SameButLabels (t t' : Table) : Prop where
  delimiter : t.delimiter = t'.delimiter
  source : t.source = t'.source
  steps : t.steps = t'.steps
  columns : t.columns.map Column.caseless = t'.columns.map Column.caseless

namespace SameButLabels

variable {t t' : Table}

theorem refl (t : Table) : SameButLabels t t :=
  ⟨rfl, rfl, rfl, rfl⟩

/-- A sample is the same last step on both tables. -/
theorem sampled (h : SameButLabels t t') (sample seed : Option Nat) :
    SameButLabels (Query.sampled t sample seed) (Query.sampled t' sample seed) := by
  cases sample with
  | none => exact h
  | some size =>
    have hsteps : t.steps ++ [.sample size seed] = t'.steps ++ [.sample size seed] := by
      rw [h.steps]
    exact ⟨h.delimiter, h.source, hsteps, h.columns⟩

/-- The commands are made of the source and the steps, which have no labels in them. -/
theorem pipeline_eq (h : SameButLabels t t') : t.pipeline = t'.pipeline := by
  obtain ⟨name, delimiter, source, columns, steps, sortedBy⟩ := t
  obtain ⟨name', delimiter', source', columns', steps', sortedBy'⟩ := t'
  obtain ⟨rfl, rfl, rfl, -⟩ := h
  rw [pipeline, pipeline]

/-- Columns that differ in the case of their labels are identical for the planner. -/
theorem identical (h : SameButLabels t t') :
    List.Forall₂ (fun c d => c.identical d = true) t.columns t'.columns :=
  (map_eq_map_iff_forall₂.1 h.columns).imp fun _ _ => Column.identical_of_caseless_eq

/-- The header lines are the same without their case. -/
theorem lower_headerLine (h : SameButLabels t t') :
    Text.lower t.headerLine = Text.lower t'.headerLine := by
  have hlower : ∀ t : Table, (t.columns.map Column.header).map Text.lower =
      (t.columns.map Column.caseless).map (·.label.plain) := by
    intro t
    rw [List.map_map, List.map_map]
    exact List.map_congr_left fun c _ => c.lower_header
  rw [headerLine, headerLine, Text.lower_intercalate, Text.lower_intercalate, hlower, hlower,
    h.columns, h.delimiter]

end SameButLabels

/-- Columns without a label keep their own one, in both runs. -/
theorem labelWith_caseless (cs : List Column) (labels : List ColumnName) :
    (labelWith cs labels).map Column.caseless =
      labelWith (cs.map Column.caseless) (labels.map ColumnName.caseless) := by
  induction cs generalizing labels with
  | nil => cases labels <;> rfl
  | cons c cs ih =>
    cases labels with
    | nil => rfl
    | cons label labels => exact congrArg (c.withLabel label.caseless :: ·) (ih labels)

/-- Labels that differ in their case are the only difference they make. -/
theorem sameButLabels_labelColumns (t : Table) {labels labels' : List ColumnName}
    (h : labels.map ColumnName.caseless = labels'.map ColumnName.caseless) :
    SameButLabels (t.labelColumns labels) (t.labelColumns labels') := by
  refine ⟨rfl, rfl, rfl, ?_⟩
  show (labelWith t.columns labels).map _ = (labelWith t.columns labels').map _
  rw [labelWith_caseless, h, labelWith_caseless]

end Table

namespace Query

/-- The end of a plan only counts, selects and labels: counted tables are the same, and the others
differ in their labels. -/
theorem agree_finish (config : Config) (sample : Option Nat) (joined : Table) {o o' : Output}
    (h : o.caseless = o'.caseless) :
    Agree Table.SameButLabels (finish config sample joined o) (finish config sample joined o') := by
  cases o with
  | count n =>
    cases o' with
    | columns _ => nomatch h
    | count n' =>
      have hn : n.map ColumnName.caseless = n'.map ColumnName.caseless := Output.count.inj h
      have hcounted : ∀ t : Table, t.countRows n = t.countRows n' := by
        intro t
        rw [← t.countRows_caseless, hn, t.countRows_caseless]
      rw [finish, finish, hcounted]
      exact (agree_self _).imp fun t _ ht => ht ▸ .refl t
  | columns names =>
    cases o' with
    | count _ => nomatch h
    | columns names' =>
      have hnames : names.map ColumnName.caseless = names'.map ColumnName.caseless :=
        Output.columns.inj h
      have hlabels : (names.map ColumnName.unqualified).map ColumnName.caseless =
          (names'.map ColumnName.unqualified).map ColumnName.caseless := by
        have hmap : ∀ l : List ColumnName, (l.map ColumnName.unqualified).map ColumnName.caseless =
            (l.map ColumnName.caseless).map ColumnName.unqualified := by
          intro l
          rw [List.map_map, List.map_map]
          rfl
        rw [hmap, hnames, hmap]
      have hreordered : joined.reorderColumns names true = joined.reorderColumns names' true :=
        calc joined.reorderColumns names true
            = joined.reorderColumns (names.map ColumnName.caseless) true :=
              (joined.reorderColumns_caseless names true).symm
          _ = joined.reorderColumns (names'.map ColumnName.caseless) true := by rw [hnames]
          _ = joined.reorderColumns names' true := joined.reorderColumns_caseless names' true
      rw [finish, finish, hreordered]
      refine agree_bind fun reordered => .ok ?_
      exact (reordered.sameButLabels_labelColumns hlabels).sampled sample config.seed

/-! ### The plan -/

/-- Conditions that differ in their case are refused alike or end up in the same stages. -/
theorem agree_stageConditions (tables : List Table) {cs cs' : List Condition}
    (h : cs.map Condition.caseless = cs'.map Condition.caseless) :
    Agree (fun a b => a.map (List.map Condition.caseless) = b.map (List.map Condition.caseless))
      (stageConditions tables cs) (stageConditions tables cs') := by
  refine agree_of_map_eq ?_
  rw [← stageConditions_caseless, h, stageConditions_caseless]

/-- Stages that differ in the case of their conditions only give the same joined table. -/
theorem leftDeep_zip_congr (ordered : List Table)
    {joins joins' filters filters' : List (List Condition)}
    (hjoins : joins.map (List.map Condition.caseless) = joins'.map (List.map Condition.caseless))
    (hfilters : filters.map (List.map Condition.caseless) =
      filters'.map (List.map Condition.caseless)) :
    leftDeep (ordered.zip (joins.zip filters)) = leftDeep (ordered.zip (joins'.zip filters')) := by
  have hstages : ∀ joins filters : List (List Condition),
      (ordered.zip (joins.zip filters)).map caselessStage =
        ordered.zip ((joins.map (List.map Condition.caseless)).zip
          (filters.map (List.map Condition.caseless))) := by
    intro joins filters
    rw [List.zip_map, List.zip_map_right]
    rfl
  rw [← leftDeep_caseless, hstages, hjoins, hfilters, ← hstages, leftDeep_caseless]

variable {config : Config} {w : String → Nat} {s s' : Statement}

/-- Every step of the plan agrees with that of the other plan. -/
theorem agree_table (hweight : ∀ g filters, config.weight g filters = w) (catalog : Catalog)
    (hrelations : s.relations = s'.relations) (hsample : s.sample = s'.sample)
    (hcolumns : s.columns.map Text.lower = s'.columns.map Text.lower)
    (hconditions : s.conditions.map Term.caseless = s'.conditions.map Term.caseless) :
    Agree Table.SameButLabels (table s config catalog) (table s' config catalog) := by
  unfold table
  rw [hrelations, hsample]
  split
  · exact .error rfl
  · refine agree_bind fun _ => agree_bind fun tables => ?_
    -- the select list and the conditions are where the statements differ
    refine (agree_output _ hcolumns).bind fun o o' ho => ?_
    refine (agree_classifyTerms tables hconditions).bind ?_
    rintro ⟨joins, filters⟩ ⟨joins', filters'⟩ ⟨hjoins, hfilters⟩
    dsimp only at hjoins hfilters ⊢
    have hgraph := calc JoinGraph.build s'.relations joins
        = JoinGraph.build s'.relations (joins.map Comparison.caseless) :=
          (JoinGraph.build_caseless _ _).symm
      _ = JoinGraph.build s'.relations (joins'.map Comparison.caseless) := by rw [hjoins]
      _ = JoinGraph.build s'.relations joins' := JoinGraph.build_caseless _ _
    have hatoms : (joins.map Formula.atom).map Condition.caseless =
        (joins'.map Formula.atom).map Condition.caseless := by
      rw [Condition.map_caseless_atom, hjoins, Condition.map_caseless_atom]
    rw [hgraph]
    -- both plans visit one graph by the same weights, so they join in the same order
    refine agree_bind fun graph => ?_
    rw [hweight, hweight]
    refine agree_bind fun order => ?_
    refine (agree_stageConditions _ hatoms).bind fun js js' hjs => ?_
    refine (agree_stageConditions _ hfilters).bind fun fs fs' hfs => ?_
    rw [leftDeep_zip_congr _ hjs hfs]
    exact agree_bind fun joined => agree_finish config s'.sample joined ho

/-- Two statements that differ in the case of their select items, of the column names in their
conditions and of their operators fail with one kind of error, or have plans that read the same
source, take the same steps and print identical columns, under headers that differ in their case
only. The weights must not depend on the filters, which show the case. -/
theorem table_of_caseless (s s' : Statement) (config : Config) (catalog : Catalog)
    (hweight : ∀ g filters, config.weight g filters = w) (hrelations : s.relations = s'.relations)
    (hsample : s.sample = s'.sample)
    (hcolumns : s.columns.map Text.lower = s'.columns.map Text.lower)
    (hconditions : s.conditions.map Term.caseless = s'.conditions.map Term.caseless) :
    (∃ e e', table s config catalog = .error e ∧ table s' config catalog = .error e' ∧
      e.code = e'.code ∧ e.caseless = e'.caseless) ∨
    ∃ t t', table s config catalog = .ok t ∧ table s' config catalog = .ok t' ∧
      t.source = t'.source ∧ t.steps = t'.steps ∧
      List.Forall₂ (fun c d => c.identical d = true) t.columns t'.columns ∧
      t.render false = t'.render false ∧
      Text.sameIgnoringCase t.headerLine t'.headerLine = true := by
  have hagree := agree_table hweight catalog hrelations hsample hcolumns hconditions
  -- from here on only how the two runs end matters
  generalize table s config catalog = x at hagree ⊢
  generalize table s' config catalog = y at hagree ⊢
  cases hagree with
  | @error e e' he =>
    have hcode := calc e.code = e.caseless.code := e.code_caseless.symm
      _ = e'.caseless.code := congrArg PlanError.code he
      _ = e'.code := e'.code_caseless
    exact .inl ⟨e, e', rfl, rfl, hcode, he⟩
  | @ok t t' ht =>
    have hrender : t.render false = t'.render false := congrArg ("" ++ ·) ht.pipeline_eq
    have hheader := Text.sameIgnoringCase_iff.2 ht.lower_headerLine
    exact .inr ⟨t, t', rfl, rfl, ht.source, ht.steps, ht.identical, hrender, hheader⟩

/-- Names and operators in mixed case; the quoted word is a literal. -/
def mixedCase : Statement where
  columns := ["U.*", "T.City", "Zip"]
  relations := [⟨"Towns.csv", some "t"⟩, ⟨"u.csv", some "U"⟩]
  conditions := [.comparison "T.Key" "EQ" "u.KEY", .and,
    .group [.comparison "City" "Ne" "\"None\"", .or, .comparison "towns.csv.ZIP" "<" "u.Limit"]]
  sample := some 3

def lowerCase : Statement where
  columns := ["u.*", "t.city", "zip"]
  relations := [⟨"Towns.csv", some "t"⟩, ⟨"u.csv", some "U"⟩]
  conditions := [.comparison "t.key" "eq" "u.key", .and,
    .group [.comparison "city" "ne" "\"None\"", .or, .comparison "towns.csv.zip" "<" "u.limit"]]
  sample := some 3

def mixedCaseCatalog : Catalog :=
  .ofList [("Towns.csv", ["key", "City", "zip"]), ("u.csv", ["Key", "limit"])]

/-- The two headers show the case of their statements. -/
theorem table_mixedCase : ∃ t t', table mixedCase {} mixedCaseCatalog = .ok t ∧
    table lowerCase {} mixedCaseCatalog = .ok t' ∧ t.source = t'.source ∧ t.steps = t'.steps ∧
    List.Forall₂ (fun c d => c.identical d = true) t.columns t'.columns ∧
    t.render false = t'.render false ∧ t.headerLine ≠ t'.headerLine ∧
    Text.sameIgnoringCase t.headerLine t'.headerLine = true := by
  have hnames : caselessOperand "T.Key" = caselessOperand "t.key" ∧
      caselessOperand "u.KEY" = caselessOperand "u.key" ∧
      caselessOperand "City" = caselessOperand "city" ∧
      caselessOperand "towns.csv.ZIP" = caselessOperand "towns.csv.zip" ∧
      caselessOperand "u.Limit" = caselessOperand "u.limit" := by decide +kernel
  have hwords : Text.lower "EQ" = Text.lower "eq" ∧ Text.lower "Ne" = Text.lower "ne" := by
    decide +kernel
  have hterms : mixedCase.conditions.map Term.caseless =
      lowerCase.conditions.map Term.caseless := by
    simp only [mixedCase, lowerCase, List.map_cons, Term.caseless, Term.caselessList, hnames,
      hwords]
  have hheader : (table mixedCase {} mixedCaseCatalog).toOption.map Table.headerLine =
      some "Key,limit,City,Zip" := by decide +kernel
  have hheader' : (table lowerCase {} mixedCaseCatalog).toOption.map Table.headerLine =
      some "Key,limit,city,zip" := by decide +kernel
  obtain ⟨e, e', he, -⟩ | ⟨t, t', ht, ht', hsource, hsteps, hcolumns, hrender, hsame⟩ :=
    table_of_caseless mixedCase lowerCase {} mixedCaseCatalog (fun _ _ => rfl) rfl rfl
      (by decide +kernel) hterms
  · rw [he] at hheader
    cases hheader
  · rw [ht] at hheader
    rw [ht'] at hheader'
    have hne : t.headerLine ≠ t'.headerLine := by
      rw [Option.some.inj hheader, Option.some.inj hheader']
      decide
    exact ⟨t, t', ht, ht', hsource, hsteps, hcolumns, hrender, hne, hsame⟩

end Query

end ShellQuery
