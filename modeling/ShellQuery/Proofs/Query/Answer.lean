import ShellQuery.Proofs.Query.Acceptance
import ShellQuery.Proofs.Query.JoinedRows

/-!
# What a plan computes

`Schema.answer` is what a statement asks for: of all tuples of one row per relation those that
satisfy the condition, each as the values of the printed names, or their number. The rows of a plan
are these, in some order, whatever the order in which its relations are joined and the filters are
applied (`rows_perm_answer`). It holds of statements that do not sample, where no name of a relation
is the path of another one, every row has as many fields as its header, and two fields are equal
only if their texts are.
-/

namespace ShellQuery

/-! ### What a statement asks for -/

namespace Schema

/-- The tuples that satisfy a condition, if there is one. -/
def kept (sch : Schema) (w : World) (condition : Option Condition) : List Tuple :=
  (sch.tuples w).filter fun τ => condition.all (sch.satisfies w τ)

/-- The rows that a statement asks for. -/
def answer (sch : Schema) (w : World) (condition : Option Condition) : Output → List Row
  | .columns names => (sch.kept w condition).map fun τ => names.map (sch.value τ)
  | .count none => [[toString (sch.kept w condition).length]]
  | .count (some n) =>
    [[toString ((sch.kept w condition).filter fun τ => sch.value τ n != "").length]]

end Schema

/-- The columns of a table are labelled by the names it prints, or as a count. -/
def Labelled (t : Table) : Output → Prop
  | .columns names => t.columns.map (·.label) = names.map ColumnName.unqualified
  | .count _ => t.columns.map Column.header = ["count"]

/-! ### The rows that are printed -/

namespace Table

variable {w : World} {t t' : Table} {rows : List Row}

theorem rows_congr (hsource : t'.source = t.source) (hsteps : t'.steps = t.steps) :
    t'.rows w = t.rows w := by
  obtain ⟨_, _, source, _, steps, _⟩ := t
  obtain ⟨_, _, source', _, steps', _⟩ := t'
  obtain rfl : source' = source := hsource
  obtain rfl : steps' = steps := hsteps
  rw [rows, rows]

theorem map_label_labelWith {columns : List Column} {labels : List ColumnName}
    (h : columns.length = labels.length) : (labelWith columns labels).map (·.label) = labels := by
  induction columns generalizing labels with
  | nil =>
    rw [List.length_eq_zero_iff.1 h.symm]
    rfl
  | cons c cs ih =>
    obtain ⟨l, ls, rfl⟩ := List.exists_cons_of_length_eq_add_one h.symm
    rw [labelWith, List.map_cons, ih (Nat.succ.inj h)]
    rfl

/-- Moving the named columns to the front and dropping the others selects their positions. -/
theorem reorderColumns_ok {names : List ColumnName} (h : Yields w t rows)
    (hok : t.reorderColumns names true = .ok t') : ∃ positions,
      List.Forall₂ (fun n q => t.tryResolve n = .ok (some q)) names positions ∧
      t'.rows w = some (rows.map (Row.select positions)) ∧ t'.columns.length = names.length := by
  rw [reorderColumns, bind_ok_iff] at hok
  obtain ⟨positions, hpositions, hok⟩ := hok
  have hresolved := (mapM_ok_iff.1 hpositions).imp fun n q hq => resolve_eq_ok_iff.1 hq
  refine ⟨positions, hresolved, ?_⟩
  simp only [↓reduceIte] at hok
  rw [pure_ok_iff] at hok
  by_cases hall : positions = List.range t.columns.length
  · -- nothing is appended, and selecting all positions would change nothing
    rw [if_pos (beq_iff_eq.2 hall)] at hok
    subst hok
    refine ⟨h.rows_eq.trans (congrArg some ?_), ?_⟩
    · rw [List.map_congr_left (g := id), List.map_id]
      intro row hrow
      rw [hall, ← h.width row hrow, Row.select_range]
      rfl
    · rw [hresolved.length_eq, hall, List.length_range]
  · rw [if_neg (fun hbeq => hall (beq_iff_eq.1 hbeq))] at hok
    subst hok
    refine ⟨rows_append h.rows_eq _ _ _, ?_⟩
    show (t.columnsAt positions).length = names.length
    have hfound : ∀ q ∈ positions, (t.columns[q]?).isSome = true := by
      intro q hq
      obtain ⟨n, -, hn⟩ := exists_left_of_forall₂ hresolved hq
      obtain ⟨c, hc, -⟩ := tryResolve_eq_some_iff.1 hn
      rw [hc]
      rfl
    rw [columnsAt, List.length_filterMap_eq_countP, List.countP_eq_length.2 hfound,
      hresolved.length_eq]

end Table

/-- Where a name is found, a row shows the value that the name has. -/
theorem Laid.field_eq_value {sch : Schema} {ps : List Nat} {es : List (Origin × Origin)}
    {leads : List Origin} {t : Table} {τ : Tuple} {n : ColumnName} {q : Nat}
    (h : Laid sch ps es leads t) (hsound : sch.Sound) (hapart : PathsApart (sch.map (·.1)))
    (hps : ∀ o, sch.means n o = true → o.relation ∈ ps) (hagrees : Agrees es τ)
    (hq : t.tryResolve n = .ok (some q)) :
    Row.field (leads.map (valueAt τ)) q = sch.value τ n := by
  obtain ⟨a, o', ha, -, ho', -⟩ := h.exists_of_tryResolve hq
  obtain ⟨o, ho⟩ := Option.isSome_iff_exists.1
    (List.find?_isSome.2 ⟨o', Schema.mem_origins_of_means ho', ho'⟩)
  have hmeans := List.find?_some ho
  have hequated := h.equated_of_tryResolve hsound hapart hq ha hmeans (hps o hmeans)
  rw [Row.field_map ha, hagrees.eq_of_equated hequated, Schema.value, Schema.origin?, ho]
  rfl

namespace Query

variable {s : Statement} {config : Config} {catalog : Catalog} {w : World}

/-- The pinned conjuncts hold together exactly when the condition does. -/
theorem Ordered.all_satisfies_pinned (p : Ordered s config catalog)
    (hapart : PathsApart s.relations) (τ : Tuple) :
    p.pinned.all ((s.schema config catalog).satisfies w τ) =
      p.condition.all ((s.schema config catalog).satisfies w τ) := by
  have hapart' : PathsApart ((s.schema config catalog).map (·.1)) :=
    (s.map_fst_schema config catalog).symm ▸ hapart
  -- pinning keeps what a conjunct says, so the conjuncts may be taken as they were
  have hconjuncts : p.pinned.all ((s.schema config catalog).satisfies w τ) =
      (Condition.conjunctsOf p.condition).all ((s.schema config catalog).satisfies w τ) := by
    have hpinned := p.pinned_ok
    generalize Condition.conjunctsOf p.condition = cs at hpinned
    generalize p.pinned = cs' at hpinned
    induction hpinned with
    | nil => rfl
    | cons hc _ ih =>
      rw [List.all_cons, List.all_cons, ih,
        p.opened.satisfies_of_pinned p.sound hapart' hc w τ]
  rw [hconjuncts, Condition.conjunctsOf]
  cases p.condition with
  | none => rfl
  | some c => exact Schema.all_satisfies_cnf c

/-- The rows of the joined table are the tuples that the statement keeps. -/
theorem Planned.exists_rows (p : Planned s config catalog) (hapart : PathsApart s.relations)
    (hfits : w.Fits (s.schema config catalog)) (htexts : w.EqualAsTextsIn (s.schema config catalog)) :
    ∃ es leads rows,
      Laid (s.schema config catalog) p.places es leads p.joined ∧ Yields w p.joined rows ∧
      rows.Perm (((s.schema config catalog).kept w p.condition).map
        fun τ => leads.map (valueAt τ)) ∧
      ∀ τ ∈ (s.schema config catalog).kept w p.condition, Agrees es τ := by
  obtain ⟨es, leads, cs, hbuilt, hcs, -⟩ := p.exists_built
  have hmeans : AllMeanOnly (s.schema config catalog) cs := by
    intro c hc n hn
    obtain ⟨o, ho⟩ := p.opened.pinnedTo_of_mem p.sound
      ((s.map_fst_schema config catalog).symm ▸ hapart) p.pinned_ok (hcs.mem_iff.1 hc) hn
    exact ⟨o, ho.meansOnly⟩
  -- what was applied are the pinned conjuncts, in some order
  have hall : ∀ τ, cs.all ((s.schema config catalog).satisfies w τ) =
      p.condition.all ((s.schema config catalog).satisfies w τ) := by
    intro τ
    rw [← p.all_satisfies_pinned hapart, Bool.eq_iff_iff, List.all_eq_true, List.all_eq_true]
    exact forall_congr' fun c => by rw [hcs.mem_iff]
  obtain ⟨rows, hrows, hperm⟩ := hbuilt.exists_yields hmeans hfits htexts
  simp only [hall] at hperm
  -- the order of the joins does not matter to the tuples
  have htuples := (combos_perm p.places_perm).trans
    ((s.schema config catalog).tuples_perm_combos w).symm
  refine ⟨es, leads, rows, hbuilt.laid, hrows, hperm.trans ((htuples.filter _).map _), ?_⟩
  intro τ hτ
  obtain ⟨hmem, hτ⟩ := List.mem_filter.1 hτ
  have htuple : τ.EqualAsTexts (s.schema config catalog) w p.places :=
    htexts.tuple hfits fun i hi => mem_rowsAt_of_mem_combos (htuples.mem_iff.2 hmem) hi
  exact hbuilt.agrees hmeans htuple ((hall τ).trans hτ)

/-- Bringing the joined rows into the form that is printed gives the answer. -/
theorem exists_rows_of_finish {sch : Schema} {condition : Option Condition} {joined t : Table}
    {rows : List Row} {leads : List Origin} {out : Output} (h : Yields w joined rows)
    (hperm : rows.Perm ((sch.kept w condition).map fun τ => leads.map (valueAt τ)))
    (hvalue : ∀ {n : ColumnName} {q : Nat}, joined.tryResolve n = .ok (some q) →
      ∀ τ ∈ sch.kept w condition, Row.field (leads.map (valueAt τ)) q = sch.value τ n)
    (hok : finish config none joined out = .ok t) :
    ∃ printed, t.rows w = some printed ∧ printed.Perm (sch.answer w condition out) ∧
      Labelled t out := by
  cases out with
  | columns names =>
    rw [finish, bind_ok_iff] at hok
    obtain ⟨reordered, hreordered, hok⟩ := hok
    obtain rfl := pure_ok_iff.1 hok
    obtain ⟨positions, hpositions, hrows, hlength⟩ := Table.reorderColumns_ok h hreordered
    -- the values at the positions of the names are those of the names
    have hselect : ∀ τ ∈ sch.kept w condition,
        Row.select positions (leads.map (valueAt τ)) = names.map (sch.value τ) := by
      intro τ hτ
      rw [Row.select]
      clear hreordered hrows hlength hok
      induction hpositions with
      | nil => rfl
      | cons hq _ ih => rw [List.map_cons, List.map_cons, ih, hvalue hq τ hτ]
    refine ⟨rows.map (Row.select positions), ?_, (hperm.map _).trans (.of_eq ?_), ?_⟩
    · rw [← hrows]
      exact Table.rows_congr rfl rfl
    · rw [List.map_map, Schema.answer]
      exact List.map_congr_left hselect
    · exact Table.map_label_labelWith (by rw [hlength, List.length_map])
  | count name =>
    rw [finish] at hok
    cases name with
    | none =>
      obtain rfl := Except.ok.inj hok
      refine ⟨_, rows_append h.rows_eq _ _ _, .of_eq ?_, rfl⟩
      rw [World.run, Schema.answer, hperm.length_eq, List.length_map]
    | some n =>
      obtain ⟨q, hq, rfl⟩ := map_ok_iff.1 hok
      refine ⟨_, rows_append h.rows_eq _ _ _, .of_eq ?_, rfl⟩
      have hfilter : (sch.kept w condition).filter
          ((fun row : Row => row.field q != "") ∘ fun τ => leads.map (valueAt τ)) =
          (sch.kept w condition).filter fun τ => sch.value τ n != "" := by
        refine List.filter_congr fun τ hτ => ?_
        rw [Function.comp_apply, hvalue (Table.resolve_eq_ok_iff.1 hq) τ hτ]
      rw [World.run, Schema.answer, (hperm.filter _).length_eq, List.filter_map, List.length_map,
        hfilter]

/-- The rows of a plan are those that the statement asks for, and its columns are labelled by the
names that it prints. This needs a world where two fields are equal only as texts: a plan joins on
equal texts what the statement compares as the world does. -/
theorem rows_perm_answer {t : Table} (hsample : s.sample = none) (hapart : PathsApart s.relations)
    (hfits : w.Fits (s.schema config catalog))
    (htexts : w.EqualAsTextsIn (s.schema config catalog)) (h : table s config catalog = .ok t) :
    ∃ items condition rows, s.columns.mapM SelectItem.ofText = .ok items ∧
      Condition.ofTerms s.conditions = .ok condition ∧ t.rows w = some rows ∧
      rows.Perm ((s.schema config catalog).answer w condition
        ((s.schema config catalog).outputOf items)) ∧
      Labelled t ((s.schema config catalog).outputOf items) := by
  obtain ⟨p, hfinish⟩ := table_ok_iff.1 h
  obtain ⟨items, hjoinable, houtput⟩ := p.joinable hapart
  obtain ⟨es, leads, rows, hlaid, hyields, hperm, hagrees⟩ := p.exists_rows hapart hfits htexts
  rw [hsample, ← houtput] at hfinish
  -- the joined rows are those of the tuples; the end of the plan prints and counts them
  obtain ⟨printed, hprinted, hanswer, hlabels⟩ := exists_rows_of_finish hyields hperm
    (fun hq τ hτ => hlaid.field_eq_value p.sound ((s.map_fst_schema config catalog).symm ▸ hapart)
      (fun o ho => p.mem_places_of_means ho) (hagrees τ hτ) hq) hfinish
  exact ⟨items, p.condition, printed, hjoinable.items_ok, hjoinable.condition_ok, hprinted, hanswer,
    hlabels⟩

/-- A world of some files, in which values compare as texts. -/
def textWorld (files : List (String × List Row)) : World where
  lines path := ((files.find? (·.1 == path)).map (·.2)).getD []
  output _ := []
  compare
    | .eq, a, b => a.text == b.text
    | .ne, a, b => a.text != b.text
    | .lt, a, b => a.text < b.text
    | .le, a, b => a.text ≤ b.text
    | .gt, a, b => b.text < a.text
    | .ge, a, b => b.text ≤ a.text
  verbatim _ _ := true
  sample size _ rows := rows.take size

def sharedKeysWorld : World :=
  textWorld [("a.csv", [["p", "m", "k"], ["5", "x", "1"], ["7", "y", "2"], ["3", "x", "1"]]),
    ("b.csv", [["k", "n", "m"], ["1", "4", "x"], ["2", "1", "y"], ["1", "6", "y"]])]

theorem rows_sharedKeys : sharedKeys.sample = none ∧ PathsApart sharedKeys.relations ∧
    sharedKeysWorld.Fits (sharedKeys.schema {} sharedKeysCatalog) ∧
    sharedKeysWorld.EqualAsTextsIn (sharedKeys.schema {} sharedKeysCatalog) ∧
    ∃ t, table sharedKeys {} sharedKeysCatalog = .ok t ∧
      ∃ items condition rows, sharedKeys.columns.mapM SelectItem.ofText = .ok items ∧
        Condition.ofTerms sharedKeys.conditions = .ok condition ∧
        t.rows sharedKeysWorld = some rows ∧
        rows.Perm ((sharedKeys.schema {} sharedKeysCatalog).answer sharedKeysWorld condition
          ((sharedKeys.schema {} sharedKeysCatalog).outputOf items)) ∧
        Labelled t ((sharedKeys.schema {} sharedKeysCatalog).outputOf items) := by
  have hapart : PathsApart sharedKeys.relations := by decide
  have hfits : sharedKeysWorld.Fits (sharedKeys.schema {} sharedKeysCatalog) := by
    decide +kernel
  obtain ⟨t, ht⟩ := isOk_iff.1 (show (table sharedKeys {} sharedKeysCatalog).isOk = true by
    decide +kernel)
  have htexts : sharedKeysWorld.EqualAsTextsIn (sharedKeys.schema {} sharedKeysCatalog) :=
    fun _ _ _ _ => rfl
  exact ⟨rfl, hapart, hfits, htexts, t, ht, rows_perm_answer rfl hapart hfits htexts ht⟩

end Query

end ShellQuery
