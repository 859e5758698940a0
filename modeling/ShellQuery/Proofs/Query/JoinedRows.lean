import ShellQuery.Proofs.Query.Tuples

/-!
# The rows of a left-deep tree

The rows of a table that is `Built` over some relations are the tuples of their rows that satisfy
the conditions applied so far, each as the values of the leading fields (`Built.exists_yields`). In
such a tuple equated fields have the same value (`Built.agrees`), so every field that stands at a
position has the value found there.

Keys are compared by their texts, and the conditions that they come from by the world. Both agree on
the tuples whose values are equal as texts only (`Tuple.EqualAsTexts`).
-/

namespace ShellQuery

variable {sch : Schema} {w : World} {ps : List Nat} {es : List (Origin × Origin)}
  {leads : List Origin} {cs : List Condition} {t : Table} {τ : Tuple}

/-! ### Values at positions -/

/-- Every field has the value of the position where it stands. -/
def Shows (es : List (Origin × Origin)) (leads : List Origin) (τ : Tuple) (row : Row) : Prop :=
  ∀ q o, Stands es leads q o → row.field q = valueAt τ o

/-- Fields that are equated have the same value in the tuple. -/
def Agrees (es : List (Origin × Origin)) (τ : Tuple) : Prop :=
  ∀ e ∈ es, valueAt τ e.1 = valueAt τ e.2

theorem Agrees.eq_of_equated (h : Agrees es τ) {a b : Origin} (hab : Equated es a b) :
    valueAt τ a = valueAt τ b :=
  (iff_of_eqvGen (P := fun o => valueAt τ a = valueAt τ o)
    (fun x y hxy => by rw [h (x, y) hxy]) hab).1 rfl

/-- A row with the values of the leading fields shows all fields, if equated ones agree. -/
theorem Agrees.shows (h : Agrees es τ) {row : Row}
    (hrow : ∀ q a, leads[q]? = some a → row.field q = valueAt τ a) : Shows es leads τ row := by
  rintro q o ⟨a, ha, hao⟩
  rw [hrow q a ha, h.eq_of_equated hao]

/-- The values of a tuple for the fields of some relations are equal exactly if their texts are. -/
def Tuple.EqualAsTexts (τ : Tuple) (sch : Schema) (w : World) (ps : List Nat) : Prop :=
  ∀ a ∈ sch.origins, a.relation ∈ ps → ∀ b ∈ sch.origins, b.relation ∈ ps →
    w.EqualAsTexts (valueAt τ a) (valueAt τ b)

theorem Tuple.EqualAsTexts.mono (h : τ.EqualAsTexts sch w ps) {ps' : List Nat}
    (hsub : ∀ i ∈ ps', i ∈ ps) : τ.EqualAsTexts sch w ps' :=
  fun a ha hap b hb hbp => h a ha (hsub _ hap) b hb (hsub _ hbp)

/-- A tuple of rows of the relations has values that are equal as texts only, if all fields are. -/
theorem World.EqualAsTextsIn.tuple (h : w.EqualAsTextsIn sch) (hfits : w.Fits sch)
    (hrows : ∀ i ∈ ps, τ i ∈ sch.rowsAt w i) : τ.EqualAsTexts sch w ps :=
  fun _ ha hap _ hb hbp => h _ (Schema.valueAt_mem_fields hfits ha (hrows _ hap)) _
    (Schema.valueAt_mem_fields hfits hb (hrows _ hbp))

/-- The columns of conditions mean one field each. -/
def AllMeanOnly (sch : Schema) (cs : List Condition) : Prop :=
  ∀ c ∈ cs, ∀ n ∈ c.columns, ∃ o, sch.MeansOnly n o

/-- On a row that shows the fields, a rendered test says what the condition says. -/
theorem passes_of_rendered {c : Condition} {test : Awk.RowTest}
    (h : Rendered sch ps es leads c test) (hmeans : ∀ n ∈ c.columns, ∃ o, sch.MeansOnly n o)
    {row : Row} (hrow : Shows es leads τ row) : w.passes row test = sch.satisfies w τ c := by
  obtain ⟨position, hresolve, hposition⟩ := h
  refine Formula.holds_of_mapM hresolve fun a ha b hab => ?_
  obtain ⟨l, r, hl, hr, rfl⟩ := Condition.resolveComparison_ok_iff.1 hab
  -- a literal is compared as it stands, a column by the value of its field
  have hside : ∀ {x : Operand} {y : Awk.FieldOperand},
      (∀ n, x = .column n → n ∈ a.columns) → Condition.resolveOperand
        (fun n => (.ok (position n) : Except PlanError Nat)) x = .ok y →
      World.cell row y = sch.operandCell τ x := by
    intro x y hx hxy
    cases x with
    | literal t =>
      rw [← Except.ok.inj hxy]
      rfl
    | column n =>
      obtain rfl : Awk.FieldOperand.field (position n) = y := Except.ok.inj hxy
      have hn : n ∈ c.columns := Condition.mem_columns_iff.2 ⟨a, ha, hx n rfl⟩
      obtain ⟨o, hpinned, hstands⟩ := hposition n hn
      obtain ⟨o', ho'⟩ := hmeans n hn
      obtain rfl := ho'.eq_of_pinnedIn hpinned
      rw [World.cell, Schema.operandCell, ho'.value_eq, hrow _ _ hstands]
  rw [World.passesField, Schema.satisfiesComparison,
    hside (fun n hn => Comparison.mem_columns_iff.2 (.inl hn)) hl,
    hside (fun n hn => Comparison.mem_columns_iff.2 (.inr hn)) hr]

theorem all_passes_of_rendered {tests : List Awk.RowTest}
    (h : List.Forall₂ (Rendered sch ps es leads) cs tests) (hmeans : AllMeanOnly sch cs)
    {row : Row} (hrow : Shows es leads τ row) :
    tests.all (w.passes row) = cs.all (sch.satisfies w τ) := by
  induction h with
  | nil => rfl
  | cons hc _ ih =>
    rw [List.all_cons, List.all_cons, ih fun c' hc' => hmeans c' (List.mem_cons_of_mem _ hc'),
      passes_of_rendered hc (hmeans _ List.mem_cons_self) hrow]

/-- A keyed equality holds exactly when the two fields have the same value. -/
theorem satisfies_of_equatesIn {ps' : List Nat} {c : Comparison} {e : Origin × Origin}
    (h : EquatesIn sch ps' c e)
    (hmeans : ∀ n ∈ Condition.columns (.atom c), ∃ o, sch.MeansOnly n o)
    (htexts : τ.EqualAsTexts sch w ps) (he : e.1.relation ∈ ps ∧ e.2.relation ∈ ps) :
    sch.satisfies w τ (.atom c) = (valueAt τ e.1 == valueAt τ e.2) := by
  obtain ⟨l, r, rfl, h⟩ := h
  have hvalue : ∀ n o, n = l ∨ n = r → PinnedIn sch ps' n o → sch.value τ n = valueAt τ o := by
    intro n o hn hpinned
    obtain ⟨o', ho'⟩ := hmeans n (by
      simpa [Condition.mem_columns_iff, Comparison.mem_columns_iff, eq_comm] using hn)
    rw [ho'.value_eq, ho'.eq_of_pinnedIn hpinned]
  rw [Schema.satisfies, Formula.holds_atom, Schema.satisfiesComparison, Schema.operandCell,
    Schema.operandCell]
  -- the equality may be written in either direction, and equality of texts is symmetric
  rcases h with ⟨hl, hr⟩ | ⟨hl, hr⟩
  · rw [hvalue l _ (.inl rfl) hl, hvalue r _ (.inr rfl) hr]
    exact htexts _ (Schema.mem_origins_of_means hl.means) he.1 _
      (Schema.mem_origins_of_means hr.means) he.2
  · rw [hvalue l _ (.inl rfl) hl, hvalue r _ (.inr rfl) hr, Bool.beq_comm]
    exact htexts _ (Schema.mem_origins_of_means hl.means) he.2 _
      (Schema.mem_origins_of_means hr.means) he.1

/-- In a tuple that satisfies the conditions of a table, equated fields agree. -/
theorem Built.agrees (h : Built sch ps es leads cs t) (hmeans : AllMeanOnly sch cs)
    (htexts : τ.EqualAsTexts sch w ps) (hτ : cs.all (sch.satisfies w τ) = true) :
    Agrees es τ := by
  intro e he
  obtain ⟨ps', c, hc, hequates, -⟩ := h.exists_equatesIn he
  have hsat := List.all_eq_true.1 hτ _ hc
  rwa [satisfies_of_equatesIn hequates (hmeans _ hc) htexts (h.laid.equalities e he),
    beq_iff_eq] at hsat

/-- The columns of the conditions of a table belong to its relations. -/
theorem Built.exists_means (h : Built sch ps es leads cs t) {c : Condition} (hc : c ∈ cs)
    {n : ColumnName} (hn : n ∈ c.columns) : ∃ o, sch.means n o = true ∧ o.relation ∈ ps := by
  have hrendered : ∀ {ps' : List Nat} {es' leads' cs' tests},
      List.Forall₂ (Rendered sch ps' es' leads') cs' tests → c ∈ cs' →
      ∃ o, sch.means n o = true ∧ o.relation ∈ ps' := by
    intro ps' es' leads' cs' tests hall hmem
    obtain ⟨test, -, position, -, hposition⟩ := exists_right_of_forall₂ hall hmem
    obtain ⟨o, hpinned, -⟩ := hposition n hn
    exact ⟨o, hpinned.means, hpinned.mem⟩
  induction h with
  | first _ _ htests => exact hrendered htests hc
  | join h _ _ _ hbefore hkeys hafter ih =>
    rcases List.mem_append.1 hc with hc | hc
    · -- a condition of the tree so far
      obtain ⟨o, ho, hmem⟩ := ih hc
      exact ⟨o, ho, List.mem_append_left _ hmem⟩
    · rcases List.mem_append.1 hc with hc | hc
      · rcases List.mem_append.1 hc with hc | hc
        · exact hrendered hbefore hc
        · obtain ⟨a, ha, rfl⟩ := List.mem_map.1 hc
          obtain ⟨k, -, hkeyed⟩ := exists_right_of_forall₂ hkeys ha
          obtain ⟨l, r, rfl, hlr⟩ := hkeyed.columns
          have hn : n = l ∨ n = r := by
            simpa [Condition.mem_columns_iff, Comparison.mem_columns_iff, eq_comm] using hn
          rcases hlr with ⟨hl, hr⟩ | ⟨hl, hr⟩
          · rcases hn with rfl | rfl
            · exact ⟨_, hl.means, hl.mem⟩
            · exact ⟨_, hr.means, hr.mem⟩
          · rcases hn with rfl | rfl
            · exact ⟨_, hl.means, hl.mem⟩
            · exact ⟨_, hr.means, hr.mem⟩
      · exact hrendered hafter hc

/-! ### One more relation -/

theorem valueAt_set_of_ne {o : Origin} {i : Nat} (h : o.relation ≠ i) (row : Row) :
    valueAt (τ.set i row) o = valueAt τ o := by
  rw [valueAt, Tuple.set_of_ne τ row h, valueAt]

/-- A row that is put into a tuple shows the fields of its relation. -/
theorem field_of_fieldsOf {i q : Nat} {r : Relation × List String} {a : Origin}
    (h : (Schema.fieldsOf i r)[q]? = some a) (row : Row) :
    row.field q = valueAt (τ.set i row) a := by
  rw [Schema.fieldsOf, List.getElem?_map, Option.map_eq_some_iff] at h
  obtain ⟨k, hk, rfl⟩ := h
  obtain ⟨hlt, rfl⟩ := List.getElem?_eq_some_iff.1 hk
  rw [valueAt, Tuple.set_self, List.getElem_range]

theorem map_fieldsOf {i : Nat} {r : Relation × List String} {row : Row}
    (h : row.length = r.2.length) :
    (Schema.fieldsOf i r).map (valueAt (τ.set i row)) = row := by
  have hvalue : valueAt (τ.set i row) ∘ (fun j => ⟨i, j⟩ : Nat → Origin) = row.field := by
    funext j
    rw [Function.comp_apply, valueAt, Tuple.set_self]
  rw [Schema.fieldsOf, List.map_map, hvalue, ← h]
  exact Row.select_range row

theorem agrees_nil (τ : Tuple) : Agrees [] τ :=
  fun _ he => absurd he List.not_mem_nil

/-- Conditions on the relations of a table do not depend on the row of another one. -/
theorem Built.all_satisfies_set (h : Built sch ps es leads cs t) (hmeans : AllMeanOnly sch cs)
    {i : Nat} (hi : i ∉ ps) (row : Row) :
    cs.all (sch.satisfies w (τ.set i row)) = cs.all (sch.satisfies w τ) := by
  rw [Bool.eq_iff_iff, List.all_eq_true, List.all_eq_true]
  refine forall₂_congr fun c hc => ?_
  rw [Schema.satisfies_congr fun n hn => ?_]
  obtain ⟨o, ho⟩ := hmeans c hc n hn
  obtain ⟨o', ho', hmem⟩ := h.exists_means hc hn
  obtain rfl := (ho o').1 ho'
  have hne : o'.relation ≠ i := fun heq => hi (heq ▸ hmem)
  rw [ho.value_eq, ho.value_eq, valueAt_set_of_ne hne]

/-- Two rows agree on the keys exactly when the equalities of the keys hold. -/
theorem agreeOn_of_keyed {es' : List (Origin × Origin)} {leads' : List Origin}
    {joins : List Comparison} {keys : List ((Nat × Nat) × (Origin × Origin))}
    (h : List.Forall₂ (Keyed sch ps es es' leads leads') joins keys)
    (hmeans : AllMeanOnly sch (joins.map .atom)) (htexts : τ.EqualAsTexts sch w ps) {l r : Row}
    (hl : Shows es leads τ l) (hr : Shows es' leads' τ r) :
    agreeOn (keys.map (·.1)) (l, r) = (joins.map .atom).all (sch.satisfies w τ) := by
  induction h with
  | nil => rfl
  | @cons c k joins keys hk _ ih =>
    have hrest := ih fun c' hc' => hmeans c' (List.mem_cons_of_mem _ hc')
    rw [agreeOn] at hrest ⊢
    rw [List.map_cons, List.all_cons, hrest, List.map_cons, List.all_cons,
      satisfies_of_equatesIn hk.columns (hmeans _ List.mem_cons_self) htexts hk.columns.mem,
      hl _ _ hk.left, hr _ _ hk.right]

/-- Where the equalities of the keys hold, the fields that they equate agree. -/
theorem agrees_of_keyed {es' : List (Origin × Origin)} {leads' : List Origin}
    {joins : List Comparison} {keys : List ((Nat × Nat) × (Origin × Origin))}
    (h : List.Forall₂ (Keyed sch ps es es' leads leads') joins keys)
    (hmeans : AllMeanOnly sch (joins.map .atom)) (htexts : τ.EqualAsTexts sch w ps)
    (hτ : (joins.map .atom).all (sch.satisfies w τ) = true) : Agrees (keys.map (·.2)) τ := by
  intro e he
  obtain ⟨k, hk, rfl⟩ := List.mem_map.1 he
  obtain ⟨c, hc, hkeyed⟩ := exists_left_of_forall₂ h hk
  have hmem := List.mem_map_of_mem (f := Formula.atom) hc
  have hsat := List.all_eq_true.1 hτ _ hmem
  rwa [satisfies_of_equatesIn hkeyed.columns (hmeans _ hmem) htexts hkeyed.columns.mem,
    beq_iff_eq] at hsat

theorem Agrees.append {es' : List (Origin × Origin)} (h : Agrees es τ) (h' : Agrees es' τ) :
    Agrees (es ++ es') τ :=
  fun e he => (List.mem_append.1 he).elim (h e) (h' e)

/-- The values of the picks are those of the leading fields after the join. -/
theorem pickValues_picks {leads' : List Origin} {pairs : List (Nat × Nat)}
    (hwithin : Table.PairsWithin leads.length leads'.length pairs) {l r : Row}
    (hl : ∀ q a, leads[q]? = some a → l.field q = valueAt τ a)
    (hr : ∀ q a, leads'[q]? = some a → r.field q = valueAt τ a) :
    pickValues (Table.picks leads.length leads'.length pairs) (l, r) =
      (joinLeads leads leads' pairs).map (valueAt τ) := by
  -- each picked position stands for the leading field that the joined table has there
  have hleads := Sides.forall₂_joinLeads hwithin
  rw [pickValues]
  generalize Table.picks leads.length leads'.length pairs = picks at hleads
  generalize joinLeads leads leads' pairs = new at hleads
  induction hleads with
  | nil => rfl
  | @cons x a _ _ hx _ ih =>
    rw [List.map_cons, List.map_cons, ih]
    congr 1
    cases x with
    | inl q => exact hl q a hx
    | inr q => exact hr q a hx

/-- Pairing filtered lists is filtering the pairs. -/
theorem product_map_filter {α β γ : Type} (f : α → β) (p : α → Bool) (q : γ → Bool)
    (as : List α) (cs : List γ) :
    (as.filter p).map f ×ˢ cs.filter q =
      ((as ×ˢ cs).filter fun x => p x.1 && q x.2).map fun x => (f x.1, x.2) := by
  -- on the left rows; a row that is filtered out takes all its pairs with it
  induction as with
  | nil => rfl
  | cons a as ih =>
    rw [List.product_cons, List.filter_append, List.map_append, ← ih, List.filter_map,
      List.map_map]
    cases ha : p a with
    | true =>
      have hfilter : ((fun x => p x.1 && q x.2) ∘ fun c => (a, c)) = q :=
        funext fun c => by rw [Function.comp_apply, ha, Bool.true_and]
      rw [List.filter_cons_of_pos ha, List.map_cons, List.product_cons, hfilter]
      rfl
    | false =>
      have hfilter : ((fun x => p x.1 && q x.2) ∘ fun c => (a, c)) = fun _ => false :=
        funext fun c => by rw [Function.comp_apply, ha, Bool.false_and]
      rw [List.filter_cons_of_neg (Bool.not_eq_true _ ▸ ha), hfilter, List.filter_false,
        List.map_nil, List.nil_append]

/-- Filters before the pairing, between it and a map, and after the map are one filter of all
pairs. -/
theorem filter_map_filter_product {α β γ δ : Type} (f : α → β) (g : β × γ → δ) (p : α → Bool)
    (q : γ → Bool) (r : β × γ → Bool) (s : δ → Bool) (as : List α) (cs : List γ) :
    (((((as.filter p).map f ×ˢ cs.filter q).filter r).map g).filter s) =
      ((as ×ˢ cs).filter fun x => s (g (f x.1, x.2)) && r (f x.1, x.2) && (p x.1 && q x.2)).map
        fun x => g (f x.1, x.2) := by
  rw [List.filter_map, List.filter_filter, product_map_filter, List.filter_map, List.map_map,
    List.filter_filter]
  rfl

/-! ### The rows of a tree -/

theorem Opens.yields {d : Char} {i : Nat} {r : Relation × List String} (h : Opens d r t)
    (hr : sch[i]? = some r) (hfits : w.Fits sch) : Yields w t (sch.rowsAt w i) := by
  have hrows : sch.rowsAt w i = Schema.rowsOf w r := by
    rw [Schema.rowsAt, hr]
    rfl
  rw [hrows]
  refine ⟨?_, fun row hrow => ?_, ?_⟩
  · rw [h.eq_mk, Table.rows, Source.rows]
    rfl
  · rw [hfits r (List.mem_of_getElem? hr) row hrow, h.columns.length_eq]
  · rw [h.eq_mk]

/-- A row that is added leaves the values of all other relations as they are. -/
theorem Laid.field_map_set (h : Laid sch ps es leads t) {i : Nat} (hi : i ∉ ps) (τ : Tuple)
    (row : Row) {q : Nat} {a : Origin} (ha : leads[q]? = some a) :
    Row.field (leads.map (valueAt τ)) q = valueAt (τ.set i row) a := by
  have hmem := (h.mem_of_lead a (List.mem_of_getElem? ha)).2
  have hne : a.relation ≠ i := fun heq => hi (heq ▸ hmem)
  rw [Row.field_map ha, valueAt_set_of_ne hne]

/-- The fields of a key in the rows that a tuple and one more row show are equal as texts only. -/
theorem Sides.equalAsTexts {i : Nat} {r : Relation × List String} {left right : Table}
    (h : Sides sch ps [i] es [] leads (Schema.fieldsOf i r) left right) (hi : i ∉ ps) {row : Row}
    (htexts : (τ.set i row).EqualAsTexts sch w (ps ++ [i])) {p : Nat × Nat}
    (hleft : p.1 < leads.length) (hright : p.2 < (Schema.fieldsOf i r).length) :
    w.EqualAsTexts (Row.field (leads.map (valueAt τ)) p.1) (row.field p.2) := by
  have ha := List.getElem?_eq_getElem hleft
  have hb := List.getElem?_eq_getElem hright
  obtain ⟨ha', hap⟩ := h.left.mem_of_lead _ (List.getElem_mem hleft)
  obtain ⟨hb', hbp⟩ := h.right.mem_of_lead _ (List.getElem_mem hright)
  rw [h.left.field_map_set hi τ row ha, field_of_fieldsOf hb row]
  exact htexts _ ha' (List.mem_append_left _ hap) _ hb' (List.mem_append_right _ hbp)

/-- The keys of a join have values that are equal as texts only, if tuples and rows that are paired
have such values. -/
theorem Sides.equalAsTextsAt {i : Nat} {r : Relation × List String} {left right : Table}
    (h : Sides sch ps [i] es [] leads (Schema.fieldsOf i r) left right) (hi : i ∉ ps)
    {pairs : List (Nat × Nat)} {τs : List Tuple} {rows : List Row}
    (hwithin : Table.PairsWithin left.columns.length right.columns.length pairs)
    (htexts : ∀ τ ∈ τs, ∀ row ∈ rows, (τ.set i row).EqualAsTexts sch w (ps ++ [i])) :
    w.EqualAsTextsAt pairs (τs.map fun τ => leads.map (valueAt τ)) rows := by
  intro l hl row hrow p hp
  obtain ⟨τ, hτ, rfl⟩ := List.mem_map.1 hl
  obtain ⟨hleft, hright⟩ := hwithin p hp
  rw [h.left.length_columns] at hleft
  rw [h.right.length_columns] at hright
  exact h.equalAsTexts hi (htexts τ hτ row hrow) hleft hright

/-- What the steps of a join ask of a tuple and a row, the tests after the join being made on the
values of the leading fields, is what the conditions say of both together. -/
theorem Built.all_satisfies_join (h : Built sch ps es leads cs t) {i : Nat} (hi : i ∉ ps)
    {r : Relation × List String} {before after : List Condition} {tests tests' : List Awk.RowTest}
    {joins : List Comparison} {keys : List ((Nat × Nat) × (Origin × Origin))}
    (hbefore : List.Forall₂ (Rendered sch (ps ++ [i]) [] (Schema.fieldsOf i r)) before tests)
    (hkeys : List.Forall₂ (Keyed sch (ps ++ [i]) es [] leads (Schema.fieldsOf i r)) joins keys)
    (hafter : List.Forall₂ (Rendered sch (ps ++ [i]) (es ++ keys.map (·.2))
      (joinLeads leads (Schema.fieldsOf i r) (keys.map (·.1)))) after tests')
    (hmeans : AllMeanOnly sch (cs ++ (before ++ joins.map .atom ++ after))) {τ : Tuple}
    {row : Row} (htexts : (τ.set i row).EqualAsTexts sch w (ps ++ [i])) :
    (tests'.all (w.passes ((joinLeads leads (Schema.fieldsOf i r) (keys.map (·.1))).map
        (valueAt (τ.set i row)))) &&
      agreeOn (keys.map (·.1)) (leads.map (valueAt τ), row) &&
      (cs.all (sch.satisfies w τ) && tests.all (w.passes row))) =
    (cs ++ (before ++ joins.map Formula.atom ++ after)).all (sch.satisfies w (τ.set i row)) := by
  have hmeans₀ : AllMeanOnly sch cs := fun c hc => hmeans c (List.mem_append_left _ hc)
  have hmeans₁ : AllMeanOnly sch before := fun c hc => hmeans c (by simp [hc])
  have hmeans₂ : AllMeanOnly sch (joins.map .atom) :=
    fun c hc => hmeans c (List.mem_append_right _ (List.mem_append_left _
      (List.mem_append_right _ hc)))
  have hmeans₃ : AllMeanOnly sch after := fun c hc => hmeans c (by simp [hc])
  have hright : ∀ (q : Nat) a, (Schema.fieldsOf i r)[q]? = some a →
      row.field q = valueAt (τ.set i row) a := fun q a ha => field_of_fieldsOf ha row
  have hbefore' : tests.all (w.passes row) = before.all (sch.satisfies w (τ.set i row)) :=
    all_passes_of_rendered hbefore hmeans₁ ((agrees_nil _).shows hright)
  -- the equalities joined on so far hold only where the conditions so far do
  have hagrees : cs.all (sch.satisfies w τ) = true → Agrees es (τ.set i row) := fun hτ =>
    h.agrees hmeans₀ (htexts.mono fun _ hj => List.mem_append_left _ hj)
      ((h.all_satisfies_set hmeans₀ hi row).trans hτ)
  have hjoins : cs.all (sch.satisfies w τ) = true →
      agreeOn (keys.map (·.1)) (leads.map (valueAt τ), row) =
        (joins.map .atom).all (sch.satisfies w (τ.set i row)) := fun hτ =>
    agreeOn_of_keyed hkeys hmeans₂ htexts
      ((hagrees hτ).shows fun q a => h.laid.field_map_set hi τ row) ((agrees_nil _).shows hright)
  have hafter' : cs.all (sch.satisfies w τ) = true →
      (joins.map .atom).all (sch.satisfies w (τ.set i row)) = true →
      tests'.all (w.passes ((joinLeads leads (Schema.fieldsOf i r) (keys.map (·.1))).map
        (valueAt (τ.set i row)))) = after.all (sch.satisfies w (τ.set i row)) := fun hτ hj =>
    all_passes_of_rendered hafter hmeans₃
      (((hagrees hτ).append (agrees_of_keyed hkeys hmeans₂ htexts hj)).shows
        fun q a ha => Row.field_map ha)
  rw [Bool.eq_iff_iff]
  simp only [List.all_append, Bool.and_eq_true, h.all_satisfies_set hmeans₀ hi row, hbefore']
  constructor
  · rintro ⟨⟨hT, hJ⟩, hτ, hB⟩
    rw [hjoins hτ] at hJ
    rw [hafter' hτ hJ] at hT
    exact ⟨hτ, ⟨hB, hJ⟩, hT⟩
  · rintro ⟨hτ, ⟨hB, hJ⟩, hT⟩
    rw [hafter' hτ hJ, hjoins hτ]
    exact ⟨⟨hT, hJ⟩, hτ, hB⟩

/-- The rows of a table are the tuples that satisfy its conditions, each as the values of the
leading fields. -/
theorem Built.exists_yields (h : Built sch ps es leads cs t) (hmeans : AllMeanOnly sch cs)
    (hfits : w.Fits sch) (htexts : w.EqualAsTextsIn sch) : ∃ rows, Yields w t rows ∧
      rows.Perm (((combos (sch.rowsAt w) ps).filter fun τ => cs.all (sch.satisfies w τ)).map
        fun τ => leads.map (valueAt τ)) := by
  have hwidth : ∀ {i : Nat} {r : Relation × List String} {row : Row}, sch[i]? = some r →
      row ∈ sch.rowsAt w i → row.length = r.2.length := by
    intro i r row hr hrow
    rw [Schema.rowsAt, hr] at hrow
    exact hfits r (List.mem_of_getElem? hr) row hrow
  induction h with
  | @first d i r t cs tests hr ht htests =>
    refine ⟨_, (ht.yields hr hfits).filterBy tests, .of_eq ?_⟩
    rw [combos_singleton, List.filter_map, List.map_map]
    rw [List.map_congr_left (g := id), List.map_id]
    · refine List.filter_congr fun row _ => ?_
      exact all_passes_of_rendered htests hmeans
        ((agrees_nil _).shows fun q a ha => field_of_fieldsOf ha row)
    · exact fun row hrow => map_fieldsOf (hwidth hr (List.mem_filter.1 hrow).1)
  | @join ps es leads cs result d i r t before after tests tests' joins key keys name h hi hr ht
      hbefore hkeys hafter ih =>
    obtain ⟨ls, hls, hperm⟩ := ih fun c hc => hmeans c (List.mem_append_left _ hc)
    have hrs := (ht.yields hr hfits).filterBy tests
    have hsides := sides_of_laid h.laid hi hr ht tests
    have hwithin := hsides.pairsWithin (keysMatch_of_keyed hkeys)
    have htuple : ∀ τ ∈ combos (sch.rowsAt w) ps, ∀ row ∈ sch.rowsAt w i,
        (τ.set i row).EqualAsTexts sch w (ps ++ [i]) := fun τ hτ row hrow =>
      htexts.tuple hfits fun j hj => mem_rowsAt_of_mem_combos (set_mem_combos hτ hrow) hj
    have hkeyTexts : w.EqualAsTextsAt (keys.map (·.1)) ls
        ((sch.rowsAt w i).filter fun row => tests.all (w.passes row)) := fun l hl =>
      hsides.equalAsTextsAt hi (fun p hp => hwithin p (List.mem_cons_of_mem _ hp))
        (fun τ hτ row hrow => htuple τ (List.mem_filter.1 hτ).1 row (List.mem_filter.1 hrow).1)
        l (hperm.mem_iff.1 hl)
    obtain ⟨rows, hrows, hperm'⟩ := hls.joinTable hrs hwithin hkeyTexts name
    rw [hsides.left.length_columns, hsides.right.length_columns] at hwithin hperm'
    -- what the join prints of a tuple and a row are values of both together
    have hvalues : ∀ (τ : Tuple) (row : Row), pickValues (Table.picks leads.length
        (Schema.fieldsOf i r).length (key.1 :: keys.map (·.1))) (leads.map (valueAt τ), row) =
          (joinLeads leads (Schema.fieldsOf i r) ((key :: keys).map (·.1))).map
            (valueAt (τ.set i row)) := fun τ row =>
      pickValues_picks hwithin (fun q a => h.laid.field_map_set hi τ row)
        fun q a ha => field_of_fieldsOf ha row
    refine ⟨_, hrows.filterBy tests', ?_⟩
    refine ((hperm'.trans (((hperm.product (.refl _)).filter _).map _)).filter _).trans (.of_eq ?_)
    -- both sides are made of pairs of a tuple and a row
    refine (filter_map_filter_product _ _ _ _ _ _ _ _).trans ?_
    rw [combos_append, List.filter_map, List.map_map]
    refine Eq.trans (congrArg _ (List.filter_congr (q := (fun τ =>
      (cs ++ (before ++ joins.map Formula.atom ++ after)).all (sch.satisfies w τ)) ∘
        fun x => x.1.set i x.2) ?_)) (List.map_congr_left ?_)
    · rintro ⟨τ, row⟩ hx
      obtain ⟨hτ, hrow⟩ := List.mem_product.1 hx
      simp only [Function.comp_apply, hvalues]
      exact h.all_satisfies_join hi hbefore hkeys hafter hmeans (htuple τ hτ row hrow)
    · rintro ⟨τ, row⟩ -
      exact hvalues τ row

end ShellQuery
