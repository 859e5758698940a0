import ShellQuery.Proofs.Query.Location

/-!
# The select list

The names that a select list prints are read off the schema (`Schema.printed`), and what a statement
prints is determined by them (`Schema.outputOf`). The planner finds exactly that
(`Opened.output_ok_iff`): it refuses a select list if an item cannot be read, if a count does not
stand alone, or if the qualifier of a wildcard is no relation.
-/

namespace ShellQuery

/-! ### What a select list prints -/

namespace Schema

/-- The header fields of a relation as column names under the name of the relation. -/
def headerNames (r : Relation × List String) : List ColumnName :=
  r.2.filterMap fun f => (ColumnName.make (Text.trim f) [r.1.name]).toOption

/-- Whether the qualifier of a wildcard means a relation: by name or path, whatever the case. -/
def isCalled (qualifier : String) (r : Relation) : Bool :=
  Text.sameIgnoringCase r.name qualifier || Text.sameIgnoringCase r.path qualifier

/-- The names that a select item prints; a count prints what it counts. -/
def expand (sch : Schema) : SelectItem → List ColumnName
  | .wildcard => sch.flatMap headerNames
  | .wildcardOf qualifier => ((sch.find? (isCalled qualifier ·.1)).map headerNames).getD []
  | .column name => [name]
  | .count name => name.toList

/-- The names that some select items print; no items print all columns. -/
def printed (sch : Schema) (items : List SelectItem) : List ColumnName :=
  (if items.isEmpty then [.wildcard] else items).flatMap sch.expand

/-- What some select items print. -/
def outputOf (sch : Schema) : List SelectItem → Output
  | [.count name] => .count name
  | items => .columns (sch.printed items)

theorem outputOf_eq_columns (sch : Schema) {items : List SelectItem}
    (h : ∀ n, items ≠ [.count n]) : sch.outputOf items = .columns (sch.printed items) := by
  unfold outputOf
  split
  · next n => exact absurd rfl (h n)
  · rfl

end Schema

/-- The select items can stand together: a count stands alone, and every wildcard with a qualifier
means one of the relations. -/
structure Printable (relations : List Relation) (items : List SelectItem) : Prop where
  count_alone : ∀ n, .count n ∈ items → items = [.count n]
  wildcards : ∀ q, .wildcardOf q ∈ items → ∃ r ∈ relations, Schema.isCalled q r = true

/-! ### What the planner prints -/

namespace Opened

variable {sch : Schema} {tables : List Table}

/-- The planner takes the names of a relation's columns from its opened table. -/
theorem wildcardNames_eq {i : Nat} {t : Table} {r : Relation × List String}
    (h : OpenedAt sch i t) (hr : sch[i]? = some r) :
    Query.wildcardNames t = Schema.headerNames r := by
  obtain ⟨d, r', hr', hopens⟩ := h.exists_opens
  obtain rfl : r = r' := Option.some.inj (hr.symm.trans hr')
  rw [Query.wildcardNames, Schema.headerNames, hopens.name]
  have hcolumns := hopens.columns
  generalize t.columns = cs at hcolumns
  generalize r.2 = fs at hcolumns
  -- along the header, field by field with its column
  induction hcolumns with
  | nil => rfl
  | @cons f c fs cs hc _ ih =>
    have hmake : ColumnName.make (Text.trim f) [r.1.name] = .ok (c.primary.within r.1.name) :=
      ColumnName.make_ok_iff.2 ⟨hc.spelling, rfl⟩
    rw [List.map_cons, ih, List.filterMap_cons_some (by rw [hmake]; rfl)]

/-- A relation and its opened table, as the planner pairs them, stand for a relation of the
schema. -/
def StandsFor (r : Relation × List String) (x : Relation × Table) : Prop :=
  x.1 = r.1 ∧ Query.wildcardNames x.2 = Schema.headerNames r

theorem forall₂_zip (h : Opened sch (List.range sch.length) tables) :
    List.Forall₂ StandsFor sch ((sch.map (·.1)).zip tables) := by
  have hlength : tables.length = sch.length := by rw [← h.length_eq, List.length_range]
  refine List.forall₂_iff_get.2 ⟨by simp [hlength], fun i hi hi' => ?_⟩
  have hi₂ : i < tables.length := hlength ▸ hi
  have hopened := (List.forall₂_iff_get.1 h).2 i (by simpa using hi) hi₂
  rw [List.get_eq_getElem, List.getElem_range] at hopened
  simp only [List.get_eq_getElem, List.getElem_zip, List.getElem_map]
  exact ⟨rfl, wildcardNames_eq hopened (List.getElem?_eq_getElem hi)⟩

theorem flatMap_wildcardNames {xs : List (Relation × Table)} (h : List.Forall₂ StandsFor sch xs) :
    (xs.flatMap fun x => Query.wildcardNames x.2) = sch.flatMap Schema.headerNames := by
  induction h with
  | nil => rfl
  | cons hx _ ih => rw [List.flatMap_cons, List.flatMap_cons, ih, hx.2]

theorem wildcardTable_map {xs : List (Relation × Table)} (h : List.Forall₂ StandsFor sch xs)
    (q : String) :
    (Query.wildcardTable xs q).map Query.wildcardNames =
      match sch.find? (Schema.isCalled q ·.1) with
      | some r => .ok (Schema.headerNames r)
      | none => .error (.unknownRelation q) := by
  unfold Query.wildcardTable
  dsimp only
  induction h with
  | nil => rfl
  | @cons r x _ _ hx _ ih =>
    rw [List.find?_cons, List.find?_cons, hx.1, Schema.isCalled]
    cases Text.sameIgnoringCase r.1.name q || Text.sameIgnoringCase r.1.path q with
    | true => exact congrArg Except.ok hx.2
    | false => exact ih

/-- A select item is expanded as the schema says, unless it is a wildcard of no relation. -/
theorem expandItem_ok_iff (h : Opened sch (List.range sch.length) tables) {item : SelectItem}
    (hitem : item.isCount = false) {names : List ColumnName} :
    Query.expandItem ((sch.map (·.1)).zip tables) item = .ok names ↔
      (∀ q, item = .wildcardOf q → ∃ r ∈ sch.map (·.1), Schema.isCalled q r = true) ∧
      sch.expand item = names := by
  have hzip := h.forall₂_zip
  cases item with
  | wildcard =>
    rw [Query.expandItem, flatMap_wildcardNames hzip, Except.ok.injEq]
    simp [Schema.expand]
  | wildcardOf q =>
    rw [Query.expandItem, wildcardTable_map hzip, Schema.expand]
    cases hfind : sch.find? (Schema.isCalled q ·.1) with
    | none =>
      -- the wildcard of no relation is refused
      simp only [reduceCtorEq, false_iff]
      rintro ⟨hknown, -⟩
      obtain ⟨r, hr, hq⟩ := hknown q rfl
      obtain ⟨x, hx, rfl⟩ := List.mem_map.1 hr
      exact List.find?_eq_none.1 hfind x hx hq
    | some r =>
      simp only [Except.ok.injEq, Option.map_some, Option.getD_some]
      refine ⟨fun hnames => ⟨fun q' hq' => ?_, hnames⟩, fun hnames => hnames.2⟩
      have hcalled := List.find?_some hfind
      rw [← SelectItem.wildcardOf.inj hq']
      exact ⟨r.1, List.mem_map_of_mem (List.mem_of_find?_eq_some hfind), hcalled⟩
  | column n => simp [Query.expandItem, Schema.expand]
  | count n => simp [SelectItem.isCount] at hitem

/-- Select items without a count are expanded one by one. -/
theorem forall₂_expandItem_iff (h : Opened sch (List.range sch.length) tables)
    {items : List SelectItem} (hitems : ∀ item ∈ items, item.isCount = false)
    {names : List (List ColumnName)} :
    List.Forall₂ (fun item names =>
        Query.expandItem ((sch.map (·.1)).zip tables) item = .ok names) items names ↔
      (∀ q, .wildcardOf q ∈ items → ∃ r ∈ sch.map (·.1), Schema.isCalled q r = true) ∧
      items.map sch.expand = names := by
  induction items generalizing names with
  | nil =>
    rw [List.forall₂_nil_left_iff, List.map_nil, eq_comm]
    exact ⟨fun hn => ⟨fun q hq => absurd hq List.not_mem_nil, hn⟩, fun hn => hn.2⟩
  | cons item items ih =>
    rw [List.forall₂_cons_left_iff]
    have hitem : ∀ {names}, Query.expandItem ((sch.map (·.1)).zip tables) item = .ok names ↔ _ :=
      h.expandItem_ok_iff (hitems item List.mem_cons_self)
    have hrest : ∀ {names}, List.Forall₂ _ items names ↔ _ :=
      ih fun x hx => hitems x (List.mem_cons_of_mem item hx)
    -- the items are expanded one by one, each under its own condition
    constructor
    · rintro ⟨n, ns, hn, hns, rfl⟩
      obtain ⟨hq, rfl⟩ := hitem.1 hn
      obtain ⟨hq', rfl⟩ := hrest.1 hns
      refine ⟨fun q hmem => ?_, rfl⟩
      rcases List.mem_cons.1 hmem with heq | hmem
      · exact hq q heq.symm
      · exact hq' q hmem
    · rintro ⟨hq, rfl⟩
      exact ⟨_, _, hitem.2 ⟨fun q heq => hq q (heq ▸ List.mem_cons_self), rfl⟩,
        hrest.2 ⟨fun q hmem => hq q (List.mem_cons_of_mem item hmem), rfl⟩, rfl⟩

/-- With a count among the items, nothing else is printed. -/
theorem outputOfItems_ok_iff_of_count {items : List SelectItem} {n : Option ColumnName}
    (hcount : .count n ∈ items) {out : Output} :
    Query.outputOfItems ((sch.map (·.1)).zip tables) items = .ok out ↔
      Printable (sch.map (·.1)) items ∧ sch.outputOf items = out := by
  unfold Query.outputOfItems
  rw [if_pos (List.any_eq_true.2 ⟨_, hcount, rfl⟩)]
  constructor
  · intro hout
    split at hout
    · refine ⟨⟨fun k hk => ?_, fun q hq => ?_⟩, Except.ok.inj hout⟩
      · rw [List.mem_singleton.1 hk]
      · exact absurd (List.mem_singleton.1 hq) (by simp)
    · simp at hout
  · rintro ⟨hprintable, rfl⟩
    rw [hprintable.count_alone n hcount]
    rfl

/-- Without a count, the items are expanded one by one. -/
theorem outputOfItems_ok_iff_of_no_count (h : Opened sch (List.range sch.length) tables)
    {items : List SelectItem} (hnone : ∀ item ∈ items, item.isCount = false) {out : Output} :
    Query.outputOfItems ((sch.map (·.1)).zip tables) items = .ok out ↔
      Printable (sch.map (·.1)) items ∧ sch.outputOf items = out := by
  have hnot : ∀ n, .count n ∉ items := fun n hn => absurd (hnone _ hn) (by simp [SelectItem.isCount])
  have hout : sch.outputOf items = .columns (sch.printed items) :=
    sch.outputOf_eq_columns fun n hn => hnot n (hn ▸ List.mem_singleton_self _)
  have hprintable : Printable (sch.map (·.1)) items ↔
      ∀ q, .wildcardOf q ∈ items → ∃ r ∈ sch.map (·.1), Schema.isCalled q r = true :=
    ⟨fun hp => hp.wildcards, fun hw => ⟨fun n hn => absurd hn (hnot n), hw⟩⟩
  -- no items are shown as one wildcard, which needs no relation
  have hshown : ∀ item ∈ (if items.isEmpty then [.wildcard] else items),
      item.isCount = false := by
    intro item hitem
    split at hitem
    · rw [List.mem_singleton.1 hitem]
      rfl
    · exact hnone item hitem
  have hwild : ∀ q, .wildcardOf q ∈ (if items.isEmpty then [.wildcard] else items) ↔
      .wildcardOf q ∈ items := by
    intro q
    split
    · next hempty => simp [List.isEmpty_iff.1 hempty]
    · exact Iff.rfl
  unfold Query.outputOfItems
  rw [if_neg (by simpa using hnone), bind_ok_iff, hout, hprintable, Schema.printed]
  simp only [mapM_ok_iff, pure_ok_iff, h.forall₂_expandItem_iff hshown, hwild, List.flatMap_def]
  constructor
  · rintro ⟨_, ⟨hq, rfl⟩, rfl⟩
    exact ⟨hq, rfl⟩
  · rintro ⟨hq, rfl⟩
    exact ⟨_, ⟨hq, rfl⟩, rfl⟩

/-- What a statement prints is found exactly when its items can be read and can stand together. -/
theorem output_ok_iff (h : Opened sch (List.range sch.length) tables) {columns : List String}
    {out : Output} :
    Query.output ((sch.map (·.1)).zip tables) columns = .ok out ↔ ∃ items,
      columns.mapM SelectItem.ofText = .ok items ∧ Printable (sch.map (·.1)) items ∧
      sch.outputOf items = out := by
  rw [Query.output, bind_ok_iff]
  refine exists_congr fun items => and_congr_right fun _ => ?_
  -- a count prints a single number, so it is taken apart from the columns
  by_cases hcount : ∃ n, .count n ∈ items
  · obtain ⟨n, hn⟩ := hcount
    exact outputOfItems_ok_iff_of_count hn
  · refine h.outputOfItems_ok_iff_of_no_count fun item hitem => ?_
    cases item with
    | count n => exact absurd ⟨n, hitem⟩ hcount
    | wildcard | wildcardOf _ | column _ => rfl

end Opened

end ShellQuery
