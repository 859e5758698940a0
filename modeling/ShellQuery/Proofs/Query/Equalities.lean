import ShellQuery.Proofs.Query.Plan

/-!
# The equalities that join relations

`Schema.joinEqualities` reads off a condition which header fields it equates across relations: one
pair for each conjunct of its normal form that is a single equality between columns of two
relations. Where paths and names are apart, these are the comparisons by which the planner joins
(`forall₂_joins`), they make neighbours in the graph of the relations (`adjacent_iff`), and the
columns of the joined table are the classes of fields that they equate
(`Planned.exists_built_equated`).
-/

namespace ShellQuery

/-! ### Fields that a condition equates -/

namespace Schema

/-- The first field that a reference may mean. -/
def origin? (sch : Schema) (n : ColumnName) : Option Origin :=
  sch.origins.find? (sch.means n)

/-- The fields that a conjunct equates, if it is a single equality between columns of two different
relations. -/
def joinEquality? (sch : Schema) (c : Condition) : Option (Origin × Origin) :=
  match Formula.atom? c with
  | some ⟨.column l, .eq, .column r⟩ => do
    let a ← sch.origin? l
    let b ← sch.origin? r
    if a.relation = b.relation then none else some (a, b)
  | _ => none

/-- The fields that a condition equates across relations. -/
def joinEqualities (sch : Schema) (c : Option Condition) : List (Origin × Origin) :=
  (Condition.conjunctsOf c).filterMap sch.joinEquality?

/-- The reference means exactly one field. -/
def MeansOnly (sch : Schema) (n : ColumnName) (o : Origin) : Prop :=
  ∀ o', sch.means n o' = true ↔ o' = o

variable {sch : Schema} {n : ColumnName} {o : Origin}

theorem MeansOnly.origin?_eq (h : sch.MeansOnly n o) : sch.origin? n = some o := by
  have ho := (h o).2 rfl
  obtain ⟨a, ha⟩ := Option.isSome_iff_exists.1
    (List.find?_isSome.2 ⟨o, mem_origins_of_means ho, ho⟩)
  rw [origin?, ha, (h a).1 (List.find?_some ha)]

theorem MeansOnly.eq_of_pinnedIn {ps : List Nat} {o' : Origin} (h : sch.MeansOnly n o)
    (h' : PinnedIn sch ps n o') : o' = o :=
  (h o').1 h'.means

theorem MeansOnly.pinnedIn {ps : List Nat} (h : sch.MeansOnly n o) (hmem : o.relation ∈ ps) :
    PinnedIn sch ps n o :=
  ⟨(h o).2 rfl, hmem, fun o' ho' _ => (h o').1 ho'⟩

/-- An equality joins if its sides are columns with origins in two relations. -/
theorem joinEquality?_eq_some_iff {c : Condition} {a b : Origin} :
    sch.joinEquality? c = some (a, b) ↔ ∃ l r, c = .atom ⟨.column l, .eq, .column r⟩ ∧
      sch.origin? l = some a ∧ sch.origin? r = some b ∧ a.relation ≠ b.relation := by
  unfold joinEquality?
  split
  · next l r hatom =>
    -- only a single comparison is looked at
    have hc : c = .atom ⟨.column l, .eq, .column r⟩ := by
      cases c with
      | atom x => rw [Option.some.inj hatom]
      | all ps => simp [Formula.atom?] at hatom
      | any ps => simp [Formula.atom?] at hatom
    simp only [hc, Formula.atom.injEq, Comparison.mk.injEq, Operand.column.injEq, true_and]
    simp only [Option.bind_eq_bind, Option.bind_eq_some_iff]
    constructor
    · rintro ⟨a', ha, b', hb, h⟩
      split at h
      · simp at h
      · next hne =>
        obtain ⟨rfl, rfl⟩ := Prod.mk.inj (Option.some.inj h)
        exact ⟨l, r, ⟨rfl, rfl⟩, ha, hb, hne⟩
    · rintro ⟨_, _, ⟨rfl, rfl⟩, ha, hb, hne⟩
      exact ⟨a, ha, b, hb, by rw [if_neg hne]⟩
  · next hne =>
    simp only [reduceCtorEq, false_iff]
    rintro ⟨l, r, rfl, -⟩
    exact hne l r rfl

end Schema

/-! ### Pinned comparisons -/

/-- A comparison that can join is an equality of columns. -/
theorem Comparison.exists_columns_of_canJoin {c : Comparison} (h : c.canJoin = true) :
    ∃ l r, c = ⟨.column l, .eq, .column r⟩ := by
  obtain ⟨x, o, y⟩ := c
  unfold canJoin at h
  split at h
  · next l r hl hr =>
    rw [Bool.and_eq_true, beq_iff_eq] at h
    dsimp only at hl hr h
    exact ⟨l, r, by rw [hl, hr, h.1]⟩
  · cases h

/-- A name under the name of the relation of the one field it means. -/
structure PinnedTo (sch : Schema) (n : ColumnName) (o : Origin) : Prop where
  meansOnly : sch.MeansOnly n o
  within : ∃ m r, sch[o.relation]? = some r ∧ n = ColumnName.within m r.1.name

section

variable {sch : Schema} {tables : List Table}

/-- Where paths and names are apart, pinning a reference keeps what it means. -/
theorem Opened.pinnedTo_of_pin (h : Opened sch (List.range sch.length) tables)
    (hsound : sch.Sound) (hapart : PathsApart (sch.map (·.1))) {n n' : ColumnName}
    (hpin : Query.pin tables n = .ok n') : ∃ o, sch.MeansOnly n o ∧ PinnedTo sch n' o := by
  obtain ⟨o, r, ho, huniq, hr, rfl⟩ := (h.pin_ok_iff hsound).1 hpin
  obtain ⟨r', f, hf, hanswers⟩ := Schema.means_iff.1 ho
  obtain ⟨fields, hr', -⟩ := Schema.fieldAt?_eq_some_iff.1 hf
  obtain rfl : r = (r', fields) := Option.some.inj (hr.symm.trans hr')
  have ho' : sch.means (n.within r'.name) o = true := by
    refine Schema.means_within_iff.2 ⟨r', f, hf, ?_, .inr rfl⟩
    simp only [Relation.fieldAnswers, Bool.and_eq_true, beq_iff_eq] at hanswers
    exact hanswers.1
  refine ⟨o, fun o' => ⟨huniq o', fun heq => heq ▸ ho⟩, fun o' => ⟨fun hmeans => ?_,
    fun heq => heq ▸ ho'⟩, n, (r', fields), hr, rfl⟩
  -- a second field of the relation with that name would be the same one
  have hrel := hsound.relation_eq_of_means_within hapart hr hmeans
  obtain ⟨i, j⟩ := o
  obtain ⟨i', j'⟩ := o'
  obtain rfl : i' = i := hrel
  rw [hsound.field_eq hmeans ho']

/-- Names pinned to fields of different relations have different qualifiers, and only they. -/
theorem PinnedTo.sameQualifiers_iff (hsound : sch.Sound) {l r : ColumnName} {a b : Origin}
    (ha : PinnedTo sch l a) (hb : PinnedTo sch r b) :
    l.sameQualifiers r = true ↔ a.relation = b.relation := by
  obtain ⟨m, x, hx, rfl⟩ := ha.within
  obtain ⟨k, y, hy, rfl⟩ := hb.within
  rw [ColumnName.sameQualifiers_iff]
  simp only [ColumnName.within, List.mem_singleton]
  constructor
  · exact fun h => hsound.relation_eq hx hy ((h _).1 rfl)
  · intro h
    rw [h] at hx
    rw [Option.some.inj (hx.symm.trans hy)]
    exact fun _ => Iff.rfl

/-- An equality of pinned columns can join exactly when they are fields of different relations. -/
theorem PinnedTo.canJoin_iff (hsound : sch.Sound) {l r : ColumnName} {a b : Origin}
    (ha : PinnedTo sch l a) (hb : PinnedTo sch r b) :
    Comparison.canJoin ⟨.column l, .eq, .column r⟩ = true ↔ a.relation ≠ b.relation := by
  rw [Comparison.canJoin, Bool.and_eq_true, Bool.not_eq_true', ← Bool.not_eq_true,
    ha.sameQualifiers_iff hsound hb]
  exact and_iff_right rfl

/-- A comparison by which the planner joins, and the fields that it equates. -/
def JoinsFields (sch : Schema) (c : Comparison) (e : Origin × Origin) : Prop :=
  ∃ l r, c = ⟨.column l, .eq, .column r⟩ ∧ PinnedTo sch l e.1 ∧ PinnedTo sch r e.2 ∧
    e.1.relation ≠ e.2.relation

/-- Related elements that are picked together are related after picking. -/
theorem forall₂_filterMap_of_forall₂ {α β γ δ : Type} {R : α → β → Prop} {S : γ → δ → Prop}
    {f : α → Option γ} {g : β → Option δ} {as : List α} {bs : List β} (h : List.Forall₂ R as bs)
    (hstep : ∀ a b, R a b → (f a = none ∧ g b = none) ∨
      ∃ c d, f a = some c ∧ g b = some d ∧ S c d) :
    List.Forall₂ S (as.filterMap f) (bs.filterMap g) := by
  induction h with
  | nil => exact .nil
  | cons hab _ ih =>
    rcases hstep _ _ hab with ⟨hf, hg⟩ | ⟨c, d, hf, hg, hS⟩
    · rwa [List.filterMap_cons_none hf, List.filterMap_cons_none hg]
    · rw [List.filterMap_cons_some hf, List.filterMap_cons_some hg]
      exact .cons hS ih

/-- A pinned conjunct joins relations exactly when the conjunct that was pinned equates fields of
different relations. -/
theorem Opened.joinEquality?_of_mapColumnsM (h : Opened sch (List.range sch.length) tables)
    (hsound : sch.Sound) (hapart : PathsApart (sch.map (·.1))) {c c' : Condition}
    (hc : c.mapColumnsM (Query.pin tables) = .ok c') :
    (c'.join? = none ∧ sch.joinEquality? c = none) ∨
      ∃ x e, c'.join? = some x ∧ sch.joinEquality? c = some e ∧ JoinsFields sch x e := by
  cases hjoin : c'.join? with
  | some x =>
    obtain ⟨rfl, hcan⟩ := Condition.join?_eq_some_iff.1 hjoin
    obtain ⟨l', r', rfl⟩ := Comparison.exists_columns_of_canJoin hcan
    obtain ⟨l, r, rfl, hl, hr⟩ := Condition.exists_columns_of_mapColumnsM hc
    obtain ⟨a, hla, hla'⟩ := h.pinnedTo_of_pin hsound hapart hl
    obtain ⟨b, hrb, hrb'⟩ := h.pinnedTo_of_pin hsound hapart hr
    have hne := (hla'.canJoin_iff hsound hrb').1 hcan
    exact .inr ⟨_, (a, b), rfl, Schema.joinEquality?_eq_some_iff.2
      ⟨l, r, rfl, hla.origin?_eq, hrb.origin?_eq, hne⟩, l', r', rfl, hla', hrb', hne⟩
  | none =>
    refine .inl ⟨rfl, Option.eq_none_iff_forall_ne_some.2 ?_⟩
    rintro ⟨a, b⟩ heq
    obtain ⟨l, r, rfl, ha, hb, hne⟩ := Schema.joinEquality?_eq_some_iff.1 heq
    obtain ⟨l', r', hl, hr, rfl⟩ := Condition.mapColumnsM_columns_ok_iff.1 hc
    obtain ⟨a', hla, hla'⟩ := h.pinnedTo_of_pin hsound hapart hl
    obtain ⟨b', hrb, hrb'⟩ := h.pinnedTo_of_pin hsound hapart hr
    obtain rfl := Option.some.inj (hla.origin?_eq.symm.trans ha)
    obtain rfl := Option.some.inj (hrb.origin?_eq.symm.trans hb)
    -- the pinned equality would join
    have hsome := Condition.join?_eq_some_iff.2 ⟨rfl, (hla'.canJoin_iff hsound hrb').2 hne⟩
    rw [hjoin] at hsome
    cases hsome

/-- The comparisons by which the planner joins are those of the join equalities. -/
theorem Opened.forall₂_joins (h : Opened sch (List.range sch.length) tables) (hsound : sch.Sound)
    (hapart : PathsApart (sch.map (·.1))) {condition : Option Condition} {pinned : List Condition}
    (hpinned : List.Forall₂ (fun c c' => Condition.mapColumnsM (Query.pin tables) c = .ok c')
      (Condition.conjunctsOf condition) pinned) :
    List.Forall₂ (JoinsFields sch) (Condition.classify pinned).1
      (sch.joinEqualities condition) :=
  forall₂_filterMap_of_forall₂ hpinned.flip fun _ _ hc =>
    h.joinEquality?_of_mapColumnsM hsound hapart hc

/-- Every column of a pinned conjunct is a name for one field. -/
theorem Opened.pinnedTo_of_mem (h : Opened sch (List.range sch.length) tables) (hsound : sch.Sound)
    (hapart : PathsApart (sch.map (·.1))) {conjuncts pinned : List Condition}
    (hpinned : List.Forall₂ (fun c c' => Condition.mapColumnsM (Query.pin tables) c = .ok c')
      conjuncts pinned) {c : Condition} (hc : c ∈ pinned) {n : ColumnName} (hn : n ∈ c.columns) :
    ∃ o, PinnedTo sch n o := by
  obtain ⟨c₀, -, hpin⟩ := exists_left_of_forall₂ hpinned hc
  obtain ⟨n₀, -, hn₀⟩ :=
    exists_left_of_forall₂ (Condition.forall₂_columns_of_mapColumnsM hpin) hn
  obtain ⟨o, -, ho⟩ := h.pinnedTo_of_pin hsound hapart hn₀
  exact ⟨o, ho⟩

/-! ### Neighbours -/

/-- The relation at a place is called so. -/
def Schema.Called (sch : Schema) (i : Nat) (name : String) : Prop :=
  ∃ r, sch[i]? = some r ∧ r.1.name = name

theorem Schema.Called.lt {i : Nat} {name : String} (h : sch.Called i name) : i < sch.length := by
  obtain ⟨r, hr, -⟩ := h
  exact (List.getElem?_eq_some_iff.1 hr).1

theorem Schema.Called.eq {i : Nat} {name name' : String} (h : sch.Called i name)
    (h' : sch.Called i name') : name = name' := by
  obtain ⟨r, hr, rfl⟩ := h
  obtain ⟨r', hr', rfl⟩ := h'
  rw [Option.some.inj (hr.symm.trans hr')]

theorem Schema.Sound.eq_of_called (hsound : sch.Sound) {i j : Nat} {name : String}
    (hi : sch.Called i name) (hj : sch.Called j name) : i = j := by
  obtain ⟨r, hr, hname⟩ := hi
  obtain ⟨r', hr', hname'⟩ := hj
  exact hsound.relation_eq hr hr' (by rw [hname, hname'])

theorem Schema.Sound.nodup_names (hsound : sch.Sound) :
    ((sch.map (·.1)).map Relation.name).Nodup := by
  refine List.Nodup.of_map Text.lower ?_
  rw [List.map_map, List.map_map]
  exact hsound.names

/-- The nodes without neighbours are the relations of the schema at their places. -/
theorem mem_bare_iff {m : JoinNode} : m ∈ (JoinGraph.bare (sch.map (·.1))).nodes ↔
    ∃ r, sch[m.position]? = some r ∧ m = ⟨r.1.name, r.1.path, m.position, []⟩ := by
  rw [JoinGraph.bare, JoinGraph.bareNodes, List.mem_map]
  constructor
  · rintro ⟨⟨r, i⟩, hr, rfl⟩
    rw [List.mk_mem_zipIdx_iff_getElem?, List.getElem?_map, Option.map_eq_some_iff] at hr
    obtain ⟨x, hx, rfl⟩ := hr
    exact ⟨x, hx, rfl⟩
  · rintro ⟨r, hr, hm⟩
    refine ⟨(r.1, m.position), ?_, hm.symm⟩
    rw [List.mk_mem_zipIdx_iff_getElem?, List.getElem?_map, hr]
    rfl

/-- A pinned name belongs to the relation of its field. -/
theorem PinnedTo.relationOf_iff (hsound : sch.Sound) (hapart : PathsApart (sch.map (·.1)))
    {n : ColumnName} {o : Origin} (h : PinnedTo sch n o) {name : String} :
    (JoinGraph.bare (sch.map (·.1))).relationOf n = .ok name ↔ sch.Called o.relation name := by
  obtain ⟨m, r, hr, rfl⟩ := h.within
  have hqualifiers : (m.within r.1.name).qualifiers = [Text.lower r.1.name] := rfl
  have hanswers : ∀ x : JoinNode, x.answersTo (Text.lower r.1.name) = true ↔
      Text.lower x.name = Text.lower r.1.name ∨ Text.lower x.path = Text.lower r.1.name := by
    intro x
    simp only [JoinNode.answersTo, Text.sameIgnoringCase, Text.lower_lower, Bool.or_eq_true,
      beq_iff_eq]
  rw [JoinGraph.relationOf, hqualifiers, List.findSome?_singleton]
  have hcalled : sch.Called o.relation name ↔ r.1.name = name := by
    constructor
    · rintro ⟨r', hr', hname⟩
      rwa [Option.some.inj (hr.symm.trans hr')]
    · exact fun hname => ⟨r, hr, hname⟩
  rw [hcalled]
  split
  · next x hx =>
    -- the node that answers is that of the relation, or else the paths are not apart
    obtain ⟨r', hr', hx'⟩ := mem_bare_iff.1 (List.mem_of_find?_eq_some hx)
    have hfound := List.find?_some hx
    have hanswer := (hanswers x).1 hfound
    have hplace : x.position = o.relation := by
      by_contra hne
      rw [hx'] at hanswer
      rcases hanswer with hname | hpath
      · exact hne (hsound.relation_eq hr' hr hname)
      · refine hapart.ne (i := o.relation) (j := x.position) ?_ ?_ (Ne.symm hne) hpath.symm
        · rw [List.getElem?_map, hr]
          rfl
        · rw [List.getElem?_map, hr']
          rfl
    rw [hplace] at hr'
    rw [Except.ok.injEq, hx', Option.some.inj (hr.symm.trans hr')]
  · next hnone =>
    refine absurd (List.find?_eq_none.1 hnone ⟨r.1.name, r.1.path, o.relation, []⟩ ?_) ?_
    · exact mem_bare_iff.2 ⟨r, hr, rfl⟩
    · exact not_not.2 ((hanswers _).2 (.inl rfl))

/-- A comparison joins the relations of the fields that it equates. -/
theorem JoinsFields.joins_iff (hsound : sch.Sound) (hapart : PathsApart (sch.map (·.1)))
    {c : Comparison} {e : Origin × Origin} (h : JoinsFields sch c e) {x y : String} :
    (JoinGraph.bare (sch.map (·.1))).Joins c x y ↔
      sch.Called e.1.relation x ∧ sch.Called e.2.relation y := by
  obtain ⟨l, r, rfl, hl, hr, hne⟩ := h
  simp only [JoinGraph.Joins, Operand.column.injEq, exists_and_left, exists_eq_left',
    hl.relationOf_iff hsound hapart, hr.relationOf_iff hsound hapart]
  refine and_congr_right fun hx => and_iff_left_of_imp fun hy => ?_
  rintro rfl
  exact hne (hsound.eq_of_called hx hy)

/-- A comparison that equates two fields joins two relations. -/
theorem JoinsFields.exists_joins (hsound : sch.Sound) (hapart : PathsApart (sch.map (·.1)))
    {c : Comparison} {e : Origin × Origin} (h : JoinsFields sch c e) :
    ∃ x y, (JoinGraph.bare (sch.map (·.1))).Joins c x y := by
  obtain ⟨l, r, rfl, hl, hr, hne⟩ := h
  obtain ⟨-, x, hx, -⟩ := hl.within
  obtain ⟨-, y, hy, -⟩ := hr.within
  exact ⟨x.1.name, y.1.name, (JoinsFields.joins_iff hsound hapart ⟨l, r, rfl, hl, hr, hne⟩).2
    ⟨⟨x, hx, rfl⟩, y, hy, rfl⟩⟩

/-- Two relations are neighbours exactly when a join equality equates fields of theirs. -/
theorem adjacent_iff (hsound : sch.Sound) (hapart : PathsApart (sch.map (·.1)))
    {joins : List Comparison} {es : List (Origin × Origin)}
    (hjoins : List.Forall₂ (JoinsFields sch) joins es) {g : JoinGraph}
    (hgraph : JoinGraph.build (sch.map (·.1)) joins = .ok g) {x y : String} :
    g.Adjacent x y ↔ ∃ e ∈ es, (sch.Called e.1.relation x ∧ sch.Called e.2.relation y) ∨
      (sch.Called e.1.relation y ∧ sch.Called e.2.relation x) := by
  rw [(JoinGraph.build_ok hsound.nodup_names hgraph).2]
  -- an equality and the comparison it was found for join the same two relations
  constructor
  · rintro ⟨c, hc, h⟩
    obtain ⟨e, he, hce⟩ := exists_right_of_forall₂ hjoins hc
    rw [hce.joins_iff hsound hapart, hce.joins_iff hsound hapart] at h
    exact ⟨e, he, h⟩
  · rintro ⟨e, he, h⟩
    obtain ⟨c, hc, hce⟩ := exists_left_of_forall₂ hjoins he
    refine ⟨c, hc, ?_⟩
    rwa [hce.joins_iff hsound hapart, hce.joins_iff hsound hapart]

/-! ### Equated fields -/

/-- A name that means one field is hit where the relation of that field is joined. -/
theorem Schema.MeansOnly.hitsAt_iff {n : ColumnName} {o : Origin} (h : sch.MeansOnly n o)
    {places : List Nat} {k : Nat} : HitsAt sch places n k ↔ places[k]? = some o.relation := by
  constructor
  · rintro ⟨i, j, hi, hj⟩
    rw [hi, ← (h _).1 hj]
  · exact fun hk => ⟨o.relation, o.field, hk, (h o).2 rfl⟩

/-- A comparison that joins is staged where the later one of its relations is met. -/
theorem JoinsFields.stageOf_ok_iff {places : List Nat} (hopened : Opened sch places tables)
    (hsound : sch.Sound) (hnodup : places.Nodup) {c : Comparison} {e : Origin × Origin}
    (h : JoinsFields sch c e) {k : Nat} :
    stageOf tables (.atom c) = .ok k ↔ ∃ i, i < k ∧
      ((places[i]? = some e.1.relation ∧ places[k]? = some e.2.relation) ∨
        (places[i]? = some e.2.relation ∧ places[k]? = some e.1.relation)) := by
  obtain ⟨l, r, rfl, hl, hr, hne⟩ := h
  have hcolumns : ∀ n, n ∈ Condition.columns (.atom ⟨.column l, .eq, .column r⟩) ↔
      n = l ∨ n = r := by
    intro n
    simp [Condition.mem_columns_iff, Comparison.mem_columns_iff, eq_comm]
  -- a relation is met at one place only
  have hinj : ∀ {i j : Nat} {p : Nat}, places[i]? = some p → places[j]? = some p → i = j :=
    fun hi hj => (List.getElem?_inj (List.getElem?_eq_some_iff.1 hi).1 hnodup).1 (hi.trans hj.symm)
  rw [hopened.stageOf_ok_iff hsound]
  simp only [hcolumns, forall_eq_or_imp, forall_eq, exists_eq_or_imp, exists_eq_left,
    hl.meansOnly.hitsAt_iff, hr.meansOnly.hitsAt_iff]
  constructor
  · -- the fields are at two places, so one of them is before the stage
    rintro ⟨⟨⟨i, hik, hi, -⟩, j, hjk, hj, -⟩, hk⟩
    have hij : i ≠ j := by
      rintro rfl
      exact hne (Option.some.inj (hi.symm.trans hj))
    rcases hk with rfl | hk | hk
    · omega
    · obtain rfl := hinj hi hk
      exact ⟨j, by omega, .inr ⟨hj, hk⟩⟩
    · obtain rfl := hinj hj hk
      exact ⟨i, by omega, .inl ⟨hi, hk⟩⟩
  · rintro ⟨i, hik, ⟨hi, hk⟩ | ⟨hi, hk⟩⟩
    · exact ⟨⟨⟨i, by omega, hi, fun j _ hj => hinj hj hi⟩, k, by omega, hk,
        fun j _ hj => hinj hj hk⟩, .inr (.inr hk)⟩
    · exact ⟨⟨⟨k, by omega, hk, fun j _ hj => hinj hj hk⟩, i, by omega, hi,
        fun j _ hj => hinj hj hi⟩, .inr (.inl hk)⟩

/-- The fields that an equality of pinned columns equates are those it is pinned to. -/
theorem JoinsFields.eq_or_swap {c : Comparison} {e e' : Origin × Origin} {ps : List Nat}
    (h : JoinsFields sch c e) (h' : EquatesIn sch ps c e') : e' = e ∨ e' = e.swap := by
  obtain ⟨l, r, rfl, hl, hr, -⟩ := h
  obtain ⟨l', r', heq, h'⟩ := h'
  simp only [Comparison.mk.injEq, Operand.column.injEq, true_and] at heq
  obtain ⟨rfl, rfl⟩ := heq
  rcases h' with ⟨h₁, h₂⟩ | ⟨h₁, h₂⟩
  · exact .inl (Prod.ext (hl.meansOnly.eq_of_pinnedIn h₁) (hr.meansOnly.eq_of_pinnedIn h₂))
  · exact .inr (Prod.ext (hr.meansOnly.eq_of_pinnedIn h₂) (hl.meansOnly.eq_of_pinnedIn h₁))

theorem equated_of_eq_or_swap {es : List (Origin × Origin)} {e e' : Origin × Origin} (he : e ∈ es)
    (h : e' = e ∨ e' = e.swap) : Equated es e'.1 e'.2 := by
  rcases h with rfl | rfl
  · exact .rel _ _ he
  · exact .symm _ _ (.rel _ _ he)

/-- What is equated stays so if every single equality does. -/
theorem Equated.of_forall {es es' : List (Origin × Origin)}
    (h : ∀ e ∈ es, Equated es' e.1 e.2) {a b : Origin} (hab : Equated es a b) :
    Equated es' a b := by
  induction hab with
  | rel a b he => exact h (a, b) he
  | refl => exact .refl _
  | symm _ _ _ ih => exact .symm _ _ ih
  | trans _ _ _ _ _ ih ih' => exact .trans _ _ _ ih ih'

end

namespace Query

variable {s : Statement} {config : Config} {catalog : Catalog}

theorem Ordered.forall₂_joins (p : Ordered s config catalog) (hapart : PathsApart s.relations) :
    List.Forall₂ (JoinsFields (s.schema config catalog)) (Condition.classify p.pinned).1
      ((s.schema config catalog).joinEqualities p.condition) :=
  p.opened.forall₂_joins p.sound (s.map_fst_schema config catalog ▸ hapart) p.pinned_ok

/-- The joined table is built on the join equalities of the condition. -/
theorem Planned.exists_built_equated (p : Planned s config catalog)
    (hapart : PathsApart s.relations) : ∃ es leads cs,
    Built (s.schema config catalog) p.places es leads cs p.joined ∧ cs.Perm p.pinned ∧
      ∀ a b, Equated es a b ↔
        Equated ((s.schema config catalog).joinEqualities p.condition) a b := by
  obtain ⟨es, leads, cs, hbuilt, hperm, hequates⟩ := p.exists_built
  have hjoins := p.forall₂_joins hapart
  refine ⟨es, leads, cs, hbuilt, hperm, fun a b => ⟨Equated.of_forall ?_, Equated.of_forall ?_⟩⟩
  · -- what is equated comes from a pinned conjunct across relations, and that is a join
    intro e he
    obtain ⟨ps, c, hc, hequates, hne⟩ := hbuilt.exists_equatesIn he
    obtain ⟨l, r, rfl, hlr⟩ := id hequates
    have hmem : .atom ⟨.column l, .eq, .column r⟩ ∈ p.pinned := hperm.mem_iff.1 hc
    have hpinned : ∀ n, n = l ∨ n = r → ∃ o, PinnedTo (s.schema config catalog) n o := by
      intro n hn
      refine p.opened.pinnedTo_of_mem p.sound (s.map_fst_schema config catalog ▸ hapart)
        p.pinned_ok hmem ?_
      simpa [Condition.mem_columns_iff, Comparison.mem_columns_iff, eq_comm] using hn
    obtain ⟨a, ha⟩ := hpinned l (.inl rfl)
    obtain ⟨b, hb⟩ := hpinned r (.inr rfl)
    have hab : a.relation ≠ b.relation := by
      rcases hlr with ⟨h₁, h₂⟩ | ⟨h₁, h₂⟩
      · rwa [← ha.meansOnly.eq_of_pinnedIn h₁, ← hb.meansOnly.eq_of_pinnedIn h₂]
      · rw [← ha.meansOnly.eq_of_pinnedIn h₁, ← hb.meansOnly.eq_of_pinnedIn h₂]
        exact Ne.symm hne
    -- both sides are pinned to fields of different relations, so the planner joins by it
    have hclassified : ⟨.column l, .eq, .column r⟩ ∈ (Condition.classify p.pinned).1 :=
      List.mem_filterMap.2 ⟨_, hmem, Condition.join?_eq_some_iff.2
        ⟨rfl, (ha.canJoin_iff p.sound hb).2 hab⟩⟩
    obtain ⟨e', he', hfields⟩ := exists_right_of_forall₂ hjoins hclassified
    exact equated_of_eq_or_swap he' (hfields.eq_or_swap hequates)
  · -- a join equates fields of two relations, so it is not staged first
    intro e he
    obtain ⟨c, hc, hfields⟩ := exists_left_of_forall₂ hjoins he
    obtain ⟨numbers, hnumbers, -⟩ := stageConditions_ok_iff.1 p.joinStages_ok
    obtain ⟨k, -, hk⟩ := exists_right_of_forall₂ hnumbers (List.mem_map_of_mem hc)
    obtain ⟨i, hik, -⟩ := (hfields.stageOf_ok_iff p.opened_ordered p.sound p.nodup_places).1 hk
    obtain ⟨t, js, fs, hat, hjs, -⟩ := p.exists_getElem?_stages (p.stageOf_lt hk)
    have hmem := (mem_stage_iff p.joinStages_ok hjs).2 ⟨List.mem_map_of_mem hc, hk⟩
    have htail : p.stages.tail[k - 1]? = some (t, js, fs) := by
      rw [List.getElem?_tail, Nat.sub_add_cancel (by omega)]
      exact hat
    obtain ⟨ps, e', he', hequates'⟩ := hequates _ (List.mem_of_getElem? htail) c hmem
    rcases hfields.eq_or_swap hequates' with rfl | rfl
    · exact .rel _ _ he'
    · exact .symm _ _ (.rel _ _ he')

end Query

end ShellQuery
