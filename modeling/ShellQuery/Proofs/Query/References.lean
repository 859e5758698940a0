import ShellQuery.Proofs.Query.Plan
import ShellQuery.Proofs.Table.Provenance

/-!
# Which columns the references of a condition reach

A reference is pinned to the one relation it is found in, and from then on it is written under the
name of that relation. That name is looked up again wherever the reference is rendered, among
relations that answer to their paths too. So a relation whose path is the name of another one can
take the reference.

* `Built.forall₂_placed`: every condition that was applied to a joined table is tested at one site
  of the plan, and there its columns stand at positions that carry what they mean by then;
* `PinnedIn.eq_iff`: what a pinned reference means by then is the field it was pinned to unless a
  relation that can take it is joined earlier;
* `forall₂_traced`: so exactly the references that are taken are rendered elsewhere.
-/

namespace ShellQuery

/-! ### Columns of files -/

namespace Schema

/-- The name of the relation at a place. -/
def nameAt (sch : Schema) (i : Nat) : String :=
  (sch[i]?.map (·.1.name)).getD ""

/-- A header field as a column of a file. -/
def columnOf (sch : Schema) (o : Origin) : String × Nat :=
  (sch.nameAt o.relation, o.field)

theorem nameAt_eq {sch : Schema} {i : Nat} {r : Relation × List String} (hr : sch[i]? = some r) :
    sch.nameAt i = r.1.name := by
  rw [nameAt, hr]
  rfl

/-- Place by place, the names are those of the relations. -/
theorem map_nameAt_range (sch : Schema) :
    (List.range sch.length).map sch.nameAt = sch.map (·.1.name) := by
  refine List.ext_getElem (by rw [List.length_map, List.length_range, List.length_map])
    fun i hi hi' => ?_
  have hlt : i < sch.length := by rwa [List.length_map] at hi'
  rw [List.getElem_map, List.getElem_range, List.getElem_map,
    nameAt_eq (List.getElem?_eq_getElem hlt)]

/-- Relations at different places have different names. -/
theorem Sound.mem_of_mem_map_nameAt {sch : Schema} (h : sch.Sound) {ps : List Nat}
    (hps : ∀ j ∈ ps, j < sch.length) {i : Nat} {r : Relation × List String}
    (hr : sch[i]? = some r) (hmem : r.1.name ∈ ps.map sch.nameAt) : i ∈ ps := by
  obtain ⟨j, hj, hname⟩ := List.mem_map.1 hmem
  have hr' := List.getElem?_eq_getElem (hps j hj)
  rw [nameAt_eq hr'] at hname
  rwa [h.relation_eq hr hr' (by rw [hname])]

end Schema

namespace Opens

variable {sch : Schema} {d : Char} {i : Nat} {r : Relation × List String} {t : Table}

theorem leaves_eq (h : Opens d r t) (hr : sch[i]? = some r) : t.leaves = [i].map sch.nameAt := by
  rw [h.eq_mk, Table.leaves, Source.leaves, List.map_singleton, Schema.nameAt_eq hr]

theorem sites_eq (h : Opens d r t) : t.sites = [] := by
  rw [h.eq_mk]
  rfl

/-- The fields of a file carry its columns. -/
theorem provenance_of_stands (h : Opens d r t) (hr : sch[i]? = some r) {q : Nat} {o : Origin}
    (ho : Stands [] (Schema.fieldsOf i r) q o) : t.provenance q (sch.columnOf o) := by
  obtain ⟨a, ha, hao⟩ := ho
  obtain rfl : a = o :=
    (iff_of_eqvGen (P := (a = ·)) (fun _ _ he => absurd he List.not_mem_nil) hao).1 rfl
  rw [Schema.fieldsOf, List.getElem?_map] at ha
  obtain ⟨j, hj, rfl⟩ := Option.map_eq_some_iff.1 ha
  obtain ⟨-, rfl⟩ := List.getElem?_eq_some_iff.1 hj
  rw [h.eq_mk, List.getElem_range]
  show Schema.columnOf sch ⟨i, q⟩ = (r.1.name, q)
  rw [Schema.columnOf, Schema.nameAt_eq hr]

end Opens

/-! ### Joins -/

section

variable {sch : Schema} {ps ps' : List Nat} {es es' new : List (Origin × Origin)}
  {leads leads' : List Origin} {t left right : Table}

/-- Filters leave the fields of a table where they come from. -/
theorem Laid.provenance_filterBy (h : Laid sch ps es leads t)
    (hcarries : ∀ q o, Stands es leads q o → t.provenance q (sch.columnOf o))
    (tests : List Awk.RowTest) {q : Nat} {o : Origin} (ho : Stands es leads q o) :
    (t.filterBy tests).provenance q (sch.columnOf o) := by
  refine Table.provenance_filterBy tests ?_ (hcarries q o ho)
  obtain ⟨a, ha, -⟩ := ho
  rw [h.length_columns]
  exact (List.getElem?_eq_some_iff.1 ha).1

/-- If the fields of both sides of a join carry what stands there, so do those of the result. -/
theorem Sides.provenance_joinTable (h : Sides sch ps ps' es es' leads leads' left right)
    {key : Nat × Nat} {more : List (Nat × Nat)}
    (hkeys : KeysMatch es es' leads leads' (key :: more) new)
    (hleft : ∀ q o, Stands es leads q o → left.provenance q (sch.columnOf o))
    (hright : ∀ q o, Stands es' leads' q o → right.provenance q (sch.columnOf o)) (name : String)
    {q : Nat} {o : Origin}
    (ho : Stands (es ++ es' ++ new) (joinLeads leads leads' (key :: more)) q o) :
    (Table.joinTable left right key more name).provenance q (sch.columnOf o) := by
  obtain ⟨a, ha, hao⟩ := ho
  have hwithin := h.pairsWithin hkeys
  have hleads : List.Forall₂ (fun x a => atSide leads leads' x = some a)
      (Table.picks left.columns.length right.columns.length (key :: more))
      (joinLeads leads leads' (key :: more)) := by
    rw [h.left.length_columns, h.right.length_columns] at hwithin ⊢
    exact forall₂_joinLeads hwithin
  -- `u` is the pick at `q`, and the field stands at a position `v` linked with it
  obtain ⟨u, hu, hua⟩ := getElem?_of_forall₂ hleads.flip ha
  obtain ⟨v, huv, hvo⟩ := (h.equated_iff hkeys (standsAt_lead hua)).1 hao
  refine Table.provenance_joinTable hwithin hu ?_ huv ?_
  · rw [h.left.length_columns, h.right.length_columns]
    cases v with
    | inl p =>
      obtain ⟨b, hb, -⟩ := hvo
      exact (List.getElem?_eq_some_iff.1 hb).1
    | inr p =>
      obtain ⟨b, hb, -⟩ := hvo
      exact (List.getElem?_eq_some_iff.1 hb).1
  · cases v with
    | inl p => exact hleft p o hvo
    | inr p => exact hright p o hvo

end

/-! ### Sites -/

/-- The test of a site is the condition with its columns at the given positions. An equality may
have its sides swapped. -/
def Site.Renders (site : Site) (c : Condition) (position : ColumnName → Nat) : Prop :=
  Condition.resolve (fun n => (.ok (position n) : Except PlanError Nat)) c = .ok site.test ∨
    ∃ l r, c = .atom ⟨.column l, .eq, .column r⟩ ∧
      site.test = .atom (.compare (.field (position r)) .eq (.field (position l)))

/-- The condition is tested at a site on rows of some first relations of `ps`. Its columns are
pinned among these, and they are rendered at fields that carry what they are pinned to. -/
def Placed (sch : Schema) (ps : List Nat) (c : Condition) (site : Site) : Prop :=
  ∃ ps', ps' <+: ps ∧ (∀ name ∈ site.leaves, name ∈ ps'.map sch.nameAt) ∧
    ∃ position : ColumnName → Nat, site.Renders c position ∧
      ∀ n ∈ c.columns, ∃ o, PinnedIn sch ps' n o ∧ site.provenance (position n) (sch.columnOf o)

section

variable {sch : Schema} {ps ps' : List Nat} {es es' : List (Origin × Origin)}
  {leads leads' : List Origin} {site : Site}

theorem Placed.mono {c : Condition} (h : Placed sch ps c site) (hps : ps <+: ps') :
    Placed sch ps' c site := by
  obtain ⟨qs, hqs, hplaced⟩ := h
  exact ⟨qs, hqs.trans hps, hplaced⟩

/-- A filter is placed where its columns are traced to what they mean. -/
theorem placed_of_rendered {c : Condition} (h : Rendered sch ps es leads c site.test)
    (hleaves : ∀ name ∈ site.leaves, name ∈ ps.map sch.nameAt)
    (hcarries : ∀ q o, Stands es leads q o → site.provenance q (sch.columnOf o)) :
    Placed sch ps c site := by
  obtain ⟨position, htest, hpinned⟩ := h
  refine ⟨ps, List.prefix_refl ps, hleaves, position, .inl htest, fun n hn => ?_⟩
  obtain ⟨o, ho, hstands⟩ := hpinned n hn
  exact ⟨o, ho, hcarries _ o hstands⟩

/-- A pair of keys is a site of the equality that it stands for. -/
theorem placed_of_equatesIn {c : Comparison} {e : Origin × Origin} {a b : Nat}
    (h : EquatesIn sch ps c e) (hne : e.1 ≠ e.2)
    (htest : site.test = .atom (.compare (.field a) .eq (.field b)))
    (hleaves : ∀ name ∈ site.leaves, name ∈ ps.map sch.nameAt)
    (hleft : site.provenance a (sch.columnOf e.1))
    (hright : site.provenance b (sch.columnOf e.2)) : Placed sch ps (.atom c) site := by
  classical
  obtain ⟨l, r, rfl, hlr⟩ := h
  have hcolumns : ∀ n ∈ Condition.columns (.atom ⟨.column l, .eq, .column r⟩), n = l ∨ n = r := by
    intro n hn
    exact List.mem_pair.1 hn
  rcases hlr with ⟨hl, hr⟩ | ⟨hl, hr⟩
  · -- the sides of the equality stand as the keys do
    have hrl : r ≠ l := by
      rintro rfl
      exact hne (hr.unique _ hl.means hl.mem)
    refine ⟨ps, List.prefix_refl ps, hleaves, fun n => if n = l then a else b, .inl ?_,
      fun n hn => ?_⟩
    · show Except.ok (Formula.atom (Awk.FieldTest.compare (.field (if l = l then a else b)) .eq
        (.field (if r = l then a else b)))) = _
      rw [if_pos rfl, if_neg hrl, htest]
    · dsimp only
      rcases hcolumns n hn with rfl | rfl
      · rw [if_pos rfl]
        exact ⟨e.1, hl, hleft⟩
      · rw [if_neg hrl]
        exact ⟨e.2, hr, hright⟩
  · -- they are swapped
    have hlr : l ≠ r := by
      rintro rfl
      exact hne (hl.unique _ hr.means hr.mem)
    refine ⟨ps, List.prefix_refl ps, hleaves, fun n => if n = r then a else b,
      .inr ⟨l, r, rfl, ?_⟩, fun n hn => ?_⟩
    · dsimp only
      rw [if_pos rfl, if_neg hlr, htest]
    · dsimp only
      rcases hcolumns n hn with rfl | rfl
      · rw [if_neg hlr]
        exact ⟨e.2, hl, hright⟩
      · rw [if_pos rfl]
        exact ⟨e.1, hr, hleft⟩

end

/-! ### The sites of a left-deep tree -/

section

variable {sch : Schema} {ps : List Nat} {es : List (Origin × Origin)} {leads : List Origin}
  {cs : List Condition} {t : Table}

/-- The leaves of a built table are its relations, in their order. -/
theorem Built.leaves_eq (h : Built sch ps es leads cs t) : t.leaves = ps.map sch.nameAt := by
  induction h with
  | first hr ht _ => rw [Table.leaves_filterBy, ht.leaves_eq hr]
  | join _ _ hr ht _ _ _ ih =>
    rw [Table.leaves_filterBy, Table.leaves_joinTable, Table.leaves_filterBy, ih,
      ht.leaves_eq hr, List.map_append]

/-- One more join keeps carried what stands there, if the fields of the result so far carry it. -/
theorem provenance_of_keyed {result : Table} (hlaid : Laid sch ps es leads result)
    (hcarries : ∀ q o, Stands es leads q o → result.provenance q (sch.columnOf o)) {d : Char}
    {i : Nat} {r : Relation × List String} (hi : i ∉ ps) (hr : sch[i]? = some r)
    (ht : Opens d r t) (tests : List Awk.RowTest) {joins : List Comparison}
    {key : (Nat × Nat) × (Origin × Origin)} {keys : List ((Nat × Nat) × (Origin × Origin))}
    (hkeys : List.Forall₂ (Keyed sch (ps ++ [i]) es [] leads (Schema.fieldsOf i r)) joins
      (key :: keys)) (name : String) :
    ∀ q o, Stands (es ++ (key :: keys).map (·.2))
      (joinLeads leads (Schema.fieldsOf i r) ((key :: keys).map (·.1))) q o →
      (Table.joinTable result (t.filterBy tests) key.1 (keys.map (·.1)) name).provenance q
        (sch.columnOf o) := by
  intro q o ho
  -- the relation to be joined is filtered first, which keeps its fields
  have hright : ∀ q o, Stands [] (Schema.fieldsOf i r) q o →
      (t.filterBy tests).provenance q (sch.columnOf o) := fun q o ho =>
    (ht.laid hr).provenance_filterBy (fun _ _ => ht.provenance_of_stands hr) tests ho
  rw [← List.append_nil es] at ho
  exact (sides_of_laid hlaid hi hr ht tests).provenance_joinTable (keysMatch_of_keyed hkeys)
    hcarries hright name ho

/-- The fields of a joined table carry what stands there. -/
theorem Built.provenance_of_stands (h : Built sch ps es leads cs t) :
    ∀ q o, Stands es leads q o → t.provenance q (sch.columnOf o) := by
  induction h with
  | first hr ht _ =>
    exact fun q o ho => (ht.laid hr).provenance_filterBy
      (fun _ _ => ht.provenance_of_stands hr) _ ho
  | @join _ _ _ _ _ _ _ _ _ _ _ tests tests' _ _ _ name h hi hr ht _ hkeys _ ih =>
    have hlaid := (sides_of_laid h.laid hi hr ht tests).laid_joinTable name
      (keysMatch_of_keyed hkeys)
    rw [List.append_nil] at hlaid
    exact fun q o ho => hlaid.provenance_filterBy
      (provenance_of_keyed h.laid ih hi hr ht tests hkeys name) tests' ho

/-- The pairs of keys of a join are sites of its equalities. -/
theorem forall₂_placed_of_keyed {result right : Table} {i : Nat} {r : Relation × List String}
    (hi : i ∉ ps) (hlaid : Laid sch ps es leads result)
    (hcarries : ∀ q o, Stands es leads q o → result.provenance q (sch.columnOf o))
    (hlaid' : Laid sch [i] [] (Schema.fieldsOf i r) right)
    (hcarries' : ∀ q o, Stands [] (Schema.fieldsOf i r) q o →
      right.provenance q (sch.columnOf o))
    (hleaves : ∀ name ∈ result.leaves ++ right.leaves, name ∈ (ps ++ [i]).map sch.nameAt)
    {joins : List Comparison} {key : (Nat × Nat) × (Origin × Origin)}
    {keys : List ((Nat × Nat) × (Origin × Origin))}
    (hkeys : List.Forall₂ (Keyed sch (ps ++ [i]) es [] leads (Schema.fieldsOf i r)) joins
      (key :: keys)) :
    List.Forall₂ (Placed sch (ps ++ [i])) (joins.map .atom)
      (Site.ofKey result right key.1.1 key.1.2 ::
        (keys.map (·.1)).map (Table.chainedSite result right key.1)) := by
  -- the left key belongs to a relation that is joined already, the right one to the new relation
  have hne : ∀ {c k}, Keyed sch (ps ++ [i]) es [] leads (Schema.fieldsOf i r) c k →
      k.2.1 ≠ k.2.2 := by
    intro c k hk heq
    have hleft := hlaid.stands_mem hk.left
    have hright := hlaid'.stands_mem hk.right
    rw [heq, List.mem_singleton.1 hright] at hleft
    exact hi hleft
  have hwidth : ∀ {c k}, Keyed sch (ps ++ [i]) es [] leads (Schema.fieldsOf i r) c k →
      k.1.1 < result.columns.length := by
    intro c k hk
    obtain ⟨a, ha, -⟩ := hk.left
    rw [hlaid.length_columns]
    exact (List.getElem?_eq_some_iff.1 ha).1
  obtain ⟨c, joins', hkey, hmore, rfl⟩ := List.forall₂_cons_right_iff.1 hkeys
  rw [List.map_cons, List.map_map]
  refine .cons ?_ ?_
  · -- the first pair is compared by the join command itself
    refine placed_of_equatesIn hkey.columns (hne hkey) rfl hleaves ?_ ?_
    · show Provenance.pair _ _ _ _ _
      rw [Provenance.pair, if_pos (hwidth hkey)]
      exact hcarries _ _ hkey.left
    · show Provenance.pair _ _ _ _ _
      rw [Provenance.pair, if_neg (by omega), Nat.add_sub_cancel_left]
      exact hcarries' _ _ hkey.right
  · -- further pairs are compared on the rows that it prints
    rw [List.forall₂_map_left_iff, List.forall₂_map_right_iff]
    refine hmore.imp fun c k hk => ?_
    refine placed_of_equatesIn hk.columns (hne hk) rfl hleaves ?_ ?_
    · exact Provenance.join_joinedLeft (hwidth hkey) (hwidth hk) (hcarries _ _ hk.left)
    · exact Provenance.join_joinedRight (hwidth hkey) (hcarries' _ _ hk.right)

/-- Every condition that was applied is tested at one site, in the order of the sites. -/
theorem Built.forall₂_placed (h : Built sch ps es leads cs t) :
    List.Forall₂ (Placed sch ps) cs t.sites := by
  induction h with
  | @first d i r t cs tests hr ht htests =>
    rw [Table.sites_filterBy, ht.sites_eq, List.nil_append, List.forall₂_map_right_iff]
    refine htests.imp fun c test hc => placed_of_rendered hc ?_ ?_
    · rw [ht.leaves_eq hr]
      exact fun _ => id
    · exact fun q o => ht.provenance_of_stands hr
  | @join ps es leads cs result d i r t before after tests tests' joins key keys name h hi hr ht
      hbefore hkeys hafter ih =>
    have hlaid := (ht.laid hr).of_columns_eq (Table.columns_filterBy t tests)
    have hleaves : ∀ name ∈ t.leaves, name ∈ (ps ++ [i]).map sch.nameAt := by
      rw [ht.leaves_eq hr, List.map_append]
      exact fun _ => List.mem_append_right _
    have hjoined : ∀ name ∈ result.leaves ++ (t.filterBy tests).leaves,
        name ∈ (ps ++ [i]).map sch.nameAt := by
      rw [h.leaves_eq, Table.leaves_filterBy, ht.leaves_eq hr, List.map_append]
      exact fun _ => id
    rw [Table.sites_filterBy, Table.sites_joinTable, Table.sites_filterBy, ht.sites_eq,
      List.nil_append, List.append_assoc, List.append_assoc, List.append_assoc]
    -- the tests of the tree so far, then those before, at and after the join
    refine List.rel_append (ih.imp fun _ _ hc => hc.mono (List.prefix_append ps [i])) ?_
    refine List.rel_append ?_ (List.rel_append ?_ ?_)
    · rw [List.forall₂_map_right_iff]
      exact hbefore.imp fun c test hc => placed_of_rendered hc hleaves
        fun q o => ht.provenance_of_stands hr
    · exact forall₂_placed_of_keyed hi h.laid h.provenance_of_stands hlaid
        (fun q o ho => (ht.laid hr).provenance_filterBy
          (fun _ _ => ht.provenance_of_stands hr) tests ho) hjoined hkeys
    · rw [List.forall₂_map_right_iff]
      refine hafter.imp fun c test hc => placed_of_rendered hc ?_ ?_
      · rw [Table.leaves_joinTable]
        exact hjoined
      · exact provenance_of_keyed h.laid h.provenance_of_stands hi hr ht tests hkeys name

end

/-! ### References that are taken -/

/-- The relation `r'` can take a reference that was pinned to `r`: its path is the name of `r`,
whatever the case, and it has a field of the same plain name. -/
def CanTake (r r' : Relation × List String) (n : ColumnName) : Prop :=
  Text.lower r'.1.path = Text.lower r.1.name ∧ ∃ f ∈ r'.2, n.plain = Text.lower (Text.trim f)

theorem idxOf_lt_idxOf {names names' : List String} {a b : String} (ha : a ∈ names)
    (hb : b ∉ names) : (names ++ names').idxOf a < (names ++ names').idxOf b := by
  rw [List.idxOf_append_of_mem ha, List.idxOf_append_of_notMem hb]
  have := List.idxOf_lt_length_of_mem ha
  omega

theorem mem_of_idxOf_lt {names names' : List String} {a b : String} (hb : b ∈ names)
    (h : (names ++ names').idxOf a < (names ++ names').idxOf b) : a ∈ names := by
  by_contra ha
  exact absurd h (Nat.lt_asymm (idxOf_lt_idxOf hb ha))

section

variable {sch : Schema} {ps places : List Nat} {n : ColumnName} {o o' : Origin}
  {r : Relation × List String}

/-- A name that means a field means it within the field's relation too. -/
theorem Schema.means_within {n : ColumnName} (ho : sch.means n o = true)
    (hr : sch[o.relation]? = some r) : sch.means (n.within r.1.name) o = true := by
  obtain ⟨r', f, hf, hn⟩ := Schema.means_iff.1 ho
  obtain ⟨fields, hr', -⟩ := Schema.fieldAt?_eq_some_iff.1 hf
  obtain rfl := Option.some.inj (hr.symm.trans hr')
  rw [Relation.fieldAnswers, Bool.and_eq_true, beq_iff_eq] at hn
  exact Schema.means_within_iff.2 ⟨r', f, hf, hn.1, .inr rfl⟩

/-- A reference that is pinned to a field means that field among the first relations to be joined
exactly when every other relation that can take it is joined later. -/
theorem PinnedIn.eq_iff (h : PinnedIn sch ps (n.within r.1.name) o') (hsound : sch.Sound)
    (hps : ps <+: places) (hplaces : ∀ i ∈ places, i < sch.length) (ho : sch.means n o = true)
    (hr : sch[o.relation]? = some r) :
    o' = o ↔ ∀ r' ∈ sch, r'.1.name ≠ r.1.name → CanTake r r' n →
      (places.map sch.nameAt).idxOf r.1.name < (places.map sch.nameAt).idxOf r'.1.name := by
  have hown := Schema.means_within ho hr
  have hwithin : ∀ i ∈ ps, i < sch.length := fun i hi => hplaces i (hps.subset hi)
  obtain ⟨rest, rfl⟩ := hps
  rw [List.map_append]
  constructor
  · rintro rfl r' hr' hname ⟨hpath, f, hf, hplain⟩
    obtain ⟨i, hi⟩ := List.mem_iff_getElem?.1 hr'
    obtain ⟨j, hj⟩ := List.mem_iff_getElem?.1 hf
    refine idxOf_lt_idxOf ?_ fun hmem => hname ?_
    · rw [← Schema.nameAt_eq hr]
      exact List.mem_map_of_mem h.mem
    · -- the other relation would be met as well
      have hmeans : sch.means (n.within r.1.name) ⟨i, j⟩ = true :=
        Schema.means_within_iff.2
          ⟨r'.1, f, Schema.fieldAt?_eq_some_iff.2 ⟨r'.2, hi, hj⟩, hplain, .inl hpath⟩
      have heq := h.unique _ hmeans (hsound.mem_of_mem_map_nameAt hwithin hi hmem)
      rw [← heq] at hr
      rw [Option.some.inj (hi.symm.trans hr)]
  · intro hlater
    by_contra hne
    obtain ⟨r', f, hf, hplain, hcalled⟩ := Schema.means_within_iff.1 h.means
    obtain ⟨fields, hr', hfield⟩ := Schema.fieldAt?_eq_some_iff.1 hf
    have hrelation : o'.relation ≠ o.relation := by
      obtain ⟨i, j⟩ := o
      obtain ⟨i', j'⟩ := o'
      rintro rfl
      exact hne (by rw [hsound.field_eq h.means hown])
    have hother : r'.name ≠ r.1.name := fun hname =>
      hrelation (hsound.relation_eq hr' hr (congrArg Text.lower hname))
    have hpath : Text.lower r'.path = Text.lower r.1.name :=
      hcalled.resolve_right fun hname => hrelation (hsound.relation_eq hr' hr hname)
    -- `r'` has taken the reference, so it is joined later, but then `r` is met first
    have hlt := hlater _ (List.mem_of_getElem? hr') hother
      ⟨hpath, f, List.mem_of_getElem? hfield, hplain⟩
    have hmet : r'.name ∈ ps.map sch.nameAt := by
      rw [← Schema.nameAt_eq hr']
      exact List.mem_map_of_mem h.mem
    have hrel := hsound.mem_of_mem_map_nameAt hwithin hr (mem_of_idxOf_lt hmet hlt)
    exact hne (h.unique o hown hrel).symm

end

/-! ### The sites of a plan -/

/-- The condition is tested at the site of a plan with the given files. Each of its columns means
one field of one of the opened relations and is pinned to that relation, and it is rendered at a
position that carries this field exactly when every other relation that can take the reference
stands further right in the plan. -/
def Traced (sch : Schema) (tables : List Table) (files : List String) (c : Condition)
    (site : Site) : Prop :=
  ∃ position : ColumnName → Nat, site.Renders c position ∧
    ∀ n ∈ c.columns, ∃ i r p, sch[i]? = some r ∧ (∀ o, sch.means n o = true ↔ o = ⟨i, p⟩) ∧
      Query.pin tables n = .ok (n.within r.1.name) ∧
      (site.provenance (position n) (r.1.name, p) ↔
        ∀ r' ∈ sch, r'.1.name ≠ r.1.name → CanTake r r' n →
          files.idxOf r.1.name < files.idxOf r'.1.name)

/-- The condition is tested at the site, and each of its columns means one field and is rendered at
a position that carries it. -/
def Followed (sch : Schema) (c : Condition) (site : Site) : Prop :=
  ∃ position : ColumnName → Nat, site.Renders c position ∧
    ∀ n ∈ c.columns, ∃ i r p, sch[i]? = some r ∧ (∀ o, sch.means n o = true ↔ o = ⟨i, p⟩) ∧
      site.provenance (position n) (r.1.name, p)

/-- References are followed where no relation stands right of one whose name is its path. -/
theorem Traced.followed {sch : Schema} {tables : List Table} {files : List String} {c : Condition}
    {site : Site} (h : Traced sch tables files c site)
    (horder : ∀ r ∈ sch, ∀ r' ∈ sch, r'.1.name ≠ r.1.name →
      Text.lower r'.1.path = Text.lower r.1.name →
      files.idxOf r.1.name < files.idxOf r'.1.name) : Followed sch c site := by
  obtain ⟨position, hrenders, hcolumns⟩ := h
  refine ⟨position, hrenders, fun n hn => ?_⟩
  obtain ⟨i, r, p, hr, hmeans, -, hiff⟩ := hcolumns n hn
  exact ⟨i, r, p, hr, hmeans, hiff.2 fun r' hr' hname htake =>
    horder r (List.mem_of_getElem? hr) r' hr' hname htake.1⟩

/-- A test of a pinned condition is a test of the condition, at the positions of the pinned columns.
-/
theorem Site.Renders.of_mapColumnsM {ε : Type} {site : Site} {c c' : Condition}
    {f : ColumnName → Except ε ColumnName} {position : ColumnName → Nat}
    (h : site.Renders c' position) (hc : c.mapColumnsM f = .ok c') :
    site.Renders c fun n => position ((f n).toOption.getD n) := by
  rcases h with htest | ⟨l, r, rfl, htest⟩
  · refine .inl ?_
    rw [← htest]
    refine Condition.resolve_eq_of_mapColumnsM hc fun n n' hn => ?_
    dsimp only
    rw [hn]
    rfl
  · obtain ⟨l₀, r₀, rfl, hl₀, hr₀⟩ := Condition.exists_columns_of_mapColumnsM hc
    refine .inr ⟨l₀, r₀, rfl, ?_⟩
    dsimp only
    rw [hl₀, hr₀]
    exact htest

namespace Query

variable {s : Statement} {config : Config} {catalog : Catalog} {t : Table}

/-- A step without tests leaves the sites of a plan as they are. -/
theorem sites_eq_of_tests_eq_nil (t : Table) {step : Step} (h : step.tests = [])
    (columns sorted : List Column) :
    Table.sites { t with columns := columns, steps := t.steps ++ [step], sortedBy := sorted } =
        t.sites ∧
      Table.leaves { t with columns := columns, steps := t.steps ++ [step], sortedBy := sorted } =
        t.leaves := by
  rw [Table.sites_append, Table.leaves_append, h, List.map_nil, List.append_nil]
  exact ⟨rfl, rfl⟩

theorem sites_sampled (t : Table) (sample seed : Option Nat) :
    (sampled t sample seed).sites = t.sites ∧ (sampled t sample seed).leaves = t.leaves := by
  cases sample with
  | none => exact ⟨rfl, rfl⟩
  | some size => exact sites_eq_of_tests_eq_nil t rfl _ _

/-- What a statement prints makes no tests. -/
theorem sites_of_finish {sample : Option Nat} {joined : Table} {output : Output}
    (h : finish config sample joined output = .ok t) :
    t.sites = joined.sites ∧ t.leaves = joined.leaves := by
  cases output with
  | columns names =>
    rw [finish, bind_ok_iff] at h
    obtain ⟨reordered, hreordered, h⟩ := h
    obtain rfl := pure_ok_iff.1 h
    have hsame : reordered.sites = joined.sites ∧ reordered.leaves = joined.leaves := by
      rw [Table.reorderColumns, bind_ok_iff] at hreordered
      obtain ⟨positions, -, hreordered⟩ := hreordered
      simp only [↓reduceIte] at hreordered
      rw [pure_ok_iff] at hreordered
      split at hreordered
      · subst hreordered
        exact ⟨rfl, rfl⟩
      · subst hreordered
        exact sites_eq_of_tests_eq_nil joined rfl _ _
    have hsampled := sites_sampled (reordered.labelColumns (names.map ColumnName.unqualified))
      sample config.seed
    rw [hsampled.1, hsampled.2, ← hsame.1, ← hsame.2]
    -- labels are no part of the rows
    obtain ⟨name, delimiter, source, columns, steps, sorted⟩ := reordered
    exact ⟨rfl, rfl⟩
  | count name =>
    obtain ⟨hsites, hleaves⟩ := sites_sampled joined sample config.seed
    rw [finish] at h
    rw [← hsites, ← hleaves]
    cases name with
    | none =>
      obtain rfl := Except.ok.inj h
      exact sites_eq_of_tests_eq_nil _ rfl _ _
    | some n =>
      obtain ⟨q, -, rfl⟩ := map_ok_iff.1 h
      exact sites_eq_of_tests_eq_nil _ rfl _ _

/-- A condition with pinned columns that is tested at a site tells where the references it was
written with are rendered. -/
theorem Ordered.traced (p : Ordered s config catalog) {c c' : Condition} {site : Site}
    (hc : c.mapColumnsM (pin p.tables) = .ok c')
    (h : Placed (s.schema config catalog) p.places c' site)
    (hleaves : ∀ q x, site.provenance q x → x.1 ∈ site.leaves) :
    Traced (s.schema config catalog) p.tables (p.places.map (s.schema config catalog).nameAt) c
      site := by
  obtain ⟨ps, hps, hfiles, position, hrenders, hpinned⟩ := h
  refine ⟨_, hrenders.of_mapColumnsM hc, fun n hn => ?_⟩
  obtain ⟨n', hn', hpin⟩ := exists_right_of_forall₂ (Condition.forall₂_columns_of_mapColumnsM hc) hn
  obtain ⟨o, r, ho, huniq, hr, rfl⟩ := (p.opened.pin_ok_iff p.sound).1 hpin
  obtain ⟨o', ho', hcarried⟩ := hpinned _ hn'
  have hplaces : ∀ i ∈ p.places, i < (s.schema config catalog).length :=
    fun i hi => List.mem_range.1 (p.places_perm.mem_iff.1 hi)
  refine ⟨o.relation, r, o.field, hr, fun x => ⟨huniq x, fun hx => hx ▸ ho⟩, hpin, ?_⟩
  rw [← ho'.eq_iff p.sound hps hplaces ho hr, hpin]
  show site.provenance (position (n.within r.1.name)) (r.1.name, o.field) ↔ o' = o
  -- where the field comes from is a leaf up to the site, and there the name means one field only
  constructor
  · intro hprovenance
    have hmem := hfiles _ (hleaves _ _ hprovenance)
    have hrelation := p.sound.mem_of_mem_map_nameAt (fun i hi => hplaces i (hps.subset hi)) hr hmem
    exact (ho'.unique o (Schema.means_within ho hr) hrelation).symm
  · rintro rfl
    rwa [Schema.columnOf, Schema.nameAt_eq hr] at hcarried

/-- Every reference of the condition of a plan stands in a conjunct, and every conjunct is tested at
one site. There each of its references, which means one field of one relation, is rendered at a
position that carries this field exactly when every other relation that can take the reference
stands further right in the plan. -/
theorem forall₂_traced (h : table s config catalog = .ok t) :
    ∃ tables condition conjuncts, s.relations.mapM (openRelation config catalog) = .ok tables ∧
      Condition.ofTerms s.conditions = .ok condition ∧
      conjuncts.Perm (Condition.conjunctsOf condition) ∧
      (∀ c ∈ condition, ∀ n ∈ c.columns,
        ∃ d ∈ conjuncts, ∃ m ∈ d.columns, n.identical m = true) ∧
      t.leaves.Perm (s.relations.map Relation.name) ∧
      List.Forall₂ (Traced (s.schema config catalog) tables t.leaves) conjuncts t.sites := by
  obtain ⟨p, hfinish⟩ := table_ok_iff.1 h
  obtain ⟨es, leads, cs, hbuilt, hperm, -⟩ := p.exists_built
  obtain ⟨hsites, hleaves⟩ := sites_of_finish hfinish
  rw [hsites, hleaves, hbuilt.leaves_eq]
  -- the conjuncts in the order of the sites
  obtain ⟨conjuncts, hpinned, hconjuncts⟩ := List.perm_comp_forall₂ hperm p.pinned_ok.flip
  refine ⟨p.tables, p.condition, conjuncts, p.tables_ok, p.condition_ok, hconjuncts,
    fun c hc n hn => ?_, ?_, ?_⟩
  · have hread := p.condition_ok
    rw [Option.mem_def.1 hc] at hread hconjuncts
    obtain ⟨d, hd, m, hm, hidentical⟩ :=
      Condition.exists_identical_of_mem_columns (Condition.solid_of_ofTerms hread) hn
    exact ⟨d, hconjuncts.mem_iff.2 hd, m, hm, hidentical⟩
  · refine (p.places_perm.map _).trans (.of_eq ?_)
    rw [Schema.map_nameAt_range, ← s.map_fst_schema config catalog, List.map_map]
    rfl
  · have hbelow := (List.forall₂_and_left _ _).2
      ⟨p.joined.mem_leaves_of_mem_sites, hbuilt.forall₂_placed.flip⟩
    refine (forall₂_of_common hpinned hbelow.flip).imp ?_
    rintro c site ⟨c', -, hc, hbelow, hplaced⟩
    exact p.traced hc hplaced hbelow

/-- The second relation is named like the path of the third one, and both have a column `x`. -/
def pathForName : Statement where
  columns := ["s.k"]
  relations := [⟨"s.txt", some "s"⟩, ⟨"b.txt", some "a"⟩, ⟨"a", some "c"⟩]
  conditions := [.comparison "s.k" "=" "c.k2", .and, .comparison "c.m" "=" "b.txt.n", .and,
    .comparison "b.txt.x" "=" "1"]
  sample := none

def pathForNameCatalog : Catalog :=
  .ofList [("s.txt", ["k"]), ("b.txt", ["n", "x"]), ("a", ["k2", "m", "x"])]

/-- If the second relation is joined first, nothing can take its references. -/
theorem followed_pathForName : ∃ t condition conjuncts,
    table pathForName { weight := fun _ _ name => if name = "a" then 2 else 1 }
      pathForNameCatalog = .ok t ∧
    Condition.ofTerms pathForName.conditions = .ok condition ∧
    conjuncts.Perm (Condition.conjunctsOf condition) ∧
    List.Forall₂ (Followed (pathForName.schema {} pathForNameCatalog)) conjuncts t.sites := by
  obtain ⟨t, ht⟩ := isOk_iff.1 (show (table pathForName
    { weight := fun _ _ name => if name = "a" then 2 else 1 } pathForNameCatalog).isOk = true by
      decide +kernel)
  have hleaves : t.leaves = ["a", "c", "s"] := by
    have hsome : ((table pathForName { weight := fun _ _ name => if name = "a" then 2 else 1 }
        pathForNameCatalog).toOption.map Table.leaves) = some ["a", "c", "s"] := by decide +kernel
    rw [ht] at hsome
    exact Option.some.inj hsome
  obtain ⟨tables, condition, conjuncts, -, hread, hperm, -, -, htraced⟩ := forall₂_traced ht
  refine ⟨t, condition, conjuncts, ht, hread, hperm, htraced.imp fun c site hc => hc.followed ?_⟩
  -- no relation is joined behind the one whose path is the name of another
  rw [hleaves]
  decide +kernel

/-- If it is joined last, the third relation takes the reference `b.txt.x`: the filter is made on
its rows, and no field of these carries the column. -/
theorem not_followed_pathForName : ∃ t, table pathForName {} pathForNameCatalog = .ok t ∧
    ∀ condition conjuncts, Condition.ofTerms pathForName.conditions = .ok condition →
      conjuncts.Perm (Condition.conjunctsOf condition) →
      ¬List.Forall₂ (Followed (pathForName.schema {} pathForNameCatalog)) conjuncts t.sites := by
  obtain ⟨t, ht⟩ := isOk_iff.1 (show (table pathForName {} pathForNameCatalog).isOk = true by
    decide +kernel)
  have hsites : t.sites.map (fun site => (Formula.atom? site.test, site.leaves)) =
      [(some (.compare (.field 2) .eq (.constant "1")), ["c"]),
        (some (.compare (.field 0) .eq (.field 1)), ["s", "c"]),
        (some (.compare (.field 1) .eq (.field 3)), ["s", "c", "a"])] := by
    have hsome : ((table pathForName {} pathForNameCatalog).toOption.map fun t =>
        t.sites.map fun site => (Formula.atom? site.test, site.leaves)) =
        some [(some (.compare (.field 2) .eq (.constant "1")), ["c"]),
          (some (.compare (.field 0) .eq (.field 1)), ["s", "c"]),
          (some (.compare (.field 1) .eq (.field 3)), ["s", "c", "a"])] := by decide +kernel
    rw [ht] at hsome
    exact Option.some.inj hsome
  obtain ⟨n, c, hread, hmem, hmeans⟩ : ∃ (n : ColumnName) (c : Condition),
      Condition.ofTerms pathForName.conditions = .ok (some c) ∧
      .atom ⟨.column n, .eq, .literal "1"⟩ ∈ c.cnf ∧
      (pathForName.schema {} pathForNameCatalog).means n ⟨1, 1⟩ = true :=
    ⟨_, _, rfl, .tail _ (.tail _ (.head _)), by decide +kernel⟩
  refine ⟨t, ht, fun condition conjuncts hread' hperm hfollowed => ?_⟩
  obtain rfl := Except.ok.inj (hread.symm.trans hread')
  obtain ⟨site, hsite, position, hrenders, hcolumns⟩ :=
    exists_right_of_forall₂ hfollowed (hperm.mem_iff.2 hmem)
  -- the only test with a constant is made on the rows of the third relation
  have htest : site.test = .atom (.compare (.field (position n)) .eq (.constant "1")) := by
    rcases hrenders with htest | ⟨l, r, heq, -⟩
    · exact (Except.ok.inj htest).symm
    · cases heq
  have hleaves : site.leaves = ["c"] := by
    have hpair := List.mem_map_of_mem
      (f := fun site => (Formula.atom? site.test, site.leaves)) hsite
    rw [hsites, htest] at hpair
    simp only [Formula.atom?, List.mem_cons, Prod.mk.injEq, Option.some.injEq,
      Awk.FieldTest.compare.injEq, reduceCtorEq, and_false, false_and, List.not_mem_nil,
      or_false] at hpair
    exact hpair.2
  obtain ⟨i, r, p, hr, hmeans', hcarried⟩ := hcolumns n List.mem_cons_self
  obtain ⟨rfl, rfl⟩ := Origin.mk.inj ((hmeans' ⟨1, 1⟩).1 hmeans)
  obtain rfl := Option.some.inj hr
  have hname := t.mem_leaves_of_mem_sites site hsite _ _ hcarried
  rw [hleaves, List.mem_singleton] at hname
  exact absurd hname (by decide)

end Query

end ShellQuery
