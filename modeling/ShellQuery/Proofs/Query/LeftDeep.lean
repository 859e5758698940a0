import ShellQuery.Proofs.Condition
import ShellQuery.Proofs.Query.Location
import ShellQuery.Proofs.Table.JoinLayout

/-!
# Joining the relations one after the other

`Built` describes the tables of a left-deep tree: the first relation, filtered, and then one
relation after the other, filtered, joined and filtered again. Along with a table it tells which
conditions have been applied, and each of them was rendered at positions where its fields stand.

* `Built.laid`: such a table is laid out;
* `built_of_leftDeep`: what the planner joins is built so, and it applies all staged conditions;
* `exists_leftDeep`: if every stage after the first has an equality that reaches back, and all its
  equalities do, nothing can fail.
-/

namespace ShellQuery

/-! ### Pinned references -/

/-- Among the relations at `ps` the reference means exactly the field `o`. -/
structure PinnedIn (sch : Schema) (ps : List Nat) (n : ColumnName) (o : Origin) : Prop where
  means : sch.means n o = true
  mem : o.relation ∈ ps
  unique : ∀ o', sch.means n o' = true → o'.relation ∈ ps → o' = o

section

variable {sch : Schema} {ps ps' : List Nat} {es es' : List (Origin × Origin)}
  {leads leads' : List Origin} {t : Table} {n : ColumnName} {o : Origin}

/-- A pinned reference that is found is found where its field stands. -/
theorem PinnedIn.stands (h : PinnedIn sch ps n o) (hlaid : Laid sch ps' es leads t)
    (hsub : ∀ i ∈ ps', i ∈ ps) {q : Nat} (hq : t.tryResolve n = .ok (some q)) :
    Stands es leads q o := by
  obtain ⟨a, o', ha, hao, ho', hmem⟩ := hlaid.exists_of_tryResolve hq
  obtain rfl := h.unique o' ho' (hsub _ hmem)
  exact ⟨a, ha, hao⟩

/-- A pinned name is found on a table that has the relation of its field. -/
theorem PinnedIn.exists_tryResolve (h : PinnedIn sch ps n o) (hlaid : Laid sch ps' es leads t)
    (hsub : ∀ i ∈ ps', i ∈ ps) (hmem : o.relation ∈ ps') :
    ∃ q, t.tryResolve n = .ok (some q) := by
  obtain ⟨q, -, -, -, hq⟩ := hlaid.tryResolve_of_unique h.means hmem fun o' ho' hmem' =>
    h.unique o' ho' (hsub _ hmem')
  exact ⟨q, hq⟩

theorem PinnedIn.tryResolve_none (h : PinnedIn sch ps n o) (hlaid : Laid sch ps' es leads t)
    (hsub : ∀ i ∈ ps', i ∈ ps) (hmem : o.relation ∉ ps') : t.tryResolve n = .ok none :=
  hlaid.tryResolve_of_none fun o' ho' hmem' =>
    hmem (h.unique o' ho' (hsub _ hmem') ▸ hmem')

/-- The test that a condition becomes where its columns, pinned among the relations at `ps`, are
replaced by positions at which their fields stand. -/
def Rendered (sch : Schema) (ps : List Nat) (es : List (Origin × Origin)) (leads : List Origin)
    (c : Condition) (test : Awk.RowTest) : Prop :=
  ∃ position : ColumnName → Nat,
    Condition.resolve (fun n => (.ok (position n) : Except PlanError Nat)) c = .ok test ∧
    ∀ n ∈ c.columns, ∃ o, PinnedIn sch ps n o ∧ Stands es leads (position n) o

/-- The comparison is an equality of columns that are pinned to the two fields, in either order. -/
def EquatesIn (sch : Schema) (ps : List Nat) (c : Comparison) (e : Origin × Origin) : Prop :=
  ∃ l r, c = ⟨.column l, .eq, .column r⟩ ∧
    ((PinnedIn sch ps l e.1 ∧ PinnedIn sch ps r e.2) ∨
      (PinnedIn sch ps l e.2 ∧ PinnedIn sch ps r e.1))

theorem EquatesIn.mem {c : Comparison} {e : Origin × Origin} (h : EquatesIn sch ps c e) :
    e.1.relation ∈ ps ∧ e.2.relation ∈ ps := by
  obtain ⟨l, r, -, ⟨hl, hr⟩ | ⟨hl, hr⟩⟩ := h
  · exact ⟨hl.mem, hr.mem⟩
  · exact ⟨hr.mem, hl.mem⟩

/-- The pair of keys that an equality of pinned columns becomes, and the equality of fields that it
stands for: the first field is one of the left table, the second one of the right table. -/
structure Keyed (sch : Schema) (ps : List Nat) (es es' : List (Origin × Origin))
    (leads leads' : List Origin) (c : Comparison) (k : (Nat × Nat) × (Origin × Origin)) :
    Prop where
  left : Stands es leads k.1.1 k.2.1
  right : Stands es' leads' k.1.2 k.2.2
  columns : EquatesIn sch ps c k.2

/-- Every column of the condition means exactly one field of the relations at `ps`. -/
def AllPinned (sch : Schema) (ps : List Nat) (c : Condition) : Prop :=
  ∀ n ∈ c.columns, ∃ o, PinnedIn sch ps n o

/-- Conditions that can be resolved on a table are rendered there. -/
theorem forall₂_rendered (hlaid : Laid sch ps' es leads t) (hsub : ∀ i ∈ ps', i ∈ ps)
    {cs : List Condition} {tests : List Awk.RowTest} (hpinned : ∀ c ∈ cs, AllPinned sch ps c)
    (h : List.Forall₂ (fun c test => Condition.resolve t.resolve c = .ok test) cs tests) :
    List.Forall₂ (Rendered sch ps es leads) cs tests := by
  induction h with
  | nil => exact .nil
  | @cons c test _ _ hc _ ih =>
    refine .cons ?_ (ih fun c' hc' => hpinned c' (List.mem_cons_of_mem _ hc'))
    have hfound := Condition.exists_resolve_iff.1 ⟨test, hc⟩
    -- outside of the condition's columns the position does not matter
    let position : ColumnName → Nat := fun n => (t.resolve n).toOption.getD 0
    have hposition : ∀ n ∈ c.columns, t.resolve n = .ok (position n) := by
      intro n hn
      obtain ⟨q, hq⟩ := hfound n hn
      simp only [position, hq, Except.toOption, Option.getD_some]
    refine ⟨position, by rw [← hc]; exact Condition.resolve_congr fun n hn => (hposition n hn).symm,
      fun n hn => ?_⟩
    obtain ⟨o, ho⟩ := hpinned c List.mem_cons_self n hn
    exact ⟨o, ho, ho.stands hlaid hsub (Table.resolve_eq_ok_iff.1 (hposition n hn))⟩

/-- Conditions whose columns are pinned to relations of the table can be resolved on it. -/
theorem exists_filterRows (hlaid : Laid sch ps es leads t) {cs : List Condition}
    (hpinned : ∀ c ∈ cs, AllPinned sch ps c) : ∃ t', t.filterRows cs = .ok t' := by
  have hresolve : ∀ c ∈ cs, ∃ test, Condition.resolve t.resolve c = .ok test := by
    refine fun c hc => Condition.exists_resolve_iff.2 fun n hn => ?_
    obtain ⟨o, ho⟩ := hpinned c hc n hn
    obtain ⟨q, hq⟩ := ho.exists_tryResolve hlaid (fun _ => id) ho.mem
    exact ⟨q, Table.resolve_eq_ok_iff.2 hq⟩
  obtain ⟨tests, htests⟩ := exists_mapM_ok hresolve
  exact ⟨_, Table.filterRows_ok_iff.2 ⟨tests, mapM_ok_iff.1 htests, rfl⟩⟩

end

/-! ### Left-deep trees -/

/-- A table of the relations at `ps`, joined on the fields `es` and led by the fields `leads`, to
which exactly the conditions `cs` have been applied. -/
inductive Built (sch : Schema) : List Nat → List (Origin × Origin) → List Origin →
    List Condition → Table → Prop
  | first {d : Char} {i : Nat} {r : Relation × List String} {t : Table} {cs : List Condition}
      {tests : List Awk.RowTest} (hr : sch[i]? = some r) (ht : Opens d r t)
      (htests : List.Forall₂ (Rendered sch [i] [] (Schema.fieldsOf i r)) cs tests) :
      Built sch [i] [] (Schema.fieldsOf i r) cs (t.filterBy tests)
  | join {ps : List Nat} {es : List (Origin × Origin)} {leads : List Origin} {cs : List Condition}
      {result : Table} {d : Char} {i : Nat} {r : Relation × List String} {t : Table}
      {before after : List Condition} {tests tests' : List Awk.RowTest} {joins : List Comparison}
      {key : (Nat × Nat) × (Origin × Origin)} {keys : List ((Nat × Nat) × (Origin × Origin))}
      {name : String} (h : Built sch ps es leads cs result) (hi : i ∉ ps)
      (hr : sch[i]? = some r) (ht : Opens d r t)
      (hbefore : List.Forall₂ (Rendered sch (ps ++ [i]) [] (Schema.fieldsOf i r)) before tests)
      (hkeys : List.Forall₂ (Keyed sch (ps ++ [i]) es [] leads (Schema.fieldsOf i r)) joins
        (key :: keys))
      (hafter : List.Forall₂ (Rendered sch (ps ++ [i]) (es ++ (key :: keys).map (·.2))
        (joinLeads leads (Schema.fieldsOf i r) ((key :: keys).map (·.1)))) after tests') :
      Built sch (ps ++ [i]) (es ++ (key :: keys).map (·.2))
        (joinLeads leads (Schema.fieldsOf i r) ((key :: keys).map (·.1)))
        (cs ++ (before ++ joins.map .atom ++ after))
        ((Table.joinTable result (t.filterBy tests) key.1 (keys.map (·.1)) name).filterBy tests')

section

variable {sch : Schema} {ps : List Nat} {es : List (Origin × Origin)} {leads : List Origin}
  {cs : List Condition} {t result : Table}

/-- The keys of equalities stand where the fields that they equate do. -/
theorem keysMatch_of_keyed {ps' : List Nat} {es' : List (Origin × Origin)} {leads' : List Origin}
    {joins : List Comparison} {keys : List ((Nat × Nat) × (Origin × Origin))}
    (h : List.Forall₂ (Keyed sch ps' es es' leads leads') joins keys) :
    KeysMatch es es' leads leads' (keys.map (·.1)) (keys.map (·.2)) := by
  induction h with
  | nil => exact .nil
  | cons hk _ ih => exact .cons ⟨hk.left, hk.right⟩ ih

/-- A laid table and a filtered relation that is not in it are the sides of a join. -/
theorem sides_of_laid (h : Laid sch ps es leads result) {i : Nat} (hi : i ∉ ps) {d : Char}
    {r : Relation × List String} (hr : sch[i]? = some r) (ht : Opens d r t)
    (tests : List Awk.RowTest) :
    Sides sch ps [i] es [] leads (Schema.fieldsOf i r) result (t.filterBy tests) :=
  ⟨h, (ht.laid hr).of_columns_eq (Table.columns_filterBy t tests),
    fun _ hj hij => hi (List.mem_singleton.1 hij ▸ hj)⟩

theorem Built.laid (h : Built sch ps es leads cs t) : Laid sch ps es leads t := by
  induction h with
  | first hr ht htests => exact (ht.laid hr).of_columns_eq (Table.columns_filterBy _ _)
  | @join _ _ _ _ _ _ _ _ _ _ _ tests _ _ _ _ name _ hi hr ht _ hkeys _ ih =>
    have hlaid := (sides_of_laid ih hi hr ht tests).laid_joinTable name (keysMatch_of_keyed hkeys)
    rw [List.append_nil] at hlaid
    exact hlaid.of_columns_eq (Table.columns_filterBy _ _)

/-- Fields are equated only by conditions that have been applied, and only across relations. -/
theorem Built.exists_equatesIn (h : Built sch ps es leads cs t) {e : Origin × Origin}
    (he : e ∈ es) : ∃ ps' c, .atom c ∈ cs ∧ EquatesIn sch ps' c e ∧
      e.1.relation ≠ e.2.relation := by
  induction h with
  | first => exact absurd he List.not_mem_nil
  | @join ps _ _ _ _ _ i _ _ _ _ _ _ _ _ _ _ h hi hr ht _ hkeys _ ih =>
    rcases List.mem_append.1 he with he | he
    · obtain ⟨ps', c, hc, hequates⟩ := ih he
      exact ⟨ps', c, List.mem_append_left _ hc, hequates⟩
    · obtain ⟨k, hk, rfl⟩ := List.mem_map.1 he
      obtain ⟨c, hc, hkeyed⟩ := exists_left_of_forall₂ hkeys hk
      refine ⟨_, c, ?_, hkeyed.columns, fun heq => hi ?_⟩
      · exact List.mem_append_right _ (List.mem_append_left _ (List.mem_append_right _
          (List.mem_map_of_mem hc)))
      · have hleft := h.laid.stands_mem hkeyed.left
        have hright := (ht.laid hr).stands_mem hkeyed.right
        rwa [heq, List.mem_singleton.1 hright] at hleft

/-- Where relations are joined, each of them has a field that it is joined by. -/
theorem Built.exists_field (h : Built sch ps es leads cs t) (hmany : ps.length ≠ 1) {i : Nat}
    (hi : i ∈ ps) : ∃ o ∈ sch.origins, o.relation = i := by
  induction h with
  | first => simp at hmany
  | @join ps _ leads _ _ _ j r _ _ _ _ _ _ _ _ _ h _ hr ht _ hkeys _ ih =>
    obtain ⟨c, -, hkeyed, -, -⟩ := List.forall₂_cons_right_iff.1 hkeys
    obtain ⟨a, ha, -⟩ := hkeyed.left
    obtain ⟨b, hb, -⟩ := hkeyed.right
    obtain ⟨hao, hps⟩ := h.laid.mem_of_lead a (List.mem_of_getElem? ha)
    obtain ⟨hbo, hj⟩ := (ht.laid hr).mem_of_lead b (List.mem_of_getElem? hb)
    rcases List.mem_append.1 hi with hi | hi
    · by_cases hone : ps.length = 1
      · obtain ⟨k, rfl⟩ := List.length_eq_one_iff.1 hone
        exact ⟨a, hao, (List.mem_singleton.1 hps).trans (List.mem_singleton.1 hi).symm⟩
      · exact ih hone hi
    · exact ⟨b, hbo, (List.mem_singleton.1 hj).trans (List.mem_singleton.1 hi).symm⟩

/-- The stages of a left-deep tree behind the relations at `ps`: opened relations at further places,
each with equalities and conditions whose columns are pinned by then. -/
def Staged (sch : Schema) : List Nat → List Nat →
    List (Table × List Condition × List Condition) → Prop
  | _, [], [] => True
  | ps, i :: is, (t, joins, filters) :: rest =>
    OpenedAt sch i t ∧ i ∉ ps ∧ (∀ c ∈ joins ++ filters, AllPinned sch (ps ++ [i]) c) ∧
      (∃ cs : List Comparison, joins = cs.map .atom) ∧ Staged sch (ps ++ [i]) is rest
  | _, _, _ => False

/-- All the conditions of some stages. -/
def stagedConditions (stages : List (Table × List Condition × List Condition)) : List Condition :=
  stages.flatMap fun s => s.2.1 ++ s.2.2

theorem stagedConditions_cons (s : Table × List Condition × List Condition)
    (stages : List (Table × List Condition × List Condition)) :
    stagedConditions (s :: stages) = s.2.1 ++ s.2.2 ++ stagedConditions stages :=
  List.flatMap_cons

/-- A stage filters the relation by what it can, joins it and applies the other filters. -/
theorem joinStage_ok_iff {t' : Table} {joins filters : List Condition} {number : Nat} :
    Query.joinStage result t joins filters number = .ok t' ↔ ∃ t₁ t₂,
      t.filterRows (filters.filter fun c => c.columns.all t.resolves) = .ok t₁ ∧
      result.mergeJoin t₁ (joins.filterMap Formula.atom?) ("join_" ++ toString number) = .ok t₂ ∧
      t₂.filterRows (filters.filter fun c => !c.columns.all t.resolves) = .ok t' := by
  rw [Query.joinStage, List.partition_eq_filter_filter]
  simp only [bind_ok_iff, exists_and_left]
  rfl

/-- An equality with a pair of keys is keyed. -/
theorem keyed_of_keyPair {ps' : List Nat} {es' : List (Origin × Origin)} {leads' : List Origin}
    {right : Table} (hsides : Sides sch ps ps' es es' leads leads' result right) {c : Comparison}
    (hpinned : AllPinned sch (ps ++ ps') (.atom c)) {p : Nat × Nat}
    (h : Table.keyPair result right c = .ok p) :
    ∃ e, Keyed sch (ps ++ ps') es es' leads leads' c (p, e) := by
  obtain ⟨l, r⟩ := p
  obtain ⟨a, b, ha, hb, ho, h⟩ := Table.keyPair_ok_iff.1 h
  have hc : c = ⟨.column a, .eq, .column b⟩ := by
    obtain ⟨x, op, y⟩ := c
    simp only at ha hb ho
    rw [ha, hb, ho]
  have hmem : ∀ n, n = a ∨ n = b → n ∈ Condition.columns (.atom c) := by
    intro n hn
    rw [Condition.mem_columns_iff]
    refine ⟨c, by simp, Comparison.mem_columns_iff.2 ?_⟩
    rcases hn with rfl | rfl
    · exact .inl ha
    · exact .inr hb
  obtain ⟨oa, hoa⟩ := hpinned a (hmem a (.inl rfl))
  obtain ⟨ob, hob⟩ := hpinned b (hmem b (.inr rfl))
  have hleft : ∀ i ∈ ps, i ∈ ps ++ ps' := fun i hi => List.mem_append_left _ hi
  have hright : ∀ i ∈ ps', i ∈ ps ++ ps' := fun i hi => List.mem_append_right _ hi
  -- the equality may be written either way round
  rcases h with ⟨hla, -, -, hrb⟩ | ⟨-, hra, hlb, -⟩
  · exact ⟨(oa, ob), hoa.stands hsides.left hleft hla, hob.stands hsides.right hright hrb, a, b, hc,
      .inl ⟨hoa, hob⟩⟩
  · exact ⟨(ob, oa), hob.stands hsides.left hleft hlb, hoa.stands hsides.right hright hra, a, b, hc,
      .inr ⟨hoa, hob⟩⟩

/-- Equalities with pairs of keys are keyed by these pairs. -/
theorem exists_keyed_of_keyPairs {ps' : List Nat} {es' : List (Origin × Origin)}
    {leads' : List Origin} {right : Table}
    (hsides : Sides sch ps ps' es es' leads leads' result right) {joins : List Comparison}
    (hpinned : ∀ c ∈ joins, AllPinned sch (ps ++ ps') (.atom c)) {pairs : List (Nat × Nat)}
    (h : List.Forall₂ (fun c p => Table.keyPair result right c = .ok p) joins pairs) :
    ∃ keys, List.Forall₂ (Keyed sch (ps ++ ps') es es' leads leads') joins keys ∧
      keys.map (·.1) = pairs := by
  induction h with
  | nil => exact ⟨[], .nil, rfl⟩
  | @cons c p _ _ hp _ ih =>
    obtain ⟨keys, hkeys, hfst⟩ := ih fun c' hc' => hpinned c' (List.mem_cons_of_mem _ hc')
    obtain ⟨e, he⟩ := keyed_of_keyPair hsides (hpinned c List.mem_cons_self) hp
    exact ⟨(p, e) :: keys, .cons he hkeys, by rw [List.map_cons, hfst]⟩

theorem filterMap_atom?_map_atom (joins : List Comparison) :
    (joins.map Formula.atom).filterMap Formula.atom? = joins := by
  rw [List.filterMap_map]
  exact List.filterMap_some

open scoped List in
/-- One more stage of a left-deep tree is built as `Built` says. -/
theorem Built.of_joinStage (h : Built sch ps es leads cs result) {i : Nat} (hi : i ∉ ps)
    (hopened : OpenedAt sch i t) {joins : List Comparison} {filters : List Condition}
    (hpinned : ∀ c ∈ joins.map .atom ++ filters, AllPinned sch (ps ++ [i]) c) {number : Nat}
    {t' : Table} (hok : Query.joinStage result t (joins.map .atom) filters number = .ok t') :
    ∃ es' leads' cs', Built sch (ps ++ [i]) es' leads' cs' t' ∧
      cs'.Perm (cs ++ (joins.map .atom ++ filters)) ∧ (∀ e ∈ es, e ∈ es') ∧
      ∀ c ∈ joins, ∃ e ∈ es', EquatesIn sch (ps ++ [i]) c e := by
  obtain ⟨d, r, hr, ht⟩ := hopened.exists_opens
  obtain ⟨t₁, t₂, hbefore, hjoin, hafter⟩ := joinStage_ok_iff.1 hok
  have hfilter : ∀ c ∈ filters, AllPinned sch (ps ++ [i]) c :=
    fun c hc => hpinned c (List.mem_append_right _ hc)
  -- the filters before the join are rendered on the new table alone
  obtain ⟨tests, htests, rfl⟩ := Table.filterRows_ok_iff.1 hbefore
  have hrendered := forall₂_rendered (ht.laid hr) (fun j hj => List.mem_append_right ps hj)
    (fun c hc => hfilter c (List.mem_filter.1 hc).1) htests
  -- the equalities become pairs of keys
  have hsides := sides_of_laid h.laid hi hr ht tests
  obtain ⟨key, more, hpairs, rfl⟩ := Table.mergeJoin_ok_iff.1 hjoin
  rw [filterMap_atom?_map_atom, mapM_ok_iff] at hpairs
  obtain ⟨keys, hkeys, hfst⟩ := exists_keyed_of_keyPairs hsides
    (fun c hc => hpinned _ (List.mem_append_left _ (List.mem_map_of_mem hc))) hpairs
  cases keys with
  | nil => simp at hfst
  | cons k ks =>
    obtain ⟨rfl, rfl⟩ := List.cons.inj hfst
    have hlaid := hsides.laid_joinTable ("join_" ++ toString number) (keysMatch_of_keyed hkeys)
    rw [List.append_nil] at hlaid
    -- and the other filters are rendered on the result
    obtain ⟨tests', htests', rfl⟩ := Table.filterRows_ok_iff.1 hafter
    have hrendered' := forall₂_rendered hlaid (fun _ => id)
      (fun c hc => hfilter c (List.mem_filter.1 hc).1) htests'
    refine ⟨_, _, _, .join h hi hr ht hrendered hkeys hrendered', List.Perm.append_left cs ?_,
      fun e he => List.mem_append_left _ he, fun c hc => ?_⟩
    · calc filters.filter (fun c => c.columns.all t.resolves) ++ joins.map .atom ++
              filters.filter (fun c => !c.columns.all t.resolves)
          ~ joins.map .atom ++ filters.filter (fun c => c.columns.all t.resolves) ++
              filters.filter (fun c => !c.columns.all t.resolves) :=
            List.perm_append_comm.append_right _
        _ = joins.map .atom ++ (filters.filter (fun c => c.columns.all t.resolves) ++
              filters.filter (fun c => !c.columns.all t.resolves)) := List.append_assoc _ _ _
        _ ~ joins.map .atom ++ filters := (List.filter_append_perm _ filters).append_left _
    · obtain ⟨k', hk', hkeyed⟩ := exists_right_of_forall₂ hkeys hc
      exact ⟨k'.2, List.mem_append_right _ (List.mem_map_of_mem hk'), hkeyed.columns⟩

/-- Further stages of a left-deep tree are built as `Built` says, behind a table that is built
already. -/
theorem Built.of_joinStages {rest : List (Table × List Condition × List Condition)}
    {places : List Nat} (h : Built sch ps es leads cs result) (hstaged : Staged sch ps places rest)
    {number : Nat} {joined : Table}
    (hok : (rest.zipIdx number).foldlM
      (fun result s => Query.joinStage result s.1.1 s.1.2.1 s.1.2.2 s.2) result = .ok joined) :
    ∃ es' leads' cs', Built sch (ps ++ places) es' leads' cs' joined ∧
      cs'.Perm (cs ++ stagedConditions rest) ∧ (∀ e ∈ es, e ∈ es') ∧
      ∀ st ∈ rest, ∀ c, .atom c ∈ st.2.1 → ∃ ps, ∃ e ∈ es', EquatesIn sch ps c e := by
  -- on the stages that are left; one stage moves its relation, equalities and conditions over
  induction rest generalizing places ps es leads cs result number with
  | nil =>
    cases places with
    | cons => exact hstaged.elim
    | nil =>
      obtain rfl := pure_ok_iff.1 hok
      refine ⟨es, leads, cs, by rwa [List.append_nil], ?_, fun _ => id,
        fun _ hst => absurd hst List.not_mem_nil⟩
      rw [stagedConditions, List.flatMap_nil, List.append_nil]
  | cons s rest ih =>
    obtain ⟨t, joins, filters⟩ := s
    cases places with
    | nil => exact hstaged.elim
    | cons i places =>
      obtain ⟨hopened, hi, hpinned, ⟨joins, rfl⟩, hstaged⟩ := hstaged
      rw [List.zipIdx_cons, List.foldlM_cons, bind_ok_iff] at hok
      obtain ⟨next, hnext, hok⟩ := hok
      obtain ⟨es₁, leads₁, cs₁, hbuilt₁, hperm₁, hkeep₁, hequates₁⟩ :=
        h.of_joinStage hi hopened hpinned hnext
      obtain ⟨es₂, leads₂, cs₂, hbuilt₂, hperm₂, hkeep₂, hequates₂⟩ := ih hbuilt₁ hstaged hok
      refine ⟨es₂, leads₂, cs₂, by rwa [List.append_assoc] at hbuilt₂, hperm₂.trans ?_,
        fun e he => hkeep₂ e (hkeep₁ e he), List.forall_mem_cons.2 ⟨fun c hc => ?_, hequates₂⟩⟩
      · rw [stagedConditions_cons, ← List.append_assoc]
        exact hperm₁.append_right _
      · -- what this stage equates stays equated
        obtain ⟨c', hc', heq⟩ := List.mem_map.1 hc
        obtain ⟨e, he, hequates⟩ := hequates₁ c' hc'
        exact ⟨_, e, hkeep₂ e he, Formula.atom.inj heq ▸ hequates⟩

/-- What is joined stage by stage is built as `Built` says. All conditions are applied, and the
equalities of all stages but the first equate fields. -/
theorem built_of_leftDeep {places : List Nat}
    {stages : List (Table × List Condition × List Condition)}
    (hstaged : Staged sch [] places stages) {joined : Table}
    (hok : Query.leftDeep stages = .ok joined) :
    ∃ es leads cs, Built sch places es leads cs joined ∧ cs.Perm (stagedConditions stages) ∧
      ∀ st ∈ stages.tail, ∀ c, .atom c ∈ st.2.1 → ∃ ps, ∃ e ∈ es, EquatesIn sch ps c e := by
  cases stages with
  | nil => simp [Query.leftDeep] at hok
  | cons s rest =>
    obtain ⟨t, joins, filters⟩ := s
    cases places with
    | nil => exact hstaged.elim
    | cons i places =>
      obtain ⟨hopened, -, hpinned, -, hstaged⟩ := hstaged
      rw [Query.leftDeep, bind_ok_iff] at hok
      obtain ⟨first, hfirst, hok⟩ := hok
      obtain ⟨d, r, hr, ht⟩ := hopened.exists_opens
      obtain ⟨tests, htests, rfl⟩ := Table.filterRows_ok_iff.1 hfirst
      -- the first stage has nothing to join, so its equalities are tests too
      have hrendered := forall₂_rendered (ht.laid hr) (fun _ => id)
        (fun c hc => hpinned c (List.perm_append_comm.mem_iff.1 hc)) htests
      obtain ⟨es, leads, cs, hbuilt, hperm, -, hequates⟩ :=
        Built.of_joinStages (.first hr ht hrendered) hstaged hok
      refine ⟨es, leads, cs, hbuilt, hperm.trans ?_, hequates⟩
      rw [stagedConditions_cons]
      exact List.perm_append_comm.append_right _

/-! ### Trees that can be built -/

/-- The comparison is an equality between a field of the relations at `ps` and one of the relation
at `i`. -/
def Crosses (sch : Schema) (ps : List Nat) (i : Nat) (c : Comparison) : Prop :=
  ∃ l r a b, c = ⟨.column l, .eq, .column r⟩ ∧ PinnedIn sch (ps ++ [i]) l a ∧
    PinnedIn sch (ps ++ [i]) r b ∧
    ((a.relation ∈ ps ∧ b.relation = i) ∨ (a.relation = i ∧ b.relation ∈ ps))

/-- Every stage has an equality, and all its equalities reach back to the relations before it. -/
def Reaching (sch : Schema) : List Nat → List Nat →
    List (Table × List Condition × List Condition) → Prop
  | _, [], _ => True
  | ps, i :: is, (_, joins, _) :: rest =>
    joins ≠ [] ∧ (∀ c : Comparison, .atom c ∈ joins → Crosses sch ps i c) ∧
      Reaching sch (ps ++ [i]) is rest
  | _, _, [] => True

/-- The columns of an equality across relations are pinned. -/
theorem Crosses.allPinned {i : Nat} {c : Comparison} (h : Crosses sch ps i c) :
    AllPinned sch (ps ++ [i]) (.atom c) := by
  obtain ⟨l, r, a, b, rfl, ha, hb, -⟩ := h
  intro n hn
  rcases List.mem_pair.1 hn with rfl | rfl
  · exact ⟨a, ha⟩
  · exact ⟨b, hb⟩

/-- An equality across the two sides of a join gives a pair of keys. -/
theorem exists_keyPair {i : Nat} (hi : i ∉ ps) {es' : List (Origin × Origin)}
    {leads' : List Origin} {right : Table}
    (hsides : Sides sch ps [i] es es' leads leads' result right) {c : Comparison}
    (hc : Crosses sch ps i c) : ∃ p, Table.keyPair result right c = .ok p := by
  obtain ⟨l, r, a, b, rfl, ha, hb, hside⟩ := hc
  have hps : ∀ j ∈ ps, j ∈ ps ++ [i] := fun j hj => List.mem_append_left _ hj
  have hnew : ∀ j ∈ [i], j ∈ ps ++ [i] := fun j hj => List.mem_append_right _ hj
  -- a field of one side is found there and not on the other side
  have hnot : ∀ {o : Origin}, o.relation ∈ ps → o.relation ∉ [i] :=
    fun ho heq => hi (List.mem_singleton.1 heq ▸ ho)
  rcases hside with ⟨hmem, hnewb⟩ | ⟨hnewa, hmem⟩
  · have hnewb' : b.relation ∈ [i] := List.mem_singleton.2 hnewb
    obtain ⟨p, hp⟩ := ha.exists_tryResolve hsides.left hps hmem
    obtain ⟨q, hq⟩ := hb.exists_tryResolve hsides.right hnew hnewb'
    refine ⟨(p, q), Table.keyPair_ok_iff.2 ⟨l, r, rfl, rfl, rfl, .inl ⟨hp, ?_, ?_, hq⟩⟩⟩
    · exact ha.tryResolve_none hsides.right hnew (hnot hmem)
    · exact hb.tryResolve_none hsides.left hps (hnewb ▸ hi)
  · have hnewa' : a.relation ∈ [i] := List.mem_singleton.2 hnewa
    obtain ⟨p, hp⟩ := hb.exists_tryResolve hsides.left hps hmem
    obtain ⟨q, hq⟩ := ha.exists_tryResolve hsides.right hnew hnewa'
    refine ⟨(p, q), Table.keyPair_ok_iff.2 ⟨l, r, rfl, rfl, rfl, .inr ⟨?_, hq, hp, ?_⟩⟩⟩
    · exact ha.tryResolve_none hsides.left hps (hnewa ▸ hi)
    · exact hb.tryResolve_none hsides.right hnew (hnot hmem)

/-- A stage whose equalities reach back can be joined. -/
theorem Built.exists_joinStage (h : Built sch ps es leads cs result) {i : Nat} (hi : i ∉ ps)
    (hopened : OpenedAt sch i t) {joins : List Comparison} {filters : List Condition}
    (hpinned : ∀ c ∈ filters, AllPinned sch (ps ++ [i]) c) (hne : joins ≠ [])
    (hcrosses : ∀ c ∈ joins, Crosses sch ps i c) (number : Nat) :
    ∃ t', Query.joinStage result t (joins.map .atom) filters number = .ok t' := by
  obtain ⟨d, r, hr, ht⟩ := hopened.exists_opens
  -- what is tested before the join resolves on the new table by choice
  obtain ⟨tests, htests⟩ : ∃ tests, (filters.filter fun c => c.columns.all t.resolves).mapM
      (Condition.resolve t.resolve) = .ok tests := by
    refine exists_mapM_ok fun c hc => Condition.exists_resolve_iff.2 fun n hn => ?_
    have hall := (List.mem_filter.1 hc).2
    obtain ⟨q, hq⟩ := Table.resolves_eq_true_iff.1 (List.all_eq_true.1 hall n hn)
    exact ⟨q, Table.resolve_eq_ok_iff.2 hq⟩
  have hbefore := Table.filterRows_ok_iff.2 ⟨tests, mapM_ok_iff.1 htests, rfl⟩
  have hsides := sides_of_laid h.laid hi hr ht tests
  obtain ⟨pairs, hpairs⟩ := exists_mapM_ok fun c hc => exists_keyPair hi hsides (hcrosses c hc)
  obtain ⟨key, more, rfl⟩ : ∃ key more, pairs = key :: more := by
    refine List.exists_cons_of_ne_nil fun hnil => hne ?_
    have hlength := (mapM_ok_iff.1 hpairs).length_eq
    rw [hnil, List.length_nil] at hlength
    exact List.length_eq_zero_iff.1 hlength
  have hjoin := Table.mergeJoin_ok_iff.2 ⟨key, more, hpairs, Eq.refl
    (Table.joinTable result (t.filterBy tests) key more ("join_" ++ toString number))⟩
  -- the result is laid out over all relations so far, where the other conditions are pinned
  obtain ⟨keys, hkeys, hfst⟩ := exists_keyed_of_keyPairs hsides
    (fun c hc => (hcrosses c hc).allPinned) (mapM_ok_iff.1 hpairs)
  have hmatch := keysMatch_of_keyed hkeys
  rw [hfst] at hmatch
  have hlaid := hsides.laid_joinTable ("join_" ++ toString number) hmatch
  obtain ⟨t', hafter⟩ := exists_filterRows hlaid fun c hc => hpinned c (List.mem_filter.1 hc).1
  exact ⟨t', joinStage_ok_iff.2 ⟨_, _, hbefore, by rw [filterMap_atom?_map_atom]; exact hjoin,
    hafter⟩⟩

/-- Further stages that all reach back can be joined. -/
theorem Built.exists_joinStages {rest : List (Table × List Condition × List Condition)}
    {places : List Nat} (h : Built sch ps es leads cs result) (hstaged : Staged sch ps places rest)
    (hreaching : Reaching sch ps places rest) (number : Nat) :
    ∃ joined, (rest.zipIdx number).foldlM
      (fun result s => Query.joinStage result s.1.1 s.1.2.1 s.1.2.2 s.2) result = .ok joined := by
  induction rest generalizing places ps es leads cs result number with
  | nil => exact ⟨result, rfl⟩
  | cons s rest ih =>
    obtain ⟨t, joins, filters⟩ := s
    cases places with
    | nil => exact hstaged.elim
    | cons i places =>
      obtain ⟨hopened, hi, hpinned, ⟨joins, rfl⟩, hstaged⟩ := hstaged
      obtain ⟨hne, hcrosses, hreaching⟩ := hreaching
      obtain ⟨next, hnext⟩ := h.exists_joinStage hi hopened
        (fun c hc => hpinned c (List.mem_append_right _ hc)) (fun hnil => hne (by rw [hnil]; rfl))
        (fun c hc => hcrosses c (List.mem_map_of_mem hc)) number
      -- the next stage finds a table that is built again
      obtain ⟨es₁, leads₁, cs₁, hbuilt₁, -, -⟩ := h.of_joinStage hi hopened hpinned hnext
      obtain ⟨joined, hjoined⟩ := ih hbuilt₁ hstaged hreaching (number + 1)
      exact ⟨joined, by rw [List.zipIdx_cons, List.foldlM_cons, hnext]; exact hjoined⟩

/-- Stages that all reach back can be joined. -/
theorem exists_leftDeep {i : Nat} {places : List Nat} {s : Table × List Condition × List Condition}
    {rest : List (Table × List Condition × List Condition)}
    (hstaged : Staged sch [] (i :: places) (s :: rest)) (hreaching : Reaching sch [i] places rest) :
    ∃ joined, Query.leftDeep (s :: rest) = .ok joined := by
  obtain ⟨t, joins, filters⟩ := s
  obtain ⟨hopened, -, hpinned, -, hstaged⟩ := hstaged
  obtain ⟨d, r, hr, ht⟩ := hopened.exists_opens
  have hpinned' : ∀ c ∈ filters ++ joins, AllPinned sch [i] c :=
    fun c hc => hpinned c (List.perm_append_comm.mem_iff.1 hc)
  obtain ⟨first, hfirst⟩ := exists_filterRows (ht.laid hr) hpinned'
  obtain ⟨tests, htests, rfl⟩ := Table.filterRows_ok_iff.1 hfirst
  have hrendered := forall₂_rendered (ht.laid hr) (fun _ => id) hpinned' htests
  obtain ⟨joined, hjoined⟩ :=
    Built.exists_joinStages (.first hr ht hrendered) hstaged hreaching 1
  exact ⟨joined, by rw [Query.leftDeep, hfirst]; exact hjoined⟩

end

end ShellQuery
