import ShellQuery.Proofs.Stage
import ShellQuery.Proofs.Table.Layout

/-!
# Where references are found among the opened relations

Opened relations are searched one after the other, and a name is found in those that have a field it
may mean.

* `pin_ok_iff`: a reference is pinned exactly when it means one field of one relation, and then it
  becomes the plain name under the name of that relation;
* `stageOf_ok_iff`: a condition belongs to a stage exactly when each of its columns is found in one
  relation up to that stage, and one of them is found at the stage itself unless it is the first.
-/

namespace ShellQuery

/-- The table of the relation at a place of the schema, just opened. -/
structure OpenedAt (sch : Schema) (i : Nat) (t : Table) : Prop where
  exists_opens : ∃ d r, sch[i]? = some r ∧ Opens d r t

namespace OpenedAt

variable {sch : Schema} {i : Nat} {t : Table} {n : ColumnName}

theorem exists_laid (h : OpenedAt sch i t) :
    ∃ r, sch[i]? = some r ∧ t.name = r.1.name ∧ Laid sch [i] [] (Schema.fieldsOf i r) t := by
  obtain ⟨d, r, hr, hopens⟩ := h.exists_opens
  exact ⟨r, hr, hopens.name, hopens.laid hr⟩

/-- In an opened relation a reference is found at the field it means, if it means one. -/
theorem tryResolve (h : OpenedAt sch i t) (hsound : sch.Sound) :
    (∃ j, sch.means n ⟨i, j⟩ = true ∧ t.tryResolve n = .ok (some j)) ∨
      ((∀ j, ¬sch.means n ⟨i, j⟩ = true) ∧ t.tryResolve n = .ok none) := by
  obtain ⟨r, hr, -, hlaid⟩ := h.exists_laid
  by_cases hmeans : ∃ j, sch.means n ⟨i, j⟩ = true
  · obtain ⟨j, hj⟩ := hmeans
    obtain ⟨q, a, ha, hao, hq⟩ := hlaid.tryResolve_of_unique hj (List.mem_singleton_self i) <| by
      rintro ⟨i', j'⟩ hj' hi'
      obtain rfl := List.mem_singleton.1 hi'
      rw [hsound.field_eq hj' hj]
    obtain ⟨a', o, ha', hao', ho, hi⟩ := hlaid.exists_of_tryResolve hq
    obtain rfl : a = a' := Option.some.inj (ha.symm.trans ha')
    -- the leading field of position `q` is the field at `q` itself
    obtain ⟨k, hk⟩ : ∃ k, a = ⟨i, k⟩ ∧ k = q := by
      rw [Schema.fieldsOf, List.getElem?_map] at ha
      obtain ⟨k, hk, rfl⟩ := Option.map_eq_some_iff.1 ha
      exact ⟨k, rfl, (List.getElem?_eq_some_iff.1 hk).2.symm.trans (List.getElem_range _)⟩
    obtain ⟨rfl, rfl⟩ := hk
    have heq : (⟨i, k⟩ : Origin) = ⟨i, j⟩ :=
      (iff_of_eqvGen (P := (⟨i, k⟩ = ·)) (fun _ _ he => absurd he List.not_mem_nil) hao).1 rfl
    exact .inl ⟨k, by rwa [heq], hq⟩
  · have hnone : ∀ j, ¬sch.means n ⟨i, j⟩ = true := fun j hj => hmeans ⟨j, hj⟩
    refine .inr ⟨hnone, hlaid.tryResolve_of_none ?_⟩
    rintro ⟨i', j⟩ hj hi'
    obtain rfl := List.mem_singleton.1 hi'
    exact hnone j hj

theorem resolves_iff (h : OpenedAt sch i t) (hsound : sch.Sound) :
    t.resolves n = true ↔ ∃ j, sch.means n ⟨i, j⟩ = true := by
  rw [Table.resolves_eq_true_iff]
  rcases h.tryResolve (n := n) hsound with ⟨j, hj, hq⟩ | ⟨hnone, hq⟩
  · exact iff_of_true ⟨j, hq⟩ ⟨j, hj⟩
  · exact iff_of_false (fun ⟨p, hp⟩ => by simp [hq] at hp) fun ⟨j, hj⟩ => hnone j hj

end OpenedAt

section

variable {sch : Schema} {places : List Nat} {tables : List Table} {n : ColumnName}

/-- The tables of the relations at some places of the schema, just opened. -/
abbrev Opened (sch : Schema) (places : List Nat) (tables : List Table) : Prop :=
  List.Forall₂ (OpenedAt sch) places tables

/-- Whether a reference may mean a field of the relation at the `k`-th of some places. -/
def HitsAt (sch : Schema) (places : List Nat) (n : ColumnName) (k : Nat) : Prop :=
  ∃ i j, places[k]? = some i ∧ sch.means n ⟨i, j⟩ = true

theorem Opened.resolvesAt_iff (h : Opened sch places tables) (hsound : sch.Sound) {k : Nat} :
    ResolvesAt tables n k ↔ HitsAt sch places n k := by
  constructor
  · rintro ⟨t, ht, hresolves⟩
    obtain ⟨i, hi, hopened⟩ := getElem?_of_forall₂ h.flip ht
    obtain ⟨j, hj⟩ := (hopened.resolves_iff hsound).1 hresolves
    exact ⟨i, j, hi, hj⟩
  · rintro ⟨i, j, hi, hj⟩
    obtain ⟨t, ht, hopened⟩ := getElem?_of_forall₂ h hi
    exact ⟨t, ht, (hopened.resolves_iff hsound).2 ⟨j, hj⟩⟩

/-- No name is ambiguous on an opened relation. -/
theorem Opened.not_ambiguous (h : Opened sch places tables) (hsound : sch.Sound) {t : Table}
    (ht : t ∈ tables) : ¬t.Ambiguous n := by
  obtain ⟨i, -, hopened⟩ := exists_left_of_forall₂ h ht
  rw [← Table.exists_tryResolve_iff]
  rcases hopened.tryResolve (n := n) hsound with ⟨j, -, hq⟩ | ⟨-, hq⟩
  · exact ⟨_, hq⟩
  · exact ⟨_, hq⟩

/-- A search in opened relations succeeds; its hits are in order and are those of the relations
that have a field the name may mean. -/
theorem Opened.search_ok (h : Opened sch places tables) (hsound : sch.Sound) (n : ColumnName) :
    ∃ hits, Location.search n 0 tables = .ok hits ∧
      hits.Pairwise (fun hit hit' => hit.stage < hit'.stage) ∧
      (∀ hit ∈ hits, tables[hit.stage]? = some hit.table) ∧
      ∀ k, (∃ hit ∈ hits, hit.stage = k) ↔ HitsAt sch places n k := by
  obtain ⟨hits, hhits⟩ :=
    Location.exists_search_iff.2 fun t ht => h.not_ambiguous (n := n) hsound ht
  obtain ⟨hsorted, hstage⟩ := Location.hits_of_search hhits
  refine ⟨hits, hhits, hsorted, fun hit hhit => ?_, fun k => ?_⟩
  · exact List.mk_mem_zipIdx_iff_getElem?.1 (Location.of_mem_search hhits hhit).1
  · rw [hstage, h.resolvesAt_iff hsound]

/-! ### Pinning -/

theorem hitsAt_range_iff {k : Nat} :
    HitsAt sch (List.range sch.length) n k ↔ ∃ j, sch.means n ⟨k, j⟩ = true := by
  constructor
  · rintro ⟨i, j, hi, hj⟩
    obtain ⟨hlt, rfl⟩ := List.getElem?_eq_some_iff.1 hi
    rw [List.getElem_range] at hj
    exact ⟨j, hj⟩
  · rintro ⟨j, hj⟩
    obtain ⟨r, f, hf, -⟩ := Schema.means_iff.1 hj
    obtain ⟨fields, hr, -⟩ := Schema.fieldAt?_eq_some_iff.1 hf
    exact ⟨k, j, by rw [List.getElem?_range (List.getElem?_eq_some_iff.1 hr).1], hj⟩

theorem Opened.exists_name (h : Opened sch (List.range sch.length) tables) {k : Nat} {t : Table}
    (ht : tables[k]? = some t) : ∃ r, sch[k]? = some r ∧ t.name = r.1.name := by
  obtain ⟨i, hi, hopened⟩ := getElem?_of_forall₂ h.flip ht
  obtain ⟨r, hr, hname, -⟩ := hopened.exists_laid
  obtain ⟨hlt, rfl⟩ := List.getElem?_eq_some_iff.1 hi
  rw [List.getElem_range] at hr
  exact ⟨r, hr, hname⟩

/-- A reference is pinned exactly when there is one field it may mean. -/
theorem Opened.pin_ok_iff (h : Opened sch (List.range sch.length) tables) (hsound : sch.Sound)
    {n' : ColumnName} :
    Query.pin tables n = .ok n' ↔ ∃ o r, sch.means n o = true ∧
      (∀ o', sch.means n o' = true → o' = o) ∧ sch[o.relation]? = some r ∧
      n' = n.within r.1.name := by
  obtain ⟨hits, hhits, hsorted, htables, hstage⟩ := h.search_ok hsound n
  simp only [hitsAt_range_iff] at hstage
  rw [Query.pin, bind_ok_iff]
  constructor
  · rintro ⟨l, hl, hpin⟩
    obtain ⟨hl, -⟩ := Location.ofName_ok_iff.1 hl
    obtain rfl : hits = l.hits := Except.ok.inj (hhits.symm.trans hl)
    cases hfurther : l.further with
    | cons => simp [hfurther] at hpin
    | nil =>
      simp only [hfurther] at hpin
      obtain rfl := pure_ok_iff.1 hpin
      have hhits' : l.hits = [l.first] := by rw [Location.hits, hfurther]
      rw [hhits'] at hstage htables
      obtain ⟨r, hr, hname⟩ := h.exists_name (htables l.first (List.mem_singleton_self _))
      obtain ⟨j, hj⟩ := (hstage _).1 ⟨l.first, List.mem_singleton_self _, rfl⟩
      refine ⟨⟨l.first.stage, j⟩, r, hj, ?_, hr, by rw [hname]⟩
      -- another field would be a hit as well, or else a second field of the same name
      rintro ⟨i, j'⟩ hj'
      obtain ⟨hit, hhit, rfl⟩ := (hstage i).2 ⟨j', hj'⟩
      obtain rfl := List.mem_singleton.1 hhit
      rw [hsound.field_eq hj' hj]
  · rintro ⟨⟨i, j⟩, r, hj, huniq, hr, rfl⟩
    obtain ⟨hit, hhit, hi⟩ := (hstage i).2 ⟨j, hj⟩
    have hall : ∀ hit' ∈ hits, hit'.stage = i := by
      intro hit' hhit'
      obtain ⟨j', hj'⟩ := (hstage _).1 ⟨hit', hhit', rfl⟩
      exact (Origin.mk.inj (huniq _ hj')).1
    have hsingle := eq_singleton_of_pairwise hsorted hall hhit
    refine ⟨⟨n, hit, []⟩, Location.ofName_ok_iff.2 ⟨by rw [hhits, hsingle]; rfl, rfl⟩, ?_⟩
    obtain ⟨r', hr', hname⟩ := h.exists_name (htables hit hhit)
    rw [hi] at hr'
    obtain rfl : r = r' := Option.some.inj (hr.symm.trans hr')
    show pure (n.within hit.table.name) = _
    rw [hname]
    rfl

/-! ### Stages -/

/-- A condition belongs to the stage up to which each of its columns is found once, and at which one
of them is found unless the stage is the first. -/
theorem Opened.stageOf_ok_iff (h : Opened sch places tables) (hsound : sch.Sound) {c : Condition}
    {k : Nat} :
    stageOf tables c = .ok k ↔
      (∀ n ∈ c.columns, ∃ i ≤ k, HitsAt sch places n i ∧
        ∀ i' ≤ k, HitsAt sch places n i' → i' = i) ∧
      (k = 0 ∨ ∃ n ∈ c.columns, HitsAt sch places n k) := by
  simp only [ShellQuery.stageOf_ok_iff, h.resolvesAt_iff hsound]
  refine and_congr_left fun _ => forall₂_congr fun n _ => and_iff_right fun t ht => ?_
  exact h.not_ambiguous hsound ht

end

end ShellQuery
