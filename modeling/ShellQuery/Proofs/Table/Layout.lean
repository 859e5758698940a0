import Mathlib.Logic.Relation
import ShellQuery.Proofs.Schema
import ShellQuery.Proofs.Table.Resolution

/-!
# Where the header fields stand in a table

Joining relations on equalities makes one column out of several header fields. `Laid` describes a
table of joined relations: position by position, its columns answer to the references that may mean
a field equated with the leading field of that position, and every field of the joined relations is
equated with the leading field of exactly one position. Names then resolve as follows:

* `Laid.tryResolve_of_unique`, `Laid.tryResolve_of_none`: a reference that means one field of the
  joined relations is found where that field is, and one that means none is not found;
* `Laid.exists_of_tryResolve`: what is found is meant by the reference;
* `Laid.exists_tryResolve_iff`: where paths and names are apart, a reference is found exactly when
  all the fields it may mean are equated.
-/

namespace ShellQuery

/-- The fields that some equalities make equal. -/
abbrev Equated (es : List (Origin × Origin)) : Origin → Origin → Prop :=
  Relation.EqvGen fun a b => (a, b) ∈ es

theorem Equated.mono {es es' : List (Origin × Origin)} (h : ∀ e ∈ es, e ∈ es') {a b : Origin}
    (hab : Equated es a b) : Equated es' a b :=
  Relation.EqvGen.mono (fun a b he => h (a, b) he) a b hab

/-- A table of the relations at `ps`, joined on the equalities `es`, whose positions lead with the
fields `leads`. -/
structure Laid (sch : Schema) (ps : List Nat) (es : List (Origin × Origin)) (leads : List Origin)
    (t : Table) : Prop where
  answersTo : List.Forall₂ (fun a c => ∀ n, c.answersTo n = true ↔
    ∃ o, Equated es a o ∧ sch.means n o = true) leads t.columns
  mem_of_lead : ∀ a ∈ leads, a ∈ sch.origins ∧ a.relation ∈ ps
  exists_lead : ∀ o ∈ sch.origins, o.relation ∈ ps → ∃ a ∈ leads, Equated es a o
  separate : leads.Pairwise fun a b => ¬Equated es a b
  equalities : ∀ e ∈ es, e.1.relation ∈ ps ∧ e.2.relation ∈ ps

namespace Laid

variable {sch : Schema} {ps : List Nat} {es : List (Origin × Origin)} {leads : List Origin}
  {t t' : Table} {n : ColumnName} {o : Origin}

theorem of_columns_eq (h : Laid sch ps es leads t) (hcolumns : t'.columns = t.columns) :
    Laid sch ps es leads t' :=
  { h with answersTo := hcolumns ▸ h.answersTo }

/-- Equated fields belong to joined relations together. -/
theorem mem_iff_of_equated (h : Laid sch ps es leads t) {a b : Origin} (hab : Equated es a b) :
    a.relation ∈ ps ↔ b.relation ∈ ps :=
  iff_of_eqvGen (P := (·.relation ∈ ps))
    (fun _ _ he => iff_of_true (h.equalities _ he).1 (h.equalities _ he).2) hab

theorem mem_of_equated (h : Laid sch ps es leads t) {q : Nat} {a : Origin}
    (ha : leads[q]? = some a) (hao : Equated es a o) : o.relation ∈ ps :=
  (h.mem_iff_of_equated hao).1 (h.mem_of_lead a (List.mem_of_getElem? ha)).2

theorem exists_position (h : Laid sch ps es leads t) (ho : o ∈ sch.origins)
    (hps : o.relation ∈ ps) : ∃ (q : Nat) (a : Origin), leads[q]? = some a ∧ Equated es a o := by
  obtain ⟨a, ha, hao⟩ := h.exists_lead o ho hps
  obtain ⟨q, hq⟩ := List.mem_iff_getElem?.1 ha
  exact ⟨q, a, hq, hao⟩

/-- A field is equated with the leading field of one position only. -/
theorem position_eq (h : Laid sch ps es leads t) {q q' : Nat} {a a' : Origin}
    (ha : leads[q]? = some a) (ha' : leads[q']? = some a') (heq : Equated es a a') : q = q' := by
  obtain ⟨hq, rfl⟩ := List.getElem?_eq_some_iff.1 ha
  obtain ⟨hq', rfl⟩ := List.getElem?_eq_some_iff.1 ha'
  have hsep := List.pairwise_iff_getElem.1 h.separate
  rcases Nat.lt_trichotomy q q' with hlt | rfl | hlt
  · exact absurd heq (hsep q q' hq hq' hlt)
  · rfl
  · exact absurd heq.symm (hsep q' q hq' hq hlt)

theorem length_columns (h : Laid sch ps es leads t) : t.columns.length = leads.length :=
  h.answersTo.length_eq.symm

theorem getElem?_columns (h : Laid sch ps es leads t) {q : Nat} {a : Origin}
    (ha : leads[q]? = some a) : ∃ c, t.columns[q]? = some c ∧
      ∀ n, c.answersTo n = true ↔ ∃ o, Equated es a o ∧ sch.means n o = true :=
  getElem?_of_forall₂ h.answersTo ha

theorem getElem?_leads (h : Laid sch ps es leads t) {q : Nat} {c : Column}
    (hc : t.columns[q]? = some c) : ∃ a, leads[q]? = some a ∧
      ∀ n, c.answersTo n = true ↔ ∃ o, Equated es a o ∧ sch.means n o = true :=
  getElem?_of_forall₂ h.answersTo.flip hc

/-! ### Resolving names -/

/-- A reference that means one field of the joined relations is found where that field is. -/
theorem tryResolve_of_unique (h : Laid sch ps es leads t) (ho : sch.means n o = true)
    (hps : o.relation ∈ ps) (huniq : ∀ o', sch.means n o' = true → o'.relation ∈ ps → o' = o) :
    ∃ q a, leads[q]? = some a ∧ Equated es a o ∧ t.tryResolve n = .ok (some q) := by
  obtain ⟨q, a, ha, hao⟩ := h.exists_position (Schema.mem_origins_of_means ho) hps
  obtain ⟨c, hc, hanswers⟩ := h.getElem?_columns ha
  refine ⟨q, a, ha, hao, Table.tryResolve_of_unique hc ((hanswers n).2 ⟨o, hao, ho⟩) ?_⟩
  intro q' c' hc' hn
  obtain ⟨a', ha', hanswers'⟩ := h.getElem?_leads hc'
  obtain ⟨o', ha'o', ho'⟩ := (hanswers' n).1 hn
  obtain rfl := huniq o' ho' (h.mem_of_equated ha' ha'o')
  exact h.position_eq ha' ha (.trans _ _ _ ha'o' hao.symm)

/-- A name that means no field of the table's relations is not found. -/
theorem tryResolve_of_none (h : Laid sch ps es leads t)
    (hnone : ∀ o, sch.means n o = true → o.relation ∉ ps) : t.tryResolve n = .ok none := by
  refine Table.tryResolve_eq_none_iff.2 fun c hc => ?_
  by_contra hn
  obtain ⟨q, hq⟩ := List.mem_iff_getElem?.1 hc
  obtain ⟨a, ha, hanswers⟩ := h.getElem?_leads hq
  obtain ⟨o, hao, ho⟩ := (hanswers n).1 (Bool.not_eq_false _ ▸ hn)
  exact hnone o ho (h.mem_of_equated ha hao)

/-- What is found at a position is meant by the reference. -/
theorem exists_of_tryResolve (h : Laid sch ps es leads t) {q : Nat}
    (hq : t.tryResolve n = .ok (some q)) : ∃ a o, leads[q]? = some a ∧ Equated es a o ∧
      sch.means n o = true ∧ o.relation ∈ ps := by
  obtain ⟨c, hc, hn, -, -⟩ := Table.tryResolve_eq_some_iff.1 hq
  obtain ⟨a, ha, hanswers⟩ := h.getElem?_leads hc
  obtain ⟨o, hao, ho⟩ := (hanswers n).1 hn
  exact ⟨a, o, ha, hao, ho, h.mem_of_equated ha hao⟩

/-- Where paths and names are apart no two columns of a table are identical, so a reference that is
found means fields of one position only. -/
theorem equated_of_tryResolve (h : Laid sch ps es leads t) (hsound : sch.Sound)
    (hapart : PathsApart (sch.map (·.1))) {q : Nat} (hq : t.tryResolve n = .ok (some q))
    {a : Origin} (ha : leads[q]? = some a) (ho : sch.means n o = true) (hps : o.relation ∈ ps) :
    Equated es a o := by
  obtain ⟨c, hc, -, -, hid⟩ := Table.tryResolve_eq_some_iff.1 hq
  obtain ⟨q', a', ha', ha'o⟩ := h.exists_position (Schema.mem_origins_of_means ho) hps
  obtain ⟨c', hc', hanswers'⟩ := h.getElem?_columns ha'
  obtain ⟨a₁, ha₁, hanswers⟩ := h.getElem?_leads hc
  obtain rfl : a = a₁ := Option.some.inj (ha.symm.trans ha₁)
  have hidentical := hid c' (List.mem_of_getElem? hc') ((hanswers' n).2 ⟨o, ha'o, ho⟩)
  -- a name for the leading field `a` tells the two columns apart, unless they are one
  obtain ⟨m, hm⟩ := hsound.exists_name hapart (h.mem_of_lead a (List.mem_of_getElem? ha)).1
  have hcm : c.answersTo m = true := (hanswers m).2 ⟨a, .refl a, (hm a).2 rfl⟩
  rw [Column.answersTo_eq_of_identical hidentical] at hcm
  obtain ⟨o', ha'o', ho'⟩ := (hanswers' m).1 hcm
  rw [(hm o').1 ho'] at ha'o'
  exact .trans _ _ _ ha'o'.symm ha'o

/-- Exactly one column answers to a reference exactly when all the fields that it may mean are
equated. -/
theorem existsUnique_column_iff (h : Laid sch ps es leads t) :
    (∃! q : Nat, ∃ c : Column, t.columns[q]? = some c ∧ c.answersTo n = true) ↔
      ∃ o, sch.means n o = true ∧ o.relation ∈ ps ∧
        ∀ o', sch.means n o' = true → o'.relation ∈ ps → Equated es o o' := by
  -- fields with one column are equated, and equated fields have one column
  constructor
  · rintro ⟨q, ⟨c, hc, hn⟩, huniq⟩
    obtain ⟨a, ha, hanswers⟩ := h.getElem?_leads hc
    obtain ⟨o, hao, ho⟩ := (hanswers n).1 hn
    refine ⟨o, ho, h.mem_of_equated ha hao, fun o' ho' hps' => ?_⟩
    obtain ⟨q', a', ha', hao'⟩ := h.exists_position (Schema.mem_origins_of_means ho') hps'
    obtain ⟨c', hc', hanswers'⟩ := h.getElem?_columns ha'
    obtain rfl := huniq q' ⟨c', hc', (hanswers' n).2 ⟨o', hao', ho'⟩⟩
    obtain rfl := Option.some.inj (ha.symm.trans ha')
    exact .trans _ _ _ hao.symm hao'
  · rintro ⟨o, ho, hps, hall⟩
    obtain ⟨q, a, ha, hao⟩ := h.exists_position (Schema.mem_origins_of_means ho) hps
    obtain ⟨c, hc, hanswers⟩ := h.getElem?_columns ha
    refine ⟨q, ⟨c, hc, (hanswers n).2 ⟨o, hao, ho⟩⟩, ?_⟩
    rintro q' ⟨c', hc', hn⟩
    obtain ⟨a', ha', hanswers'⟩ := h.getElem?_leads hc'
    obtain ⟨o', hao', ho'⟩ := (hanswers' n).1 hn
    have hoo' := hall o' ho' (h.mem_of_equated ha' hao')
    exact h.position_eq ha' ha (.trans _ _ _ hao' (.trans _ _ _ hoo'.symm hao.symm))

/-- A name is found exactly when it means fields of the table's relations, all of them equated. -/
theorem exists_tryResolve_iff (h : Laid sch ps es leads t) (hsound : sch.Sound)
    (hapart : PathsApart (sch.map (·.1))) :
    (∃ q, t.tryResolve n = .ok (some q)) ↔ ∃ o, sch.means n o = true ∧ o.relation ∈ ps ∧
      ∀ o', sch.means n o' = true → o'.relation ∈ ps → Equated es o o' := by
  rw [← h.existsUnique_column_iff]
  constructor
  · rintro ⟨q, hq⟩
    obtain ⟨a, o, ha, hao, ho, hps⟩ := h.exists_of_tryResolve hq
    refine h.existsUnique_column_iff.2 ⟨o, ho, hps, fun o' ho' hps' => ?_⟩
    exact .trans _ _ _ hao.symm (h.equated_of_tryResolve hsound hapart hq ha ho' hps')
  · rintro ⟨q, ⟨c, hc, hn⟩, huniq⟩
    exact ⟨q, Table.tryResolve_of_unique hc hn fun q' c' hc' hn' => huniq q' ⟨c', hc', hn'⟩⟩

end Laid

/-! ### Opened relations -/

/-- The fields of the relation at a place, in the order of its header. -/
def Schema.fieldsOf (i : Nat) (r : Relation × List String) : List Origin :=
  (List.range r.2.length).map (⟨i, ·⟩)

/-- A relation just opened has its header fields, each on its own. -/
theorem Opens.laid {sch : Schema} {d : Char} {i : Nat} {r : Relation × List String} {t : Table}
    (h : Opens d r t) (hr : sch[i]? = some r) : Laid sch [i] [] (Schema.fieldsOf i r) t := by
  -- nothing is equated yet
  have hequated : ∀ a b, Equated [] a b ↔ a = b := by
    intro a b
    constructor
    · intro hab
      exact (iff_of_eqvGen (P := (a = ·)) (fun _ _ he => absurd he List.not_mem_nil) hab).1 rfl
    · rintro rfl
      exact .refl a
  have hfield : ∀ j, Schema.fieldAt? sch ⟨i, j⟩ = r.2[j]?.map (r.1, ·) := by
    intro j
    rw [Schema.fieldAt?, hr]
    rfl
  constructor
  case answersTo =>
    rw [List.forall₂_iff_get]
    have hlen := h.columns.length_eq
    refine ⟨by rw [Schema.fieldsOf, List.length_map, List.length_range, hlen], ?_⟩
    intro j hj hj' n
    have hj₂ : j < r.2.length := hlen ▸ hj'
    have hcolumn : FieldColumn r.1 r.2[j] t.columns[j] :=
      (List.forall₂_iff_get.1 h.columns).2 j hj₂ hj'
    have hlead : (Schema.fieldsOf i r).get ⟨j, hj⟩ = ⟨i, j⟩ := by simp [Schema.fieldsOf]
    have hmeans : sch.means n ⟨i, j⟩ = r.1.fieldAnswers r.2[j] n := by
      rw [Schema.means, hfield, List.getElem?_eq_getElem hj₂, Option.map_some, Option.any_some]
    simp only [hequated, exists_eq_left', hlead, hmeans, List.get_eq_getElem,
      hcolumn.answersTo n]
  case mem_of_lead =>
    intro a ha
    obtain ⟨j, hj, rfl⟩ := List.mem_map.1 ha
    refine ⟨Schema.mem_origins_iff.2 ?_, List.mem_singleton_self _⟩
    rw [hfield, List.getElem?_eq_getElem (List.mem_range.1 hj), Option.map_some,
      Option.isSome_some]
  case exists_lead =>
    rintro ⟨i', j⟩ ho hi'
    obtain rfl := List.mem_singleton.1 hi'
    rw [Schema.mem_origins_iff, hfield] at ho
    have hj : j < r.2.length := by
      by_contra hge
      rw [List.getElem?_eq_none (Nat.le_of_not_lt hge)] at ho
      exact absurd ho (by simp)
    exact ⟨_, List.mem_map.2 ⟨j, List.mem_range.2 hj, rfl⟩, .refl _⟩
  case separate =>
    rw [Schema.fieldsOf, List.pairwise_map]
    refine List.pairwise_lt_range.imp fun hlt => ?_
    rw [hequated, Origin.mk.injEq]
    omega
  case equalities => exact fun e he => absurd he List.not_mem_nil

end ShellQuery
