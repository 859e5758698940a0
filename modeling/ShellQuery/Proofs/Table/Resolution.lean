import Mathlib.Data.List.Basic
import ShellQuery.Proofs.Column.Matching
import ShellQuery.Proofs.Outcome
import ShellQuery.Table.Operations

/-!
# Resolving names

A name is resolved on a table by collecting the columns that answer to it, equal ones together:

* `tryResolve_eq_none_iff`: nothing is found exactly when no column answers to the name;
* `tryResolve_eq_some_iff`: a position is found exactly when it is the first one whose column
  answers to the name and all other columns that do are identical to that one;
* `exists_tryResolve_iff`: in every other case the name is `Ambiguous`, as columns that are not
  identical answer to it.

Filters are applied where all their columns are resolved (`filterRows_ok_iff`).
-/

namespace ShellQuery.Table

/-! ### Grouping columns -/

/-- A column that is added belongs to a group. -/
theorem exists_mem_addOccurrence (c : Column) (p : Nat) (os : List Occurrences) :
    ∃ o ∈ addOccurrence c p os, o.column.identical c = true := by
  -- along the groups: the column joins the first one it is identical to, or starts one at the end
  induction os with
  | nil => exact ⟨⟨c, p, []⟩, List.mem_cons_self, Column.identical_refl c⟩
  | cons o os ih =>
    rw [addOccurrence]
    split
    · next h => exact ⟨_, List.mem_cons_self, h⟩
    · obtain ⟨o', ho', h⟩ := ih
      exact ⟨o', List.mem_cons_of_mem _ ho', h⟩

/-- A column that is added leaves every group its own column. -/
theorem exists_mem_addOccurrence_of_mem (c : Column) (p : Nat) {os : List Occurrences}
    {o : Occurrences} (ho : o ∈ os) :
    ∃ o' ∈ addOccurrence c p os, o'.column = o.column := by
  induction os with
  | nil => exact absurd ho List.not_mem_nil
  | cons a os ih =>
    rw [addOccurrence]
    rcases List.mem_cons.1 ho with rfl | ho
    · split
      · exact ⟨_, List.mem_cons_self, rfl⟩
      · exact ⟨_, List.mem_cons_self, rfl⟩
    · split
      · exact ⟨o, List.mem_cons_of_mem _ ho, rfl⟩
      · obtain ⟨o', ho', h⟩ := ih ho
        exact ⟨o', List.mem_cons_of_mem _ ho', h⟩

/-- The first group stays the first, and so does its first position. -/
theorem addOccurrence_cons (c : Column) (p : Nat) (o : Occurrences) (os : List Occurrences) :
    ∃ o' os', addOccurrence c p (o :: os) = o' :: os' ∧ o'.column = o.column ∧
      o'.first = o.first := by
  rw [addOccurrence]
  split
  · exact ⟨_, _, rfl, rfl, rfl⟩
  · exact ⟨_, _, rfl, rfl, rfl⟩

/-- However many columns are added, the first group stays the first. -/
theorem foldl_addOccurrence_cons (cs : List (Column × Nat)) (o : Occurrences)
    (os : List Occurrences) :
    ∃ o' os', cs.foldl (fun os c => addOccurrence c.1 c.2 os) (o :: os) = o' :: os' ∧
      o'.column = o.column ∧ o'.first = o.first := by
  induction cs generalizing o os with
  | nil => exact ⟨o, os, rfl, rfl, rfl⟩
  | cons c cs ih =>
    obtain ⟨a, as, heq, hc, hf⟩ := addOccurrence_cons c.1 c.2 o os
    obtain ⟨o', os', heq', hc', hf'⟩ := ih a as
    exact ⟨o', os', by rw [List.foldl_cons, heq, heq'], hc'.trans hc, hf'.trans hf⟩

/-- Every column has a group, and no group is lost while further columns are added. -/
theorem exists_mem_foldl_addOccurrence (cs : List (Column × Nat)) (os : List Occurrences) :
    (∀ o ∈ os, ∃ o' ∈ cs.foldl (fun os c => addOccurrence c.1 c.2 os) os, o'.column = o.column) ∧
    ∀ c ∈ cs, ∃ o ∈ cs.foldl (fun os c => addOccurrence c.1 c.2 os) os,
      o.column.identical c.1 = true := by
  induction cs generalizing os with
  | nil => exact ⟨fun o ho => ⟨o, ho, rfl⟩, fun c hc => absurd hc List.not_mem_nil⟩
  | cons c cs ih =>
    obtain ⟨hkeep, hall⟩ := ih (addOccurrence c.1 c.2 os)
    constructor
    · intro o ho
      obtain ⟨a, ha, hac⟩ := exists_mem_addOccurrence_of_mem c.1 c.2 ho
      obtain ⟨o', ho', hc'⟩ := hkeep a ha
      exact ⟨o', ho', hc'.trans hac⟩
    · intro d hd
      rcases List.mem_cons.1 hd with rfl | hd
      · obtain ⟨a, ha, hac⟩ := exists_mem_addOccurrence d.1 d.2 os
        obtain ⟨o', ho', hc'⟩ := hkeep a ha
        exact ⟨o', ho', by rw [hc', hac]⟩
      · exact hall d hd

/-- Columns fall into one group exactly when all are identical to the first. -/
theorem groupOccurrences_cons_eq_singleton_iff (c : Column × Nat) (cs : List (Column × Nat)) :
    (∃ o, groupOccurrences (c :: cs) = [o]) ↔ ∀ d ∈ cs, c.1.identical d.1 = true := by
  rw [groupOccurrences, List.foldl_cons, addOccurrence]
  constructor
  · rintro ⟨o, ho⟩ d hd
    obtain ⟨o', os', heq, hc, _⟩ := foldl_addOccurrence_cons cs ⟨c.1, c.2, []⟩ []
    obtain ⟨a, ha, had⟩ := (exists_mem_foldl_addOccurrence cs [⟨c.1, c.2, []⟩]).2 d hd
    rw [ho] at heq ha
    obtain ⟨rfl, rfl⟩ := List.cons.inj heq
    rw [List.mem_singleton.1 ha, hc] at had
    exact had
  · intro h
    -- the further positions of the group vary along the induction
    suffices hfold : ∀ further, ∃ o,
        cs.foldl (fun os c => addOccurrence c.1 c.2 os) [⟨c.1, c.2, further⟩] = [o] from hfold []
    induction cs with
    | nil => exact fun further => ⟨_, rfl⟩
    | cons d ds ih =>
      intro further
      rw [List.foldl_cons, addOccurrence,
        if_pos (h d List.mem_cons_self)]
      exact ih (fun e he => h e (List.mem_cons_of_mem d he)) _

theorem first_of_groupOccurrences_cons {c : Column × Nat} {cs : List (Column × Nat)}
    {o : Occurrences} {os : List Occurrences} (h : groupOccurrences (c :: cs) = o :: os) :
    o.first = c.2 := by
  obtain ⟨o', os', heq, _, hf⟩ := foldl_addOccurrence_cons cs ⟨c.1, c.2, []⟩ []
  rw [groupOccurrences, List.foldl_cons, addOccurrence, heq] at h
  obtain ⟨rfl, rfl⟩ := List.cons.inj h
  exact hf

theorem groupOccurrences_ne_nil (c : Column × Nat) (cs : List (Column × Nat)) :
    groupOccurrences (c :: cs) ≠ [] := by
  obtain ⟨o, os, heq, _⟩ := foldl_addOccurrence_cons cs ⟨c.1, c.2, []⟩ []
  rw [groupOccurrences, List.foldl_cons, addOccurrence, heq]
  exact List.cons_ne_nil o os

/-- Adding a column makes it occur where it is, or leaves the first positions as they are. -/
theorem of_mem_addOccurrence (c : Column) (p : Nat) {os : List Occurrences} {o : Occurrences}
    (ho : o ∈ addOccurrence c p os) : (o.column, o.first) = (c, p) ∨
      ∃ o' ∈ os, (o.column, o.first) = (o'.column, o'.first) := by
  induction os with
  | nil =>
    rw [addOccurrence, List.mem_singleton] at ho
    exact .inl (by rw [ho])
  | cons a os ih =>
    rw [addOccurrence] at ho
    split at ho
    · rcases List.mem_cons.1 ho with rfl | ho
      · exact .inr ⟨a, List.mem_cons_self, rfl⟩
      · exact .inr ⟨o, List.mem_cons_of_mem a ho, rfl⟩
    · rcases List.mem_cons.1 ho with rfl | ho
      · exact .inr ⟨o, List.mem_cons_self, rfl⟩
      · rcases ih ho with heq | ⟨o', ho', heq⟩
        · exact .inl heq
        · exact .inr ⟨o', List.mem_cons_of_mem a ho', heq⟩

/-- A group of added columns stands at the position of one of them, or it was there before. -/
theorem of_mem_foldl_addOccurrence (cs : List (Column × Nat)) {os : List Occurrences}
    {o : Occurrences} (ho : o ∈ cs.foldl (fun os c => addOccurrence c.1 c.2 os) os) :
    (o.column, o.first) ∈ cs ∨ ∃ o' ∈ os, (o.column, o.first) = (o'.column, o'.first) := by
  induction cs generalizing os with
  | nil => exact .inr ⟨o, ho, rfl⟩
  | cons c cs ih =>
    rcases ih ho with hmem | ⟨o', ho', heq⟩
    · exact .inl (List.mem_cons_of_mem c hmem)
    · rw [heq]
      rcases of_mem_addOccurrence c.1 c.2 ho' with heq' | hold
      · exact .inl (heq' ▸ List.mem_cons_self)
      · exact .inr hold

/-- An occurring column is one of the grouped columns, at its first position. -/
theorem mem_of_mem_groupOccurrences {cs : List (Column × Nat)} {o : Occurrences}
    (h : o ∈ groupOccurrences cs) : (o.column, o.first) ∈ cs := by
  rcases of_mem_foldl_addOccurrence cs h with hmem | ⟨o', ho', -⟩
  · exact hmem
  · exact absurd ho' List.not_mem_nil

/-! ### Finding a column -/

theorem pairwise_filter_zipIdx {α : Type} (as : List α) (p : α × Nat → Bool) :
    (as.zipIdx.filter p).Pairwise fun a b => a.2 < b.2 := by
  refine List.Pairwise.filter _ (List.pairwise_map.1 ?_)
  rw [List.zipIdx_map_snd]
  exact List.pairwise_lt_range'

/-- The columns that answer to a name, with their positions. -/
def matching (t : Table) (n : ColumnName) : List (Column × Nat) :=
  t.columns.zipIdx.filter (·.1.answersTo n)

theorem mem_matching {t : Table} {n : ColumnName} {c : Column} {p : Nat} :
    (c, p) ∈ t.matching n ↔ t.columns[p]? = some c ∧ c.answersTo n = true := by
  rw [matching, List.mem_filter, List.mk_mem_zipIdx_iff_getElem?]

/-- The matching columns stand in ascending order, so the first one is at the least position. -/
theorem answersTo_eq_false_of_lt {t : Table} {n : ColumnName} {c : Column × Nat}
    {cs : List (Column × Nat)} (hm : t.matching n = c :: cs) {q : Nat} {d : Column} (hq : q < c.2)
    (hd : t.columns[q]? = some d) : d.answersTo n = false := by
  by_contra hdn
  have hmem := mem_matching.2 ⟨hd, Bool.not_eq_false _ ▸ hdn⟩
  have hsorted : (t.matching n).Pairwise fun a b => a.2 < b.2 := pairwise_filter_zipIdx _ _
  rw [hm] at hmem hsorted
  rcases List.mem_cons.1 hmem with rfl | hmem
  · exact absurd hq (Nat.lt_irrefl _)
  · exact absurd hq (Nat.lt_asymm (List.rel_of_pairwise_cons hsorted hmem))

/-- The column that a name refers to stands at its first position. -/
theorem getElem?_of_find {t : Table} {n : ColumnName} {o : Occurrences}
    (h : t.find n = .ok (some o)) : t.columns[o.first]? = some o.column := by
  have hmem : o ∈ groupOccurrences (t.matching n) := by
    rw [find] at h
    split at h
    · simp at h
    · next o' ho' =>
      obtain rfl : o' = o := by simpa using h
      rw [matching, ho']
      exact List.mem_singleton_self o'
    · simp at h
  exact (mem_matching.1 (mem_of_mem_groupOccurrences hmem)).1

/-- A name is resolved by the groups of the columns that answer to it. -/
theorem tryResolve_eq (t : Table) (n : ColumnName) :
    t.tryResolve n =
      match groupOccurrences (t.matching n) with
      | [] => .ok none
      | [o] => .ok (some o.first)
      | os => .error (.ambiguousColumn n.qualified (os.map (·.column.describe))) := by
  rw [tryResolve, find, ← matching]
  match groupOccurrences (t.matching n) with
  | [] => rfl
  | [_] => rfl
  | _ :: _ :: _ => rfl

/-- A name is not found, found at a position, or ambiguous. -/
theorem tryResolve_cases (t : Table) (n : ColumnName) :
    t.tryResolve n = .ok none ∨ (∃ p, t.tryResolve n = .ok (some p)) ∨
      ∃ candidates, t.tryResolve n = .error (.ambiguousColumn n.qualified candidates) := by
  rw [tryResolve_eq]
  split
  · exact .inl rfl
  · exact .inr (.inl ⟨_, rfl⟩)
  · exact .inr (.inr ⟨_, rfl⟩)

/-- Nothing is found exactly when no column answers to the name. -/
theorem tryResolve_eq_none_iff {t : Table} {n : ColumnName} :
    t.tryResolve n = .ok none ↔ ∀ c ∈ t.columns, c.answersTo n = false := by
  have hmatching : t.matching n = [] ↔ ∀ c ∈ t.columns, c.answersTo n = false := by
    rw [matching, List.filter_eq_nil_iff]
    constructor
    · intro h c hc
      obtain ⟨p, hp⟩ := List.mem_iff_getElem?.1 hc
      simpa using h (c, p) (List.mk_mem_zipIdx_iff_getElem?.2 hp)
    · rintro h ⟨c, p⟩ hc
      simpa using h c (List.mem_iff_getElem?.2 ⟨p, List.mk_mem_zipIdx_iff_getElem?.1 hc⟩)
  rw [← hmatching, tryResolve_eq]
  cases hm : t.matching n with
  | nil => simp [groupOccurrences]
  | cons c cs =>
    have hne := groupOccurrences_ne_nil c cs
    split
    · next h => exact absurd h hne
    · simp
    · simp

/-- A position is found exactly when its column is the first to answer to the name, and all others
that do are identical to it. -/
theorem tryResolve_eq_some_iff {t : Table} {n : ColumnName} {p : Nat} :
    t.tryResolve n = .ok (some p) ↔ ∃ c, t.columns[p]? = some c ∧ c.answersTo n = true ∧
      (∀ q d, q < p → t.columns[q]? = some d → d.answersTo n = false) ∧
      ∀ d ∈ t.columns, d.answersTo n = true → c.identical d = true := by
  rw [tryResolve_eq]
  cases hm : t.matching n with
  | nil =>
    simp only [groupOccurrences, List.foldl_nil, Except.ok.injEq, reduceCtorEq, false_iff]
    rintro ⟨c, hc, hn, _⟩
    exact absurd (mem_matching.2 ⟨hc, hn⟩) (hm ▸ List.not_mem_nil)
  | cons c cs =>
    obtain ⟨c, k⟩ := c
    have hck : (c, k) ∈ t.matching n := hm ▸ List.mem_cons_self
    obtain ⟨hk, hcn⟩ := mem_matching.1 hck
    have hleast : ∀ q d, q < k → t.columns[q]? = some d → d.answersTo n = false :=
      fun q d => answersTo_eq_false_of_lt hm
    have hgroup := groupOccurrences_cons_eq_singleton_iff (c, k) cs
    constructor
    · intro h
      split at h
      · simp at h
      · next o ho =>
        have hfirst := first_of_groupOccurrences_cons ho
        obtain rfl : o.first = p := by simpa using h
        rw [hfirst]
        refine ⟨c, hk, hcn, hleast, fun d hd hdn => ?_⟩
        obtain ⟨q, hq⟩ := List.mem_iff_getElem?.1 hd
        have hmem := mem_matching.2 ⟨hq, hdn⟩
        rw [hm] at hmem
        rcases List.mem_cons.1 hmem with heq | hmem
        · rw [(Prod.mk.inj heq).1]
          exact Column.identical_refl c
        · exact hgroup.1 ⟨o, ho⟩ _ hmem
      · simp at h
    · rintro ⟨d, hd, hdn, hlt, hid⟩
      -- both positions are the first one whose column answers to the name
      have hpk : p = k := by
        rcases Nat.lt_trichotomy p k with h | h | h
        · rw [hleast p d h hd] at hdn
          exact absurd hdn (by simp)
        · exact h
        · rw [hlt k c h hk] at hcn
          exact absurd hcn (by simp)
      subst hpk
      obtain rfl : c = d := Option.some.inj (hk.symm.trans hd)
      obtain ⟨o, ho⟩ := hgroup.2 fun e he => by
        obtain ⟨hq, hen⟩ := mem_matching.1 (hm ▸ List.mem_cons_of_mem (c, p) he : e ∈ t.matching n)
        exact hid e.1 (List.mem_iff_getElem?.2 ⟨e.2, hq⟩) hen
      rw [ho]
      simp [first_of_groupOccurrences_cons ho]

/-- Columns that are not identical answer to a name. -/
def Ambiguous (t : Table) (n : ColumnName) : Prop :=
  ∃ c ∈ t.columns, ∃ d ∈ t.columns,
    c.answersTo n = true ∧ d.answersTo n = true ∧ c.identical d = false

/-- A name is resolved exactly when it is not ambiguous. -/
theorem exists_tryResolve_iff {t : Table} {n : ColumnName} :
    (∃ found, t.tryResolve n = .ok found) ↔ ¬t.Ambiguous n := by
  constructor
  · rintro ⟨found, hfound⟩ ⟨c, hc, d, hd, hcn, hdn, hdifferent⟩
    cases found with
    | none =>
      rw [tryResolve_eq_none_iff.1 hfound c hc] at hcn
      exact absurd hcn Bool.false_ne_true
    | some p =>
      -- both are identical to the column that is found
      obtain ⟨e, -, -, -, hall⟩ := tryResolve_eq_some_iff.1 hfound
      have hce := hall c hc hcn
      rw [Column.identical_comm] at hce
      rw [Column.identical_trans hce (hall d hd hdn)] at hdifferent
      exact absurd hdifferent.symm Bool.false_ne_true
  · intro hnot
    cases hm : t.matching n with
    | nil =>
      refine ⟨none, ?_⟩
      rw [tryResolve_eq, hm]
      rfl
    | cons c cs =>
      obtain ⟨hc, hcn⟩ := mem_matching.1 (hm ▸ List.mem_cons_self : (c.1, c.2) ∈ t.matching n)
      refine ⟨some c.2, tryResolve_eq_some_iff.2 ⟨c.1, hc, hcn, fun q d =>
        answersTo_eq_false_of_lt hm, fun d hd hdn => ?_⟩⟩
      by_contra hdifferent
      exact hnot ⟨c.1, List.mem_of_getElem? hc, d, hd, hcn, hdn, Bool.eq_false_iff.2 hdifferent⟩

/-- A name that one column answers to and no other is found there. -/
theorem tryResolve_of_unique {t : Table} {n : ColumnName} {p : Nat} {c : Column}
    (hc : t.columns[p]? = some c) (hn : c.answersTo n = true)
    (huniq : ∀ q d, t.columns[q]? = some d → d.answersTo n = true → q = p) :
    t.tryResolve n = .ok (some p) := by
  refine tryResolve_eq_some_iff.2 ⟨c, hc, hn, fun q d hq hd => ?_, fun d hd hdn => ?_⟩
  · by_contra hdn
    have := huniq q d hd (Bool.not_eq_false _ ▸ hdn)
    omega
  · obtain ⟨q, hq⟩ := List.mem_iff_getElem?.1 hd
    obtain rfl := huniq q d hq hdn
    obtain rfl : c = d := Option.some.inj (hc.symm.trans hq)
    exact Column.identical_refl c

/-- A name that has to be found is found where it is looked up. -/
theorem resolve_eq_ok_iff {t : Table} {n : ColumnName} {p : Nat} :
    t.resolve n = .ok p ↔ t.tryResolve n = .ok (some p) := by
  rw [resolve, bind_ok_iff]
  constructor
  · rintro ⟨q, hq, h⟩
    cases q with
    | none => simp at h
    | some q => rw [hq, pure_ok_iff.1 h]
  · intro h
    exact ⟨some p, h, rfl⟩

/-- An ambiguous name is refused with the columns that it could mean. -/
theorem resolve_of_ambiguous {t : Table} {n : ColumnName} (h : t.Ambiguous n) :
    ∃ candidates, t.resolve n = .error (.ambiguousColumn n.qualified candidates) := by
  rcases t.tryResolve_cases n with hnone | ⟨p, hp⟩ | ⟨candidates, herror⟩
  · exact absurd h (exists_tryResolve_iff.1 ⟨_, hnone⟩)
  · exact absurd h (exists_tryResolve_iff.1 ⟨_, hp⟩)
  · exact ⟨candidates, by rw [resolve, herror]; rfl⟩

theorem not_ambiguous_of_resolve {t : Table} {n : ColumnName} {p : Nat}
    (h : t.resolve n = .ok p) : ¬t.Ambiguous n :=
  exists_tryResolve_iff.1 ⟨_, resolve_eq_ok_iff.1 h⟩

/-- Identical names are found at the same place. -/
theorem resolve_ok_of_identical {t : Table} {m n : ColumnName} (h : m.identical n = true) {p : Nat}
    (hp : t.resolve m = .ok p) : t.resolve n = .ok p := by
  rw [resolve_eq_ok_iff, tryResolve_eq_some_iff] at hp ⊢
  simpa only [Column.answersTo_congr h] using hp

theorem resolves_eq_true_iff {t : Table} {n : ColumnName} :
    t.resolves n = true ↔ ∃ p, t.tryResolve n = .ok (some p) := by
  rw [resolves]
  split
  · next p h => simp [h]
  · next hne => simpa using fun p h => hne p h

/-! ### Filters -/

/-- Appends a filter unless there is nothing to test. -/
def filterBy (t : Table) (tests : List Awk.RowTest) : Table :=
  if tests.isEmpty then t else t.filter tests

@[simp]
theorem columns_filterBy (t : Table) (tests : List Awk.RowTest) :
    (t.filterBy tests).columns = t.columns := by
  unfold filterBy
  split
  · rfl
  · rfl

/-- Rows are filtered by the conditions with their columns resolved, in their order. -/
theorem filterRows_ok_iff {t t' : Table} {cs : List Condition} :
    t.filterRows cs = .ok t' ↔ ∃ tests,
      List.Forall₂ (fun c test => Condition.resolve t.resolve c = .ok test) cs tests ∧
      t.filterBy tests = t' := by
  cases cs with
  | nil => simp [filterRows, filterBy]
  | cons c cs =>
    rw [filterRows, if_neg (by simp), bind_ok_iff]
    refine exists_congr fun tests => ?_
    rw [mapM_ok_iff, pure_ok_iff]
    refine and_congr_right fun h => ?_
    cases h with
    | cons _ _ => rfl

end ShellQuery.Table
