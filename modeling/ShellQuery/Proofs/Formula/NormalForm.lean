import Mathlib.Data.List.Nodup
import Mathlib.Data.List.Perm.Subperm
import ShellQuery.Proofs.Formula.Cnf

/-!
# The shape of the conjunctive normal form

The clauses of a normal form are those it was put together from (`clauses_toCnf`), so bringing it
into normal form once more changes nothing (`toCnf_toCnf`).

No clause has two equal atoms (`Distinct`), and no two clauses have the same atoms. The clauses can
be collected one after the other, each new one being compared with those kept so far, and then the
comparison may look from one side only: of two equally long clauses without repetitions, one lies
within the other only if they have the same atoms (`sameClause_eq_within`,
`distinctClauses_eq_foldl`).

`conjuncts_toCnf_reduced` says what all this comes to for the conjuncts of a condition.
-/

namespace ShellQuery

variable {α : Type}

/-! ### Lists without repetitions -/

/-- What is kept does not repeat anything that is kept before it. -/
theorem pairwise_eraseDupsBy (r : α → α → Bool) (l : List α) :
    (l.eraseDupsBy r).Pairwise fun a b => r b a = false := by
  induction l using eraseDupsBy_induction (r := r) with
  | nil => exact .nil
  | cons a as ih =>
    rw [List.eraseDupsBy_cons, List.pairwise_cons]
    refine ⟨fun b hb => ?_, ih⟩
    simpa using (List.mem_filter.1 (mem_of_mem_eraseDupsBy hb)).2

/-- Where nothing is repeated nothing is dropped. -/
theorem eraseDupsBy_eq_self {r : α → α → Bool} {l : List α}
    (h : l.Pairwise fun a b => r b a = false) : l.eraseDupsBy r = l := by
  induction h with
  | nil => rfl
  | @cons a as ha _ ih =>
    have hkept : as.filter (fun b => r b a = false) = as :=
      List.filter_eq_self.2 fun b hb => by simpa using ha b hb
    rw [List.eraseDupsBy_cons, hkept, ih]

/-- Keeps an element unless it repeats one that is kept already. -/
def keep (r : α → α → Bool) (kept : List α) (a : α) : List α :=
  if kept.any (r a) then kept else kept ++ [a]

/-- Repetitions can be dropped while a list is collected from left to right. -/
theorem eraseDupsBy_eq_foldl (r : α → α → Bool) (l : List α) :
    l.eraseDupsBy r = l.foldl (keep r) [] := by
  -- the loop of the library keeps what it has kept in reverse
  have hloop : ∀ kept, List.eraseDupsBy.loop r l kept = l.foldl (keep r) kept.reverse := by
    induction l with
    | nil => exact fun kept => rfl
    | cons a as ih =>
      intro kept
      rw [List.eraseDupsBy.loop, List.foldl_cons, keep, List.any_reverse]
      cases hany : kept.any (r a) with
      | true => exact ih kept
      | false =>
        refine (ih (a :: kept)).trans ?_
        rw [List.reverse_cons]
        rfl
  exact hloop []

namespace Formula

/-! ### The clauses of a normal form -/

/-- A disjunction of atoms is a single clause. -/
theorem anyClauses_map_atom (as : List α) : anyClauses (as.map atom) = [as] := by
  induction as with
  | nil => rfl
  | cons a as ih =>
    rw [List.map_cons, anyClauses, clauses, ih]
    rfl

theorem clauses_ofClause (c : List α) : (ofClause c).clauses = [c] := by
  unfold ofClause
  split
  · rw [clauses]
  · rw [clauses, anyClauses_map_atom]

theorem clauses_ofConjuncts (ps : List (Formula α)) :
    (ofConjuncts ps).clauses = ps.flatMap clauses := by
  unfold ofConjuncts
  split
  · rw [List.flatMap_singleton]
  · rw [clauses, allClauses_eq]

theorem atoms_ofConjuncts (ps : List (Formula α)) :
    (ofConjuncts ps).atoms = ps.flatMap atoms := by
  unfold ofConjuncts
  split
  · rw [List.flatMap_singleton]
  · rw [atoms_all]

/-- No disjunction in the formula has exactly one part. -/
inductive Unwrapped : Formula α → Prop
  | atom (a : α) : Unwrapped (atom a)
  | all (ps : List (Formula α)) : (∀ p ∈ ps, Unwrapped p) → Unwrapped (all ps)
  | any (ps : List (Formula α)) : ps.length ≠ 1 → (∀ p ∈ ps, Unwrapped p) → Unwrapped (any ps)

/-- A clause wraps no single part. -/
theorem unwrapped_ofClause (c : List α) : (ofClause c).Unwrapped := by
  unfold ofClause
  split
  · exact .atom _
  · next hne =>
    refine .any _ (fun hlength => ?_) fun p hp => ?_
    · obtain ⟨a, rfl⟩ := List.length_eq_one_iff.1 ((List.length_map _).symm.trans hlength)
      exact hne a rfl
    · obtain ⟨a, -, rfl⟩ := List.mem_map.1 hp
      exact .atom a

/-- A conjunction of unwrapped parts wraps no single part. -/
theorem unwrapped_ofConjuncts {ps : List (Formula α)} (h : ∀ p ∈ ps, p.Unwrapped) :
    (ofConjuncts ps).Unwrapped := by
  unfold ofConjuncts
  split
  · exact h _ List.mem_cons_self
  · exact .all _ h

section

variable [BEq α]

theorem unwrapped_toCnf (p : Formula α) : p.toCnf.Unwrapped := by
  refine unwrapped_ofConjuncts fun q hq => ?_
  obtain ⟨c, -, rfl⟩ := List.mem_map.1 hq
  exact unwrapped_ofClause c

theorem clauses_toCnf (p : Formula α) : p.toCnf.clauses = distinctClauses p.clauses := by
  rw [toCnf, clauses_ofConjuncts, List.flatMap_map]
  simp only [clauses_ofClause, List.flatMap_singleton']

theorem eraseDups_eraseDups (c : List α) : c.eraseDups.eraseDups = c.eraseDups :=
  eraseDupsBy_eq_self (pairwise_eraseDupsBy _ c)

theorem distinctClauses_distinctClauses (cs : List (List α)) :
    distinctClauses (distinctClauses cs) = distinctClauses cs := by
  have hclauses : (distinctClauses cs).map List.eraseDups = distinctClauses cs := by
    refine (List.map_congr_left fun d hd => ?_).trans (List.map_id _)
    obtain ⟨c, -, rfl⟩ := List.mem_map.1 (mem_of_mem_eraseDupsBy hd)
    exact eraseDups_eraseDups c
  rw [distinctClauses, hclauses]
  exact eraseDupsBy_eq_self (pairwise_eraseDupsBy _ _)

/-- A normal form is its own normal form. -/
theorem toCnf_toCnf (p : Formula α) : p.toCnf.toCnf = p.toCnf := by
  rw [toCnf, clauses_toCnf, distinctClauses_distinctClauses, ← toCnf]

end

/-! ### Comparing clauses from one side -/

section

variable [BEq α] [EquivBEq α]

/-- A clause in which no two atoms are equal. -/
def Distinct (c : List α) : Prop :=
  c.Pairwise fun a b => (a == b) = false

theorem distinct_eraseDups (c : List α) : Distinct c.eraseDups :=
  (pairwise_eraseDupsBy _ c).imp fun h => by rwa [BEq.comm]

theorem distinct_of_mem_distinctClauses {cs : List (List α)} {d : List α}
    (h : d ∈ distinctClauses cs) : Distinct d := by
  obtain ⟨c, -, rfl⟩ := List.mem_map.1 (mem_of_mem_eraseDupsBy h)
  exact distinct_eraseDups c

/-- A clause without repetitions whose atoms are all in another one is not longer than that, and if
it is equally long it leaves out no atom of it. -/
theorem Distinct.length_le_of_contains {c d : List α} (hc : Distinct c)
    (h : ∀ a ∈ c, d.contains a = true) :
    c.length ≤ d.length ∧ (c.length = d.length → ∀ b ∈ d, c.contains b = true) := by
  -- equal atoms are one element of the quotient, where the repetitions are those of a list
  let s : Setoid α := ⟨fun a b => (a == b) = true, fun _ => BEq.rfl, BEq.symm, BEq.trans⟩
  have hnodup : (c.map (Quotient.mk s)).Nodup := by
    refine List.pairwise_map.2 (hc.imp fun {a b} hab heq => ?_)
    have hsame : (a == b) = true := Quotient.exact heq
    rw [hab] at hsame
    exact Bool.false_ne_true hsame
  have hsubset : c.map (Quotient.mk s) ⊆ d.map (Quotient.mk s) := by
    intro x hx
    obtain ⟨a, ha, rfl⟩ := List.mem_map.1 hx
    obtain ⟨b, hb, hab⟩ := List.contains_iff_exists_mem_beq.1 (h a ha)
    exact List.mem_map.2 ⟨b, hb, (Quotient.sound hab).symm⟩
  have hsubperm := List.subperm_of_subset hnodup hsubset
  refine ⟨by simpa using hsubperm.length_le, fun hlength b hb => ?_⟩
  have hperm := hsubperm.perm_of_length_le (by simp [hlength])
  obtain ⟨a, ha, hab⟩ := List.mem_map.1 (hperm.mem_iff.2 (List.mem_map_of_mem hb))
  exact List.contains_iff_exists_mem_beq.2 ⟨a, ha, BEq.symm (Quotient.exact hab)⟩

/-- Whether two clauses are equally long and the atoms of the first are all in the second. -/
def within (c d : List α) : Bool :=
  c.length == d.length && c.all (d.contains ·)

/-- Of clauses without repetitions, those that lie within each other are those that hold the same
atoms. -/
theorem sameClause_eq_within {c d : List α} (hc : Distinct c) (hd : Distinct d) :
    sameClause c d = within c d := by
  rw [Bool.eq_iff_iff, sameClause, within, Bool.and_eq_true, Bool.and_eq_true, beq_iff_eq,
    List.all_eq_true, List.all_eq_true]
  constructor
  · rintro ⟨hcd, hdc⟩
    have hle := (hc.length_le_of_contains hcd).1
    have hge := (hd.length_le_of_contains hdc).1
    exact ⟨by omega, hcd⟩
  · rintro ⟨hlength, hcd⟩
    exact ⟨hcd, (hc.length_le_of_contains hcd).2 hlength⟩

/-- Keeps a clause, without its repetitions, unless one that is kept already lies within it. -/
def keepClause (kept : List (List α)) (c : List α) : List (List α) :=
  keep (fun d e => within e d) kept (c.foldl (keep (· == ·)) [])

/-- Next to clauses without repetitions, it does not matter how a clause is compared with them. -/
theorem keep_sameClause {kept : List (List α)} (h : ∀ d ∈ kept, Distinct d) (c : List α) :
    keep sameClause kept c.eraseDups = keepClause kept c := by
  have hany : kept.any (sameClause c.eraseDups) = kept.any fun d => within d c.eraseDups := by
    rw [Bool.eq_iff_iff, List.any_eq_true, List.any_eq_true]
    refine exists_congr fun d => and_congr_right fun hd => ?_
    rw [sameClause, Bool.and_comm, ← sameClause,
      sameClause_eq_within (h d hd) (distinct_eraseDups c)]
  rw [keepClause, ← eraseDupsBy_eq_foldl, ← List.eraseDups, keep, hany, keep]

/-- No atom is repeated in a clause that is kept, however many clauses follow. -/
theorem distinct_of_mem_keepClause {kept : List (List α)} (h : ∀ d ∈ kept, Distinct d)
    (c : List α) : ∀ d ∈ keepClause kept c, Distinct d := by
  rw [← keep_sameClause h, keep]
  split
  · exact h
  · intro d hd
    rcases List.mem_append.1 hd with hd | hd
    · exact h d hd
    · rw [List.mem_singleton.1 hd]
      exact distinct_eraseDups c

/-- The clauses without repetitions can be collected from left to right, and each needs to be
compared from one side only. -/
theorem distinctClauses_eq_foldl (cs : List (List α)) :
    distinctClauses cs = cs.foldl keepClause [] := by
  rw [distinctClauses, eraseDupsBy_eq_foldl, List.foldl_map]
  -- the invariant is that no clause kept so far has a repetition
  suffices hfold : ∀ kept : List (List α), (∀ d ∈ kept, Distinct d) →
      cs.foldl (fun kept c => keep sameClause kept c.eraseDups) kept = cs.foldl keepClause kept from
    hfold [] fun d hd => absurd hd List.not_mem_nil
  induction cs with
  | nil => exact fun _ _ => rfl
  | cons c cs ih =>
    intro kept h
    rw [List.foldl_cons, List.foldl_cons, keep_sameClause h]
    exact ih _ (distinct_of_mem_keepClause h c)

/-- Clauses with the same atoms are the same clause, whatever the order of their atoms. -/
theorem sameClause_of_contains_eq {c d : List α} (h : ∀ a, c.contains a = d.contains a) :
    sameClause c d = true := by
  have hmem : ∀ {l : List α} {a}, a ∈ l → l.contains a = true := fun ha =>
    List.contains_iff_exists_mem_beq.2 ⟨_, ha, BEq.rfl⟩
  rw [sameClause, Bool.and_eq_true, List.all_eq_true, List.all_eq_true]
  exact ⟨fun a ha => h a ▸ hmem ha, fun a ha => (h a).symm ▸ hmem ha⟩

end

end Formula

namespace Condition

open Formula

theorem atoms_toCnf (c : Condition) : Formula.atoms (toCnf c) = (cnf c).flatMap Formula.atoms :=
  atoms_ofConjuncts _

theorem distinct_of_mem_cnf {c d : Condition} (hd : d ∈ cnf c) : Distinct (Formula.atoms d) := by
  obtain ⟨e, he, rfl⟩ := List.mem_map.1 hd
  rw [atoms_ofClause]
  exact distinct_of_mem_distinctClauses he

/-- No two conjuncts have the same comparisons. -/
theorem pairwise_cnf (c : Condition) : (cnf c).Pairwise fun d e =>
    ¬∀ a, (Formula.atoms d).contains a = (Formula.atoms e).contains a := by
  refine List.pairwise_map.2 ((pairwise_eraseDupsBy sameClause _).imp fun {d e} hde hsame => ?_)
  simp only [atoms_ofClause] at hsame
  rw [sameClause_of_contains_eq fun a => (hsame a).symm] at hde
  exact Bool.false_ne_true hde.symm

theorem contains_toCnf_of_mem {c : Condition} (hc : Formula.Solid c) {a : Comparison}
    (ha : a ∈ Formula.atoms c) : (Formula.atoms (toCnf c)).contains a = true := by
  obtain ⟨d, hd, b, hb, hab⟩ := exists_mem_cnf_of_mem_atoms hc ha
  rw [atoms_toCnf]
  exact List.contains_iff_exists_mem_beq.2 ⟨b, List.mem_flatMap.2 ⟨d, hd, hb⟩, hab⟩

/-- The normal form of a condition falls into conjuncts, none of which repeats a comparison or has
the comparisons of another one, and no disjunction stands around a single part. It has comparisons
of the condition only, and all of them if no conjunction or disjunction of the condition is empty,
up to equal ones. It is its own normal form, and it can be collected clause by clause. -/
theorem conjuncts_toCnf_reduced (c : Condition) :
    ∃ ds, conjuncts (toCnf c) = .ok ds ∧
      (∀ d ∈ ds, (Formula.atoms d).Pairwise fun a b => (a == b) = false) ∧
      (ds.Pairwise fun d e =>
        ¬∀ a, (Formula.atoms d).contains a = (Formula.atoms e).contains a) ∧
      Unwrapped (toCnf c) ∧
      (∀ a ∈ Formula.atoms (toCnf c), a ∈ Formula.atoms c) ∧
      (Formula.Solid c → ∀ a ∈ Formula.atoms c, (Formula.atoms (toCnf c)).contains a = true) ∧
      toCnf (toCnf c) = toCnf c ∧
      toCnf c = ofConjuncts (((Formula.clauses c).foldl keepClause []).map ofClause) := by
  refine ⟨cnf c, conjuncts_toCnf c, fun d => distinct_of_mem_cnf, pairwise_cnf c,
    unwrapped_toCnf c, fun a ha => ?_, fun hc a => contains_toCnf_of_mem hc, toCnf_toCnf c, ?_⟩
  · rw [atoms_toCnf, List.mem_flatMap] at ha
    obtain ⟨d, hd, ha⟩ := ha
    exact mem_atoms_of_mem_cnf hd ha
  · rw [← distinctClauses_eq_foldl, toCnf]

/-- One comparison in two spellings within a disjunction, and two disjunctions of the same two
comparisons. -/
def repeatedClauses : Condition :=
  .all [
    .any [.atom ⟨.ofText "t.City", .eq, .ofText "'Ulm'"⟩,
      .atom ⟨.ofText "T.CITY", .eq, .ofText "'Ulm'"⟩],
    .any [.atom ⟨.ofText "t.city", .eq, .ofText "'Ulm'"⟩,
      .atom ⟨.ofText "t.city", .eq, .ofText "'Bonn'"⟩],
    .any [.atom ⟨.ofText "t.City", .eq, .ofText "'Bonn'"⟩,
      .atom ⟨.ofText "t.City", .eq, .ofText "'Ulm'"⟩]]

/-- Three clauses of two atoms each, two of which are the same, leave two conjuncts. -/
theorem conjuncts_repeatedClauses :
    Formula.Solid repeatedClauses ∧
    (Formula.clauses repeatedClauses).map List.length = [2, 2, 2] ∧
    (cnf repeatedClauses).map (List.length ∘ Formula.atoms) = [1, 2] ∧
    ∀ a ∈ Formula.atoms repeatedClauses,
      (Formula.atoms (toCnf repeatedClauses)).contains a = true := by
  have hsolid : Formula.Solid repeatedClauses := by
    refine .all _ (List.cons_ne_nil _ _) fun p hp => ?_
    simp only [List.mem_cons, List.not_mem_nil, or_false] at hp
    rcases hp with rfl | rfl | rfl
    all_goals
      refine .any _ (List.cons_ne_nil _ _) fun q hq => ?_
      simp only [List.mem_cons, List.not_mem_nil, or_false] at hq
      rcases hq with rfl | rfl
      · exact .atom _
      · exact .atom _
  obtain ⟨-, -, -, -, -, -, hall, -⟩ := conjuncts_toCnf_reduced repeatedClauses
  exact ⟨hsolid, by decide +kernel, by decide +kernel, hall hsolid⟩

end Condition

end ShellQuery
