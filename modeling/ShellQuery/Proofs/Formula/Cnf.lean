import ShellQuery.Condition
import ShellQuery.Proofs.Formula.Meaning

/-!
# Conjunctive normal form

The clauses of a formula say together what the formula says (`holds_clauses`), and dropping repeated
atoms and clauses changes nothing as long as repeated atoms have the same value. The conjuncts of a
condition in conjunctive normal form can always be taken apart (`conjuncts_toCnf`), they say
together what the condition says (`holds_cnf`), as does the normal form itself (`holds_toCnf`), and
they have the atoms of the condition (`mem_atoms_of_mem_cnf`, `exists_mem_cnf_of_mem_atoms`).
-/

namespace ShellQuery

variable {α : Type}

/-! ### Dropping repetitions -/

/-- Induction along the dropping of repetitions: behind the first element only those are left that
do not repeat it. -/
theorem eraseDupsBy_induction {r : α → α → Bool} {P : List α → Prop} (nil : P [])
    (cons : ∀ a as, P (as.filter fun b => r b a = false) → P (a :: as)) (l : List α) : P l := by
  induction hl : l.length using Nat.strongRecOn generalizing l with
  | _ k ih =>
  cases l with
  | nil => exact nil
  | cons a as =>
    have hlt : (as.filter fun b => r b a = false).length < k := by
      have := List.length_filter_le (fun b => decide (r b a = false)) as
      simp only [List.length_cons] at hl
      omega
    exact cons a as (ih _ hlt _ rfl)

theorem mem_of_mem_eraseDupsBy {r : α → α → Bool} {l : List α} {x : α}
    (h : x ∈ l.eraseDupsBy r) : x ∈ l := by
  induction l using eraseDupsBy_induction (r := r) with
  | nil => exact h
  | cons a as ih =>
    rw [List.eraseDupsBy_cons] at h
    rcases List.mem_cons.1 h with rfl | h
    · exact List.mem_cons_self
    · exact List.mem_cons_of_mem a (List.mem_filter.1 (ih h)).1

/-- What is dropped repeats something that is kept. -/
theorem exists_mem_eraseDupsBy {r : α → α → Bool} {l : List α} {x : α} (h : x ∈ l) :
    ∃ y ∈ l.eraseDupsBy r, x = y ∨ r x y = true := by
  induction l using eraseDupsBy_induction (r := r) with
  | nil => exact absurd h List.not_mem_nil
  | cons a as ih =>
    rw [List.eraseDupsBy_cons]
    rcases List.mem_cons.1 h with rfl | h
    · exact ⟨x, List.mem_cons_self, .inl rfl⟩
    · cases hr : r x a with
      | true => exact ⟨a, List.mem_cons_self, .inr hr⟩
      | false =>
        obtain ⟨y, hy, hxy⟩ := ih (List.mem_filter.2 ⟨h, by simpa using hr⟩)
        exact ⟨y, List.mem_cons_of_mem a hy, hxy⟩

/-- Dropping repetitions changes no disjunction of values that are the same for repetitions. -/
theorem any_eraseDupsBy {r : α → α → Bool} {v : α → Bool} (h : ∀ a b, r a b = true → v a = v b)
    (l : List α) : (l.eraseDupsBy r).any v = l.any v := by
  rw [Bool.eq_iff_iff, List.any_eq_true, List.any_eq_true]
  constructor
  · rintro ⟨x, hx, hv⟩
    exact ⟨x, mem_of_mem_eraseDupsBy hx, hv⟩
  · rintro ⟨x, hx, hv⟩
    obtain ⟨y, hy, rfl | hxy⟩ := exists_mem_eraseDupsBy (r := r) hx
    · exact ⟨x, hy, hv⟩
    · exact ⟨y, hy, by rw [← h x y hxy, hv]⟩

theorem all_eraseDupsBy {r : α → α → Bool} {v : α → Bool} (h : ∀ a b, r a b = true → v a = v b)
    (l : List α) : (l.eraseDupsBy r).all v = l.all v := by
  rw [List.all_eq_not_any_not, List.all_eq_not_any_not,
    any_eraseDupsBy fun a b hab => congrArg _ (h a b hab)]

namespace Formula

/-! ### Clauses -/

theorem allClauses_eq (ps : List (Formula α)) : allClauses ps = ps.flatMap clauses := by
  induction ps with
  | nil => rfl
  | cons p ps ih => rw [allClauses, ih, List.flatMap_cons]

/-- Clauses that are put together pairwise all hold exactly when all of one list do or all of the
other. -/
theorem all_any_append (v : α → Bool) (cs ds : List (List α)) :
    (cs.flatMap fun c => ds.map (c ++ ·)).all (·.any v) =
      (cs.all (·.any v) || ds.all (·.any v)) := by
  rw [Bool.eq_iff_iff]
  simp only [List.all_eq_true, List.mem_flatMap, List.mem_map, Bool.or_eq_true]
  constructor
  · intro h
    by_contra! hne
    obtain ⟨⟨c, hc, hcv⟩, d, hd, hdv⟩ := hne
    have := h (c ++ d) ⟨c, hc, d, hd, rfl⟩
    rw [List.any_append, Bool.or_eq_true] at this
    exact this.elim hcv hdv
  · rintro (h | h) _ ⟨c, hc, d, hd, rfl⟩
    · rw [List.any_append, h c hc, Bool.true_or]
    · rw [List.any_append, h d hd, Bool.or_true]

/-- A formula holds exactly when each of its clauses has an atom that does. -/
theorem holds_clauses (v : α → Bool) (p : Formula α) :
    p.clauses.all (·.any v) = p.holds v := by
  -- a conjunction collects clauses, a disjunction multiplies them out part by part
  induction p with
  | atom a => simp [clauses]
  | all ps ih =>
    rw [clauses, allClauses_eq, holds_all, List.all_flatMap, Bool.eq_iff_iff, List.all_eq_true,
      List.all_eq_true]
    exact forall₂_congr fun p hp => by rw [ih p hp]
  | any ps ih =>
    rw [clauses, holds_any]
    induction ps with
    | nil => rfl
    | cons p ps ihps =>
      rw [anyClauses, all_any_append, ih p List.mem_cons_self,
        ihps fun q hq => ih q (List.mem_cons_of_mem p hq), List.any_cons]

/-- Multiplying out brings no atom in. -/
theorem mem_atoms_of_mem_clauses {p : Formula α} {c : List α} (hc : c ∈ p.clauses) {a : α}
    (ha : a ∈ c) : a ∈ p.atoms := by
  induction p generalizing c with
  | atom b =>
    rw [clauses, List.mem_singleton] at hc
    subst hc
    simpa using ha
  | all ps ih =>
    rw [clauses, allClauses_eq, List.mem_flatMap] at hc
    obtain ⟨p, hp, hc⟩ := hc
    rw [atoms_all, List.mem_flatMap]
    exact ⟨p, hp, ih p hp hc ha⟩
  | any ps ih =>
    rw [clauses] at hc
    rw [atoms_any]
    induction ps generalizing c with
    | nil =>
      rw [anyClauses, List.mem_singleton] at hc
      subst hc
      exact absurd ha List.not_mem_nil
    | cons p ps ihps =>
      -- a clause of a disjunction is put together from one clause of each part
      rw [anyClauses, List.mem_flatMap] at hc
      obtain ⟨d, hd, hc⟩ := hc
      obtain ⟨e, he, rfl⟩ := List.mem_map.1 hc
      rw [List.flatMap_cons, List.mem_append]
      rcases List.mem_append.1 ha with ha | ha
      · exact .inl (ih p List.mem_cons_self hd ha)
      · exact .inr (ihps (fun q hq => ih q (List.mem_cons_of_mem p hq)) he ha)

/-- Every conjunction and every disjunction in the formula has a part. -/
inductive Solid : Formula α → Prop
  | atom (a : α) : Solid (atom a)
  | all (ps : List (Formula α)) : ps ≠ [] → (∀ p ∈ ps, Solid p) → Solid (all ps)
  | any (ps : List (Formula α)) : ps ≠ [] → (∀ p ∈ ps, Solid p) → Solid (any ps)

/-- Every conjunction and every disjunction in the formula has two parts or more. -/
inductive Compact : Formula α → Prop
  | atom (a : α) : Compact (atom a)
  | all (ps : List (Formula α)) : 2 ≤ ps.length → (∀ p ∈ ps, Compact p) → Compact (all ps)
  | any (ps : List (Formula α)) : 2 ≤ ps.length → (∀ p ∈ ps, Compact p) → Compact (any ps)

theorem Compact.solid {p : Formula α} (h : p.Compact) : p.Solid := by
  have hne : ∀ {ps : List (Formula α)}, 2 ≤ ps.length → ps ≠ [] :=
    fun hlength => List.ne_nil_of_length_pos (Nat.zero_lt_of_lt hlength)
  induction h with
  | atom a => exact .atom a
  | all ps hlength _ ih => exact .all ps (hne hlength) ih
  | any ps hlength _ ih => exact .any ps (hne hlength) ih

/-- Replacing atoms leaves the parts of conjunctions and disjunctions where they are. -/
theorem Compact.of_mapM {β ε : Type} {f : α → Except ε β} {p : Formula α} {q : Formula β}
    (hp : p.Compact) (h : mapM f p = .ok q) : q.Compact := by
  -- mapping keeps the number of parts
  have hparts : ∀ {ps : List (Formula α)} {qs : List (Formula β)}, ps.mapM (mapM f) = .ok qs →
      (∀ p ∈ ps, ∀ {q}, mapM f p = .ok q → q.Compact) →
      qs.length = ps.length ∧ ∀ q ∈ qs, q.Compact := by
    intro ps qs hqs ih
    have hrel := mapM_ok_iff.1 hqs
    refine ⟨hrel.length_eq.symm, fun q hq => ?_⟩
    obtain ⟨p, hp, hpq⟩ := exists_left_of_forall₂ hrel hq
    exact ih p hp hpq
  induction hp generalizing q with
  | atom a =>
    rw [mapM_atom, map_ok_iff] at h
    obtain ⟨b, -, rfl⟩ := h
    exact .atom b
  | all ps hlength _ ih =>
    rw [mapM_all, map_ok_iff] at h
    obtain ⟨qs, hqs, rfl⟩ := h
    obtain ⟨heq, hcompact⟩ := hparts hqs fun p hp => ih p hp
    exact .all qs (heq ▸ hlength) hcompact
  | any ps hlength _ ih =>
    rw [mapM_any, map_ok_iff] at h
    obtain ⟨qs, hqs, rfl⟩ := h
    obtain ⟨heq, hcompact⟩ := hparts hqs fun p hp => ih p hp
    exact .any qs (heq ▸ hlength) hcompact

/-- A list with an element that is not the only one has two elements or more. -/
theorem two_le_length {as : List α} (hne : as ≠ []) (h : ∀ a, as ≠ [a]) : 2 ≤ as.length := by
  match as with
  | [] => exact absurd rfl hne
  | [a] => exact absurd rfl (h a)
  | _ :: _ :: _ => simp

/-- Replacing the atoms of some conjuncts replaces those of their conjunction. -/
theorem mapM_ofConjuncts {β ε : Type} {f : α → Except ε β} {ps : List (Formula α)}
    {qs : List (Formula β)} (h : List.Forall₂ (fun p q => mapM f p = .ok q) ps qs) :
    mapM f (ofConjuncts ps) = .ok (ofConjuncts qs) := by
  have hall : mapM f (all ps) = .ok (all qs) := by
    rw [mapM_all, mapM_ok_iff.2 h]
    rfl
  match ps, qs, h with
  | [_], [_], .cons hp .nil => exact hp
  | [], [], .nil => exact hall
  | _ :: _ :: _, _ :: _ :: _, _ => exact hall

/-- A single conjunct is its own conjunction, so what is built has two parts or more. -/
theorem compact_ofConjuncts {ps : List (Formula α)} (hne : ps ≠ []) (h : ∀ p ∈ ps, p.Compact) :
    (ofConjuncts ps).Compact := by
  unfold ofConjuncts
  split
  · exact h _ List.mem_cons_self
  · next hsingle => exact .all ps (two_le_length hne hsingle) h

/-- The same goes for the disjunction that a clause stands for. -/
theorem compact_ofClause {c : List α} (hne : c ≠ []) : (ofClause c).Compact := by
  unfold ofClause
  split
  · exact .atom _
  · next hsingle =>
    refine .any _ (by rw [List.length_map]; exact two_le_length hne hsingle) fun p hp => ?_
    obtain ⟨a, -, rfl⟩ := List.mem_map.1 hp
    exact .atom a

/-- If every part of a disjunction has a clause with each of its atoms, the disjunction has one,
too. -/
theorem exists_mem_anyClauses {ps : List (Formula α)}
    (h : ∀ p ∈ ps, p.clauses ≠ [] ∧ ∀ a ∈ p.atoms, ∃ c ∈ p.clauses, a ∈ c) :
    anyClauses ps ≠ [] ∧ ∀ a ∈ ps.flatMap atoms, ∃ c ∈ anyClauses ps, a ∈ c := by
  induction ps with
  | nil => simp [anyClauses]
  | cons p ps ih =>
    obtain ⟨hne, hatoms⟩ := h p List.mem_cons_self
    obtain ⟨hne', hatoms'⟩ := ih fun q hq => h q (List.mem_cons_of_mem p hq)
    -- a clause of the other parts is needed to complete one of `p`, and vice versa
    obtain ⟨c₀, hc₀⟩ := List.exists_mem_of_ne_nil _ hne
    obtain ⟨d₀, hd₀⟩ := List.exists_mem_of_ne_nil _ hne'
    have hmem : ∀ {c d}, c ∈ p.clauses → d ∈ anyClauses ps → c ++ d ∈ anyClauses (p :: ps) := by
      intro c d hc hd
      rw [anyClauses, List.mem_flatMap]
      exact ⟨c, hc, List.mem_map.2 ⟨d, hd, rfl⟩⟩
    refine ⟨List.ne_nil_of_mem (hmem hc₀ hd₀), fun a ha => ?_⟩
    rw [List.flatMap_cons, List.mem_append] at ha
    rcases ha with ha | ha
    · obtain ⟨c, hc, hac⟩ := hatoms a ha
      exact ⟨c ++ d₀, hmem hc hd₀, List.mem_append_left _ hac⟩
    · obtain ⟨d, hd, had⟩ := hatoms' a ha
      exact ⟨c₀ ++ d, hmem hc₀ hd, List.mem_append_right _ had⟩

/-- No atom of a solid formula gets lost among its clauses. -/
theorem Solid.exists_mem_clauses {p : Formula α} (h : p.Solid) :
    p.clauses ≠ [] ∧ ∀ a ∈ p.atoms, ∃ c ∈ p.clauses, a ∈ c := by
  induction h with
  | atom a => simp [clauses]
  | all ps hne _ ih =>
    rw [clauses, allClauses_eq, atoms_all]
    obtain ⟨p, hp⟩ := List.exists_mem_of_ne_nil _ hne
    obtain ⟨c, hc⟩ := List.exists_mem_of_ne_nil _ (ih p hp).1
    refine ⟨List.ne_nil_of_mem (List.mem_flatMap.2 ⟨p, hp, hc⟩), fun a ha => ?_⟩
    obtain ⟨q, hq, ha⟩ := List.mem_flatMap.1 ha
    obtain ⟨d, hd, had⟩ := (ih q hq).2 a ha
    exact ⟨d, List.mem_flatMap.2 ⟨q, hq, hd⟩, had⟩
  | any ps _ _ ih =>
    rw [clauses, atoms_any]
    exact exists_mem_anyClauses ih

/-- A solid formula has no empty clause. -/
theorem Solid.clause_ne_nil {p : Formula α} (h : p.Solid) {c : List α} (hc : c ∈ p.clauses) :
    c ≠ [] := by
  induction h generalizing c with
  | atom a =>
    rw [clauses, List.mem_singleton] at hc
    rw [hc]
    exact List.cons_ne_nil _ _
  | all ps _ _ ih =>
    rw [clauses, allClauses_eq, List.mem_flatMap] at hc
    obtain ⟨p, hp, hc⟩ := hc
    exact ih p hp hc
  | any ps hne _ ih =>
    -- the clause begins with one of the first part
    obtain ⟨p, ps, rfl⟩ := List.exists_cons_of_ne_nil hne
    rw [clauses, anyClauses, List.mem_flatMap] at hc
    obtain ⟨d, hd, hc⟩ := hc
    obtain ⟨e, -, rfl⟩ := List.mem_map.1 hc
    exact List.append_ne_nil_of_left_ne_nil (ih p List.mem_cons_self hd) e

/-! ### The conjuncts of the normal form -/

/-- Clauses with the same atoms, up to repetitions, hold together. -/
theorem any_of_sameClause [BEq α] {v : α → Bool} (hv : ∀ a b : α, (a == b) = true → v a = v b)
    {c d : List α} (h : sameClause c d = true) : c.any v = d.any v := by
  have hsub : ∀ {c d : List α}, c.all (d.contains ·) = true → c.any v = true → d.any v = true := by
    intro c d hcd hc
    obtain ⟨a, ha, hva⟩ := List.any_eq_true.1 hc
    obtain ⟨b, hb, hab⟩ := List.contains_iff_exists_mem_beq.1 (List.all_eq_true.1 hcd a ha)
    exact List.any_eq_true.2 ⟨b, hb, by rw [← hv a b hab, hva]⟩
  rw [sameClause, Bool.and_eq_true] at h
  rw [Bool.eq_iff_iff]
  exact ⟨hsub h.1, hsub h.2⟩

/-- Dropping repeated atoms and clauses changes nothing in the value. -/
theorem holds_distinctClauses [BEq α] {v : α → Bool}
    (hv : ∀ a b : α, (a == b) = true → v a = v b) (cs : List (List α)) :
    (distinctClauses cs).all (·.any v) = cs.all (·.any v) := by
  have hclause : ∀ c d : List α, sameClause c d = true → c.any v = d.any v :=
    fun _ _ => any_of_sameClause hv
  rw [distinctClauses, all_eraseDupsBy hclause, List.all_map, Bool.eq_iff_iff, List.all_eq_true,
    List.all_eq_true]
  exact forall₂_congr fun c _ => by rw [Function.comp, List.eraseDups, any_eraseDupsBy hv]

@[simp]
theorem holds_ofClause (v : α → Bool) (c : List α) : (ofClause c).holds v = c.any v := by
  unfold ofClause
  split
  · simp
  · rw [holds_any, List.any_map]
    exact List.any_congr rfl fun a => holds_atom v a

@[simp]
theorem holds_ofConjuncts (v : α → Bool) (ps : List (Formula α)) :
    (ofConjuncts ps).holds v = ps.all (holds v) := by
  unfold ofConjuncts
  split
  · rw [List.all_cons, List.all_nil, Bool.and_true]
  · rw [holds_all]

@[simp]
theorem atoms_ofClause (c : List α) : (ofClause c).atoms = c := by
  unfold ofClause
  split
  · rw [atoms_atom]
  · rw [atoms_any, List.flatMap_map]
    simp

end Formula

/-! ### Equal comparisons -/

instance : EquivBEq Operand where
  rfl := Operand.same_refl _
  symm h := by rwa [Operand.same_comm]
  trans {x y z} h h' := by
    cases x <;> cases y <;> cases z <;> simp_all [BEq.beq, Operand.same]
    exact ColumnName.identical_trans h h'

theorem Comparison.beq_iff {c d : Comparison} :
    (c == d) = true ↔
      (c.left == d.left) = true ∧ c.operator = d.operator ∧ (c.right == d.right) = true := by
  change Comparison.same c d = true ↔ _
  rw [Comparison.same, Bool.and_eq_true, Bool.and_eq_true, and_assoc, @beq_iff_eq Operator]

instance : EquivBEq Comparison where
  rfl := Comparison.beq_iff.2 ⟨BEq.rfl, rfl, BEq.rfl⟩
  symm h := by
    obtain ⟨hl, ho, hr⟩ := Comparison.beq_iff.1 h
    exact Comparison.beq_iff.2 ⟨BEq.symm hl, ho.symm, BEq.symm hr⟩
  trans h h' := by
    obtain ⟨hl, ho, hr⟩ := Comparison.beq_iff.1 h
    obtain ⟨hl', ho', hr'⟩ := Comparison.beq_iff.1 h'
    exact Comparison.beq_iff.2 ⟨BEq.trans hl hl', ho.trans ho', BEq.trans hr hr'⟩

namespace Condition

open Formula

/-- The conjuncts of the conjunctive normal form of a condition. -/
def cnf (c : Condition) : List Condition :=
  (distinctClauses (Formula.clauses c)).map ofClause

theorem isClause_ofClause (c : List α) : isClause (ofClause c) = true := by
  unfold ofClause
  split
  · rfl
  · simp [isClause, isAtom]

/-- The normal form always falls into its conjuncts. -/
theorem conjuncts_toCnf (c : Condition) : conjuncts (toCnf c) = .ok c.cnf := by
  rw [toCnf, ← cnf]
  have hclauses : ∀ p ∈ c.cnf, isClause p = true := by
    intro p hp
    obtain ⟨d, _, rfl⟩ := List.mem_map.1 hp
    exact isClause_ofClause d
  -- what is built from clauses is a single one of them or a conjunction
  generalize c.cnf = ps at hclauses ⊢
  unfold ofConjuncts
  split
  · next p =>
    have hp := hclauses p List.mem_cons_self
    cases p with
    | atom a => rfl
    | all qs => exact absurd hp (by simp [isClause])
    | any qs =>
      rw [conjuncts, if_pos hp]
      simp
  · rw [conjuncts, List.find?_eq_none.2]
    intro p hp
    simp [hclauses p hp]

/-- The conjuncts hold together exactly when the condition does, whatever the values of its
comparisons are, as long as equal comparisons have the same value. -/
theorem holds_cnf {v : Comparison → Bool} (hv : ∀ a b : Comparison, (a == b) = true → v a = v b)
    (c : Condition) : (cnf c).all (Formula.holds v) = Formula.holds v c := by
  calc (cnf c).all (Formula.holds v)
      = (distinctClauses (Formula.clauses c)).all (·.any v) := by
        rw [cnf, List.all_map]
        exact List.all_congr rfl fun d => holds_ofClause v d
    _ = (Formula.clauses c).all (·.any v) := holds_distinctClauses hv _
    _ = Formula.holds v c := holds_clauses v c

/-- The normal form of a condition has the value of the condition, whatever the values of its
comparisons are, as long as equal comparisons have the same value. An empty conjunction is true and
an empty disjunction false, in the condition as in its normal form. -/
theorem holds_toCnf {v : Comparison → Bool} (hv : ∀ a b : Comparison, (a == b) = true → v a = v b)
    (c : Condition) : Formula.holds v (toCnf c) = Formula.holds v c := by
  calc Formula.holds v (toCnf c) = (cnf c).all (Formula.holds v) := holds_ofConjuncts v _
    _ = Formula.holds v c := holds_cnf hv c

/-- A comparison of the column `city` of `t`, in the given spelling, with a literal. -/
def cityIs (spelling : String) (h : isIdentifier spelling = true ∧ "city" = Text.lower spelling)
    (text : String) : Comparison :=
  ⟨.column ⟨spelling, "city", ["t"], h.1, h.2⟩, .eq, .literal text⟩

/-- One comparison in two spellings, in both parts of a disjunction, beside a conjunction and a
disjunction of nothing. -/
def twoSpellings : Condition :=
  .any [.all [.atom (cityIs "City" (by decide) "Ulm"), .all [], .any []],
    .any [.all [.atom (cityIs "CITY" (by decide) "Ulm"), .atom (cityIs "city" (by decide) "Bonn")],
      .any []]]

/-- One of the four clauses repeats another one up to the spelling of a name. -/
theorem holds_toCnf_twoSpellings :
    (∀ a b : Comparison, (a == b) = true →
      (a == cityIs "city" (by decide) "Ulm") = (b == cityIs "city" (by decide) "Ulm")) ∧
    (Formula.clauses twoSpellings).length = 4 ∧ (cnf twoSpellings).length = 3 ∧
    Formula.holds (· == cityIs "city" (by decide) "Ulm") (toCnf twoSpellings) =
      Formula.holds (· == cityIs "city" (by decide) "Ulm") twoSpellings := by
  have hv : ∀ a b : Comparison, (a == b) = true →
      (a == cityIs "city" (by decide) "Ulm") = (b == cityIs "city" (by decide) "Ulm") :=
    fun a b hab => BEq.congr_left hab
  exact ⟨hv, by decide, by decide, holds_toCnf hv twoSpellings⟩

/-- The conjuncts have no comparison that the condition has not. -/
theorem mem_atoms_of_mem_cnf {c d : Condition} (hd : d ∈ cnf c) {a : Comparison}
    (ha : a ∈ Formula.atoms d) : a ∈ Formula.atoms c := by
  obtain ⟨e, he, rfl⟩ := List.mem_map.1 hd
  rw [atoms_ofClause] at ha
  obtain ⟨e', he', rfl⟩ := List.mem_map.1 (mem_of_mem_eraseDupsBy he)
  exact mem_atoms_of_mem_clauses he' (mem_of_mem_eraseDupsBy ha)

theorem cnf_ne_nil {c : Condition} (hc : Formula.Solid c) : c.cnf ≠ [] := by
  obtain ⟨e, he⟩ := List.exists_mem_of_ne_nil _ hc.exists_mem_clauses.1
  have he' : e.eraseDups ∈ c.clauses.map List.eraseDups := List.mem_map_of_mem he
  obtain ⟨d, hd, -⟩ := exists_mem_eraseDupsBy (r := sameClause) he'
  exact List.ne_nil_of_mem (List.mem_map_of_mem hd)

/-- Every comparison of a solid condition, or one equal to it, stands in some conjunct. -/
theorem exists_mem_cnf_of_mem_atoms {c : Condition} (hc : Formula.Solid c) {a : Comparison}
    (ha : a ∈ Formula.atoms c) :
    ∃ d ∈ cnf c, ∃ b ∈ Formula.atoms d, (a == b) = true := by
  obtain ⟨e, he, hae⟩ := hc.exists_mem_clauses.2 a ha
  obtain ⟨b, hb, hab⟩ : ∃ b ∈ e.eraseDups, (a == b) = true := by
    obtain ⟨b, hb, rfl | hab⟩ := exists_mem_eraseDupsBy (r := (· == ·)) hae
    · exact ⟨a, hb, BEq.rfl⟩
    · exact ⟨b, hb, hab⟩
  have he' : e.eraseDups ∈ c.clauses.map List.eraseDups := List.mem_map_of_mem he
  obtain ⟨d, hd, rfl | hsame⟩ := exists_mem_eraseDupsBy (r := sameClause) he'
  · refine ⟨_, List.mem_map.2 ⟨_, hd, rfl⟩, b, ?_, hab⟩
    rwa [atoms_ofClause]
  · -- the clause was dropped for one with the same comparisons, `b` among them
    rw [sameClause, Bool.and_eq_true] at hsame
    obtain ⟨b', hb', hbb'⟩ := List.contains_iff_exists_mem_beq.1 (List.all_eq_true.1 hsame.1 b hb)
    refine ⟨_, List.mem_map.2 ⟨d, hd, rfl⟩, b', ?_, BEq.trans hab hbb'⟩
    rwa [atoms_ofClause]

/-! ### Conditions read from terms -/

/-- Complete runs of conditions, as the reader keeps them: each has a condition and all are
compact. -/
def CompactRuns (runs : List (List Condition)) : Prop :=
  ∀ run ∈ runs, run ≠ [] ∧ ∀ p ∈ run, Formula.Compact p

/-- A single run is its own disjunction. -/
theorem compact_ofRuns {runs : List (List Condition)} (hne : runs ≠ [])
    (h : CompactRuns runs) : Formula.Compact (ofRuns runs) := by
  have hparts : ∀ p ∈ runs.map ofConjuncts, Formula.Compact p := by
    intro p hp
    obtain ⟨run, hrun, rfl⟩ := List.mem_map.1 hp
    exact compact_ofConjuncts (h run hrun).1 (h run hrun).2
  unfold ofRuns
  split
  · next p heq => exact hparts p (heq ▸ List.mem_cons_self)
  · next hsingle => exact .any _ (Formula.two_le_length (by simpa using hne) hsingle) hparts

theorem CompactRuns.append {runs : List (List Condition)} (h : CompactRuns runs)
    {run : List Condition} (hne : run ≠ []) (hrun : ∀ p ∈ run, Formula.Compact p) :
    CompactRuns (runs ++ [run]) := by
  intro r hr
  rcases List.mem_append.1 hr with hr | hr
  · exact h r hr
  · rw [List.mem_singleton.1 hr]
    exact ⟨hne, hrun⟩

section

variable {P Q : List (List Condition) → List Condition → List Term → Condition → Prop}
  {R : Term → Condition → Prop}

/-- Induction over what the reader succeeds on: from where a condition begins (`P`), from where
one has ended (`Q`), and on a single term (`R`). -/
theorem readTerm_induction
    (comparison : ∀ {l o r a}, Comparison.ofTexts l o r = .ok a → R (.comparison l o r) (.atom a))
    (group : ∀ {ts c}, P [] [] ts c → R (.group ts) c)
    (term : ∀ {runs run t ts p c}, R t p → Q runs (run ++ [p]) ts c → P runs run (t :: ts) c)
    (done : ∀ {runs run}, Q runs run [] (ofRuns (runs ++ [run])))
    (and : ∀ {runs run ts c}, P runs run ts c → Q runs run (.and :: ts) c)
    (or : ∀ {runs run ts c}, P (runs ++ [run]) [] ts c → Q runs run (.or :: ts) c)
    {runs : List (List Condition)} {run : List Condition} {ts : List Term} {c : Condition}
    (h : readTerm runs run ts = .ok c) : P runs run ts c := by
  have key := @readTerm.induct
    (fun runs run ts => ∀ c, readTerm runs run ts = .ok c → P runs run ts c)
    (fun runs run ts => ∀ c, readConnective runs run ts = .ok c → Q runs run ts c)
    (fun t => ∀ c, ofTerm t = .ok c → R t c)
  refine key ?_ ?_ ?_ ?_ ?_ ?_ ?_ ?_ ?_ ?_ ?_ ?_ runs run ts c h
  · intro l o r c h
    rw [ofTerm, map_ok_iff] at h
    obtain ⟨a, ha, rfl⟩ := h
    exact comparison ha
  · -- a connective where a condition should stand
    intro c h
    simp [ofTerm] at h
  · intro c h
    simp [ofTerm] at h
  · -- an empty group
    intro ts hts c h
    rw [ofTerm, if_pos hts] at h
    simp at h
  · intro ts hts ih c h
    rw [ofTerm, if_neg hts] at h
    exact group (ih c h)
  · -- the terms end where a condition should stand
    intro runs run c h
    simp [readTerm] at h
  · intro runs run t ts iht ih c h
    rw [readTerm, bind_ok_iff] at h
    obtain ⟨p, hp, h⟩ := h
    exact term (iht p hp) (ih p c h)
  · intro runs run c h
    rw [readConnective, Except.ok.injEq] at h
    exact h ▸ done
  · intro runs run ts ih c h
    rw [readConnective] at h
    exact and (ih c h)
  · intro runs run ts ih c h
    rw [readConnective] at h
    exact or (ih c h)
  · -- two conditions with no connective between them
    intro runs run l o r ts c h
    simp [readConnective] at h
  · intro runs run us ts c h
    simp [readConnective] at h

end

/-- The reader only ever completes compact runs. -/
theorem compact_of_readTerm {runs : List (List Condition)} {run : List Condition} {ts : List Term}
    {c : Condition} (hruns : CompactRuns runs) (hrun : ∀ p ∈ run, Formula.Compact p)
    (h : readTerm runs run ts = .ok c) : Formula.Compact c := by
  refine readTerm_induction
    (P := fun runs run _ c => CompactRuns runs → (∀ p ∈ run, Formula.Compact p) →
      Formula.Compact c)
    (Q := fun runs run _ c => CompactRuns runs → run ≠ [] →
      (∀ p ∈ run, Formula.Compact p) → Formula.Compact c)
    (R := fun _ c => Formula.Compact c)
    -- with compact conditions in the runs so far, the whole is compact
    ?comparison ?group ?term ?done ?and ?or h hruns hrun
  case comparison =>
    intro l o r a _
    exact .atom a
  case group =>
    intro ts c ih
    exact ih (fun r hr => absurd hr List.not_mem_nil) fun p hp => absurd hp List.not_mem_nil
  case term =>
    intro runs run t ts p c hp ih hruns hrun
    refine ih hruns (by simp) fun q hq => ?_
    rcases List.mem_append.1 hq with hq | hq
    · exact hrun q hq
    · exact List.mem_singleton.1 hq ▸ hp
  case done =>
    intro runs run hruns hne hrun
    exact compact_ofRuns (by simp) (hruns.append hne hrun)
  case and =>
    intro runs run ts c ih hruns hne hrun
    exact ih hruns hrun
  case or =>
    intro runs run ts c ih hruns hne hrun
    exact ih (hruns.append hne hrun) fun p hp => absurd hp List.not_mem_nil

/-- A sequence of terms is never read as a condition with a conjunction or disjunction of less than
two parts. -/
theorem compact_of_ofTerms {ts : List Term} {c : Condition} (h : ofTerms ts = .ok (some c)) :
    Formula.Compact c := by
  unfold ofTerms at h
  split at h
  · simp at h
  · obtain ⟨d, hd, heq⟩ := map_ok_iff.1 h
    obtain rfl := Option.some.inj heq
    exact compact_of_readTerm (fun r hr => absurd hr List.not_mem_nil)
      (fun p hp => absurd hp List.not_mem_nil) hd

theorem solid_of_ofTerms {ts : List Term} {c : Condition} (h : ofTerms ts = .ok (some c)) :
    Formula.Solid c :=
  (compact_of_ofTerms h).solid

/-- The conjuncts of a solid condition are compact. -/
theorem compact_of_mem_cnf {c d : Condition} (hc : Formula.Solid c) (hd : d ∈ c.cnf) :
    Formula.Compact d := by
  obtain ⟨e, he, rfl⟩ := List.mem_map.1 hd
  obtain ⟨e', he', rfl⟩ := List.mem_map.1 (mem_of_mem_eraseDupsBy he)
  obtain ⟨a, ha⟩ := List.exists_mem_of_ne_nil _ (hc.clause_ne_nil he')
  obtain ⟨b, hb, -⟩ := exists_mem_eraseDupsBy (r := (· == ·)) ha
  exact compact_ofClause (List.ne_nil_of_mem hb)

end Condition

end ShellQuery
