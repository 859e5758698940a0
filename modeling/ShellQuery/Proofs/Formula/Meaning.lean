import ShellQuery.Formula.Basic
import ShellQuery.Proofs.Outcome

/-!
# What formulas say

`holds v p` is the value of a formula when every atom has the value `v` gives it. Replacing the
atoms of a formula keeps its value if it keeps theirs (`holds_of_mapM`), and it succeeds exactly
when it succeeds on every atom (`exists_mapM_ok_iff`).
-/

namespace ShellQuery.Formula

variable {α β γ ε : Type}

/-- Induction over a formula, with the hypothesis for every part of a conjunction or disjunction. -/
@[induction_eliminator]
theorem inductionOn {P : Formula α → Prop} (atom : ∀ a, P (.atom a))
    (all : ∀ ps, (∀ p ∈ ps, P p) → P (.all ps)) (any : ∀ ps, (∀ p ∈ ps, P p) → P (.any ps))
    (p : Formula α) : P p := by
  refine @Formula.rec α P (fun ps => ∀ p ∈ ps, P p) atom all any ?_ ?_ p
  · intro p hp
    exact absurd hp List.not_mem_nil
  · intro p ps hp hps q hq
    rcases List.mem_cons.1 hq with rfl | hq
    · exact hp
    · exact hps q hq

/-! ### The value of a formula -/

mutual

/-- The value of a formula whose atoms have the values `v` gives them. -/
def holds (v : α → Bool) : Formula α → Bool
  | atom a => v a
  | all parts => allHold v parts
  | any parts => someHolds v parts

/-- Whether all of some formulas hold. -/
def allHold (v : α → Bool) : List (Formula α) → Bool
  | [] => true
  | p :: ps => holds v p && allHold v ps

/-- Whether one of some formulas holds. -/
def someHolds (v : α → Bool) : List (Formula α) → Bool
  | [] => false
  | p :: ps => holds v p || someHolds v ps

end

@[simp]
theorem holds_atom (v : α → Bool) (a : α) : (atom a).holds v = v a := by
  rw [holds]

@[simp]
theorem holds_all (v : α → Bool) (ps : List (Formula α)) :
    (all ps).holds v = ps.all (holds v) := by
  rw [holds]
  induction ps with
  | nil => rfl
  | cons p ps ih => rw [allHold, ih, List.all_cons]

@[simp]
theorem holds_any (v : α → Bool) (ps : List (Formula α)) :
    (any ps).holds v = ps.any (holds v) := by
  rw [holds]
  induction ps with
  | nil => rfl
  | cons p ps ih => rw [someHolds, ih, List.any_cons]

/-! ### Atoms -/

@[simp]
theorem atoms_atom (a : α) : (atom a).atoms = [a] := by
  rw [atoms]

@[simp]
theorem atoms_all (ps : List (Formula α)) : (all ps).atoms = ps.flatMap atoms := by
  rw [atoms, atomsList_eq]

@[simp]
theorem atoms_any (ps : List (Formula α)) : (any ps).atoms = ps.flatMap atoms := by
  rw [atoms, atomsList_eq]

/-- The value of a formula depends on the values of its atoms only. -/
theorem holds_congr {v w : α → Bool} {p : Formula α} (h : ∀ a ∈ p.atoms, v a = w a) :
    p.holds v = p.holds w := by
  induction p with
  | atom a => simpa using h
  | all ps ih =>
    simp only [atoms_all, List.mem_flatMap] at h
    rw [holds_all, holds_all, Bool.eq_iff_iff, List.all_eq_true, List.all_eq_true]
    exact forall₂_congr fun p hp => by rw [ih p hp fun a ha => h a ⟨p, hp, ha⟩]
  | any ps ih =>
    simp only [atoms_any, List.mem_flatMap] at h
    rw [holds_any, holds_any, Bool.eq_iff_iff, List.any_eq_true, List.any_eq_true]
    exact exists_congr fun p => and_congr_right fun hp => by
      rw [ih p hp fun a ha => h a ⟨p, hp, ha⟩]

/-! ### Replacing atoms -/

theorem mapMList_eq (f : α → Except ε β) (ps : List (Formula α)) :
    mapMList f ps = ps.mapM (mapM f) := by
  induction ps with
  | nil => rw [mapMList, List.mapM_nil]; rfl
  | cons p ps ih => rw [mapMList, List.mapM_cons, ih]

theorem mapM_atom (f : α → Except ε β) (a : α) : mapM f (atom a) = (f a).map atom := by
  rw [mapM]

theorem mapM_all (f : α → Except ε β) (ps : List (Formula α)) :
    mapM f (all ps) = (ps.mapM (mapM f)).map all := by
  rw [mapM, mapMList_eq]

theorem mapM_any (f : α → Except ε β) (ps : List (Formula α)) :
    mapM f (any ps) = (ps.mapM (mapM f)).map any := by
  rw [mapM, mapMList_eq]

/-- What replaces the atoms matters at those atoms only. -/
theorem mapM_congr {f g : α → Except ε β} {p : Formula α} (h : ∀ a ∈ p.atoms, f a = g a) :
    mapM f p = mapM g p := by
  have hparts : ∀ ps : List (Formula α), (∀ p ∈ ps, mapM f p = mapM g p) →
      ps.mapM (mapM f) = ps.mapM (mapM g) := by
    intro ps
    induction ps with
    | nil => exact fun _ => rfl
    | cons p ps ih =>
      intro h
      rw [List.mapM_cons, List.mapM_cons, h p List.mem_cons_self,
        ih fun q hq => h q (List.mem_cons_of_mem p hq)]
  -- on the tree, for the parts of a connective together
  induction p with
  | atom a => rw [mapM_atom, mapM_atom, h a (by simp)]
  | all ps ih =>
    simp only [atoms_all, List.mem_flatMap] at h
    rw [mapM_all, mapM_all, hparts ps fun p hp => ih p hp fun a ha => h a ⟨p, hp, ha⟩]
  | any ps ih =>
    simp only [atoms_any, List.mem_flatMap] at h
    rw [mapM_any, mapM_any, hparts ps fun p hp => ih p hp fun a ha => h a ⟨p, hp, ha⟩]

/-- Replacing atoms one by one replaces the list of atoms one by one. -/
theorem forall₂_atoms_of_mapM {f : α → Except ε β} {p : Formula α} {q : Formula β}
    (h : mapM f p = .ok q) : List.Forall₂ (fun a b => f a = .ok b) p.atoms q.atoms := by
  -- the atoms of the parts stand one after the other, on both sides
  have hparts : ∀ {ps : List (Formula α)} {qs : List (Formula β)},
      (∀ p ∈ ps, ∀ {q : Formula β}, mapM f p = .ok q →
        List.Forall₂ (fun a b => f a = .ok b) p.atoms q.atoms) →
      List.Forall₂ (fun p q => mapM f p = .ok q) ps qs →
      List.Forall₂ (fun a b => f a = .ok b) (ps.flatMap atoms) (qs.flatMap atoms) := by
    intro ps qs ih hq
    induction hq with
    | nil => exact .nil
    | cons hp _ ihps =>
      rw [List.flatMap_cons, List.flatMap_cons]
      exact List.rel_append (ih _ List.mem_cons_self hp)
        (ihps fun p hp => ih p (List.mem_cons_of_mem _ hp))
  induction p generalizing q with
  | atom a =>
    rw [mapM_atom, map_ok_iff] at h
    obtain ⟨b, hb, rfl⟩ := h
    simpa using hb
  | all ps ih =>
    rw [mapM_all, map_ok_iff] at h
    obtain ⟨qs, hqs, rfl⟩ := h
    rw [atoms_all, atoms_all]
    exact hparts (fun p hp _ => ih p hp) (mapM_ok_iff.1 hqs)
  | any ps ih =>
    rw [mapM_any, map_ok_iff] at h
    obtain ⟨qs, hqs, rfl⟩ := h
    rw [atoms_any, atoms_any]
    exact hparts (fun p hp _ => ih p hp) (mapM_ok_iff.1 hqs)

/-- Atoms can be replaced throughout a formula exactly when each of them can. -/
theorem exists_mapM_ok_iff {f : α → Except ε β} {p : Formula α} :
    (∃ q, mapM f p = .ok q) ↔ ∀ a ∈ p.atoms, ∃ b, f a = .ok b := by
  constructor
  · rintro ⟨q, hq⟩ a ha
    obtain ⟨b, _, hb⟩ := exists_right_of_forall₂ (forall₂_atoms_of_mapM hq) ha
    exact ⟨b, hb⟩
  · intro h
    induction p with
    | atom a =>
      obtain ⟨b, hb⟩ := h a (by simp)
      exact ⟨atom b, by rw [mapM_atom, hb]; rfl⟩
    | all ps ih =>
      simp only [atoms_all, List.mem_flatMap] at h
      obtain ⟨qs, hqs⟩ := exists_mapM_ok fun p hp => ih p hp fun a ha => h a ⟨p, hp, ha⟩
      exact ⟨all qs, by rw [mapM_all, hqs]; rfl⟩
    | any ps ih =>
      simp only [atoms_any, List.mem_flatMap] at h
      obtain ⟨qs, hqs⟩ := exists_mapM_ok fun p hp => ih p hp fun a ha => h a ⟨p, hp, ha⟩
      exact ⟨any qs, by rw [mapM_any, hqs]; rfl⟩

/-- Replacing atoms twice is replacing each by what it becomes in the end. -/
theorem mapM_eq_of_mapM {ε' γ : Type} {f : α → Except ε β} {g : β → Except ε' γ}
    {k : α → Except ε' γ} {p : Formula α} {q : Formula β} (h : mapM f p = .ok q)
    (hk : ∀ a ∈ p.atoms, ∀ b, f a = .ok b → k a = g b) : mapM k p = mapM g q := by
  -- the atoms of a part are atoms of the whole
  have hparts : ∀ {ps : List (Formula α)} {qs : List (Formula β)},
      (∀ p ∈ ps, ∀ {q}, mapM f p = .ok q → (∀ a ∈ p.atoms, ∀ b, f a = .ok b → k a = g b) →
        mapM k p = mapM g q) →
      ps.mapM (mapM f) = .ok qs → (∀ a ∈ ps.flatMap atoms, ∀ b, f a = .ok b → k a = g b) →
      ps.mapM (mapM k) = qs.mapM (mapM g) := by
    intro ps qs ih hqs hk
    refine mapM_eq_of_forall₂ (mapM_ok_iff.1 hqs) fun p hp q hq => ih p hp hq fun a ha => ?_
    exact hk a (List.mem_flatMap.2 ⟨p, hp, ha⟩)
  induction p generalizing q with
  | atom a =>
    rw [mapM_atom, map_ok_iff] at h
    obtain ⟨b, hb, rfl⟩ := h
    rw [mapM_atom, mapM_atom, hk a (by simp) b hb]
  | all ps ih =>
    rw [mapM_all, map_ok_iff] at h
    obtain ⟨qs, hqs, rfl⟩ := h
    rw [mapM_all, mapM_all, hparts (fun p hp => ih p hp) hqs (atoms_all ps ▸ hk)]
  | any ps ih =>
    rw [mapM_any, map_ok_iff] at h
    obtain ⟨qs, hqs, rfl⟩ := h
    rw [mapM_any, mapM_any, hparts (fun p hp => ih p hp) hqs (atoms_any ps ▸ hk)]

/-- Replacing atoms by atoms of the same value keeps the value of the formula. -/
theorem holds_of_mapM {f : α → Except ε β} {v : α → Bool} {w : β → Bool} {p : Formula α}
    {q : Formula β} (h : mapM f p = .ok q)
    (hvw : ∀ a ∈ p.atoms, ∀ b, f a = .ok b → w b = v a) : q.holds w = p.holds v := by
  -- part by part the values are the same
  have hparts : ∀ {ps : List (Formula α)} {qs : List (Formula β)},
      (∀ p ∈ ps, ∀ {q}, mapM f p = .ok q → (∀ a ∈ p.atoms, ∀ b, f a = .ok b → w b = v a) →
        q.holds w = p.holds v) →
      ps.mapM (mapM f) = .ok qs → (∀ a ∈ ps.flatMap atoms, ∀ b, f a = .ok b → w b = v a) →
      qs.map (holds w) = ps.map (holds v) := by
    intro ps qs ih hqs hvw
    have hrel := mapM_ok_iff.1 hqs
    clear hqs
    induction hrel with
    | nil => rfl
    | @cons p q ps qs hp _ ihps =>
      simp only [List.flatMap_cons, List.mem_append, or_imp, forall_and] at hvw
      rw [List.map_cons, List.map_cons, ih p List.mem_cons_self hp hvw.1,
        ihps (fun p hp => ih p (List.mem_cons_of_mem _ hp)) hvw.2]
  induction p generalizing q with
  | atom a =>
    rw [mapM_atom, map_ok_iff] at h
    obtain ⟨b, hb, rfl⟩ := h
    rw [holds_atom, holds_atom]
    exact hvw a (by simp) b hb
  | all ps ih =>
    rw [mapM_all, map_ok_iff] at h
    obtain ⟨qs, hqs, rfl⟩ := h
    have hvalues := hparts (fun p hp => ih p hp) hqs (atoms_all ps ▸ hvw)
    rw [holds_all, holds_all, ← Function.id_comp (holds w), ← List.all_map, hvalues,
      List.all_map, Function.id_comp]
  | any ps ih =>
    rw [mapM_any, map_ok_iff] at h
    obtain ⟨qs, hqs, rfl⟩ := h
    have hvalues := hparts (fun p hp => ih p hp) hqs (atoms_any ps ▸ hvw)
    rw [holds_any, holds_any, ← Function.id_comp (holds w), ← List.any_map, hvalues,
      List.any_map, Function.id_comp]

end ShellQuery.Formula
