import ShellQuery.Proofs.Formula.Cnf

/-!
# Replacing the atoms of a formula

`Formula.map` replaces every atom by another one. It goes through all that is done with formulas:
reading off the atoms (`atoms_map`), failing replacements before and after it (`mapM_map`,
`map_mapM`), and the normal form, if equal atoms stay equal and different ones different
(`clauses_map`, `distinctClauses_map`).
-/

namespace ShellQuery

variable {α β γ ε : Type}

/-! ### Dropping repetitions -/

/-- Repetitions are dropped at the same places if the elements of both lists repeat each other
alike. -/
theorem eraseDupsBy_map {r : α → α → Bool} {r' : β → β → Bool} {f : α → β}
    (h : ∀ a b, r' (f a) (f b) = r a b) (l : List α) :
    (l.map f).eraseDupsBy r' = (l.eraseDupsBy r).map f := by
  induction l using eraseDupsBy_induction (r := r) with
  | nil => rfl
  | cons a as ih =>
    have hfilter : (as.map f).filter (fun b => r' b (f a) = false) =
        (as.filter fun b => r b a = false).map f := by
      rw [List.filter_map]
      exact congrArg _ (List.filter_congr fun b _ => by simp only [Function.comp, h])
    rw [List.map_cons, List.eraseDupsBy_cons, hfilter, ih, List.eraseDupsBy_cons, List.map_cons]

theorem contains_map [BEq α] [BEq β] {f : α → β} (h : ∀ a b, (f a == f b) = (a == b)) (l : List α)
    (a : α) : (l.map f).contains (f a) = l.contains a := by
  rw [List.contains_eq_any_beq, List.contains_eq_any_beq, List.any_map]
  exact List.any_congr rfl fun b => h a b

namespace Formula

/-! ### Atoms -/

mutual

/-- Replaces every atom. -/
def map (f : α → β) : Formula α → Formula β
  | atom a => atom (f a)
  | all parts => all (mapList f parts)
  | any parts => any (mapList f parts)

/-- Replaces every atom of some formulas. -/
def mapList (f : α → β) : List (Formula α) → List (Formula β)
  | [] => []
  | p :: ps => map f p :: mapList f ps

end

theorem mapList_eq (f : α → β) (ps : List (Formula α)) : mapList f ps = ps.map (map f) := by
  induction ps with
  | nil => rw [mapList, List.map_nil]
  | cons p ps ih => rw [mapList, ih, List.map_cons]

@[simp]
theorem map_atom (f : α → β) (a : α) : (atom a).map f = atom (f a) := by
  rw [map]

@[simp]
theorem map_all (f : α → β) (ps : List (Formula α)) : (all ps).map f = all (ps.map (map f)) := by
  rw [map, mapList_eq]

@[simp]
theorem map_any (f : α → β) (ps : List (Formula α)) : (any ps).map f = any (ps.map (map f)) := by
  rw [map, mapList_eq]

/-- The atoms are mapped one by one. -/
theorem atoms_map (f : α → β) (p : Formula α) : (p.map f).atoms = p.atoms.map f := by
  have hparts : ∀ ps : List (Formula α), (∀ p ∈ ps, (p.map f).atoms = p.atoms.map f) →
      (ps.map (map f)).flatMap atoms = (ps.flatMap atoms).map f := by
    intro ps ih
    rw [List.flatMap_map, List.map_flatMap]
    exact List.flatMap_congr ih
  induction p with
  | atom a => rw [map_atom, atoms_atom, atoms_atom, List.map_singleton]
  | all ps ih => rw [map_all, atoms_all, atoms_all, hparts ps ih]
  | any ps ih => rw [map_any, atoms_any, atoms_any, hparts ps ih]

theorem atom?_map (f : α → β) (p : Formula α) : (p.map f).atom? = p.atom?.map f := by
  cases p with
  | atom a => rw [map_atom]; rfl
  | all ps => rw [map_all]; rfl
  | any ps => rw [map_any]; rfl

/-! ### Replacements that may fail -/

/-- A replacement that may fail, behind another one. -/
theorem mapM_map (f : α → β) (g : β → Except ε γ) (p : Formula α) :
    mapM g (p.map f) = mapM (fun a => g (f a)) p := by
  have hparts : ∀ ps : List (Formula α),
      (∀ p ∈ ps, mapM g (p.map f) = mapM (fun a => g (f a)) p) →
      (ps.map (map f)).mapM (mapM g) = ps.mapM (mapM fun a => g (f a)) := by
    intro ps ih
    rw [List.mapM_map]
    exact mapM_congr_mem ih
  induction p with
  | atom a => rw [map_atom, mapM_atom, mapM_atom]
  | all ps ih => rw [map_all, mapM_all, mapM_all, hparts ps ih]
  | any ps ih => rw [map_any, mapM_any, mapM_any, hparts ps ih]

/-- A replacement behind one that may fail. -/
theorem map_mapM (f : α → Except ε β) (g : β → γ) (p : Formula α) :
    (mapM f p).map (map g) = mapM (fun a => (f a).map g) p := by
  have hparts : ∀ ps : List (Formula α),
      (∀ p ∈ ps, (mapM f p).map (map g) = mapM (fun a => (f a).map g) p) →
      (ps.mapM (mapM f)).map (List.map (map g)) = ps.mapM (mapM fun a => (f a).map g) := by
    intro ps ih
    rw [mapM_comp_map]
    exact mapM_congr_mem ih
  -- on the tree; where the first step fails, nothing is left to be mapped
  induction p with
  | atom a =>
    rw [mapM_atom, mapM_atom]
    cases f a with
    | error e => rfl
    | ok b => exact congrArg Except.ok (map_atom g b)
  | all ps ih =>
    rw [mapM_all, mapM_all, ← hparts ps ih]
    cases ps.mapM (mapM f) with
    | error e => rfl
    | ok qs => exact congrArg Except.ok (map_all g qs)
  | any ps ih =>
    rw [mapM_any, mapM_any, ← hparts ps ih]
    cases ps.mapM (mapM f) with
    | error e => rfl
    | ok qs => exact congrArg Except.ok (map_any g qs)

/-! ### The normal form -/

theorem ofClause_map (f : α → β) (c : List α) : ofClause (c.map f) = (ofClause c).map f := by
  have hatoms : (c.map f).map atom = (c.map atom).map (map f) := by
    rw [List.map_map, List.map_map]
    exact List.map_congr_left fun a _ => (map_atom f a).symm
  match c with
  | [] => exact (map_any f []).symm
  | [a] => exact (map_atom f a).symm
  | a :: b :: c => exact (congrArg any hatoms).trans (map_any f _).symm

theorem ofConjuncts_map (f : α → β) (ps : List (Formula α)) :
    ofConjuncts (ps.map (map f)) = (ofConjuncts ps).map f := by
  match ps with
  | [] => exact (map_all f []).symm
  | [p] => rfl
  | p :: q :: ps => exact (map_all f (p :: q :: ps)).symm

/-- The clauses are mapped atom by atom. -/
theorem clauses_map (f : α → β) (p : Formula α) :
    (p.map f).clauses = p.clauses.map (List.map f) := by
  -- a disjunction multiplies out its parts, which the map does not see
  have hany : ∀ ps : List (Formula α),
      (∀ p ∈ ps, (p.map f).clauses = p.clauses.map (List.map f)) →
      anyClauses (ps.map (map f)) = (anyClauses ps).map (List.map f) := by
    intro ps
    induction ps with
    | nil => exact fun _ => rfl
    | cons p ps ihps =>
      intro ih
      rw [List.map_cons, anyClauses, anyClauses, ih p List.mem_cons_self,
        ihps fun q hq => ih q (List.mem_cons_of_mem p hq)]
      simp only [List.flatMap_map, List.map_flatMap, List.map_map, Function.comp_def,
        List.map_append]
  induction p with
  | atom a =>
    rw [map_atom, clauses, clauses]
    rfl
  | all ps ih =>
    rw [map_all, clauses, clauses, allClauses_eq, allClauses_eq, List.flatMap_map,
      List.map_flatMap]
    exact List.flatMap_congr ih
  | any ps ih => rw [map_any, clauses, clauses, hany ps ih]

/-- Clauses repeat each other alike if their atoms do. -/
theorem distinctClauses_map [BEq α] [BEq β] {f : α → β} (h : ∀ a b, (f a == f b) = (a == b))
    (cs : List (List α)) :
    distinctClauses (cs.map (List.map f)) = (distinctClauses cs).map (List.map f) := by
  have hclause : ∀ c d : List α, sameClause (c.map f) (d.map f) = sameClause c d := by
    intro c d
    simp only [sameClause, List.all_map, Function.comp_def, contains_map h]
  have hdups : (cs.map (List.map f)).map List.eraseDups =
      (cs.map List.eraseDups).map (List.map f) := by
    rw [List.map_map, List.map_map]
    exact List.map_congr_left fun c _ => eraseDupsBy_map (fun a b => h a b) c
  rw [distinctClauses, hdups, eraseDupsBy_map hclause, distinctClauses]

end Formula

end ShellQuery
