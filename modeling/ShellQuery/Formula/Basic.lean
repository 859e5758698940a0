/-!
# Formulas without negation

Conjunctions and disjunctions of any number of parts, over atoms of any kind. The conditions of a
statement are formulas over comparisons of columns; the filter steps of a pipeline test formulas
over comparisons of fields.
-/

namespace ShellQuery

/-- A combination of atoms by conjunction and disjunction. -/
inductive Formula (α : Type) where
  | atom (a : α)
  /-- All parts hold; nothing to hold is true. -/
  | all (parts : List (Formula α))
  /-- Some part holds; nothing to hold is false. -/
  | any (parts : List (Formula α))
deriving Repr

namespace Formula

variable {α β ε : Type}

/-- The atom a formula consists of, if it is one. -/
def atom? : Formula α → Option α
  | atom a => some a
  | _ => none

mutual

/-- The atoms of a formula, from left to right. -/
def atoms : Formula α → List α
  | atom a => [a]
  | all parts => atomsList parts
  | any parts => atomsList parts

/-- The atoms of some formulas, from left to right. -/
def atomsList : List (Formula α) → List α
  | [] => []
  | p :: ps => atoms p ++ atomsList ps

end

mutual

/-- Replaces every atom, from left to right, up to the first failure. -/
def mapM (f : α → Except ε β) : Formula α → Except ε (Formula β)
  | atom a => (f a).map atom
  | all parts => (mapMList f parts).map all
  | any parts => (mapMList f parts).map any

/-- Replaces every atom of some formulas, from left to right, up to the first failure. -/
def mapMList (f : α → Except ε β) : List (Formula α) → Except ε (List (Formula β))
  | [] => .ok []
  | p :: ps => do
    let q ← mapM f p
    let qs ← mapMList f ps
    return q :: qs

end

/-- How the atoms of a formula and what joins them are written. -/
structure Wording (α : Type) where
  atom : α → String
  /-- Stands between the parts of a conjunction. -/
  conjunction : String
  /-- Stands between the parts of a disjunction. -/
  disjunction : String

mutual

/-- The text of a formula: every conjunction and disjunction stands in parentheses. -/
def text (w : Wording α) : Formula α → String
  | atom a => w.atom a
  | all parts => "(" ++ String.intercalate w.conjunction (textList w parts) ++ ")"
  | any parts => "(" ++ String.intercalate w.disjunction (textList w parts) ++ ")"

/-- The texts of some formulas. -/
def textList (w : Wording α) : List (Formula α) → List String
  | [] => []
  | p :: ps => text w p :: textList w ps

end

mutual

/-- The same combination of equal atoms. -/
def same [BEq α] : Formula α → Formula α → Bool
  | atom a, atom b => a == b
  | all ps, all qs => sameList ps qs
  | any ps, any qs => sameList ps qs
  | _, _ => false

/-- The same formulas, one by one. -/
def sameList [BEq α] : List (Formula α) → List (Formula α) → Bool
  | [], [] => true
  | p :: ps, q :: qs => same p q && sameList ps qs
  | _, _ => false

end

instance [BEq α] : BEq (Formula α) := ⟨same⟩

theorem atomsList_eq (ps : List (Formula α)) : atomsList ps = ps.flatMap atoms := by
  induction ps with
  | nil => rfl
  | cons p ps ih => rw [atomsList, ih, List.flatMap_cons]

theorem textList_eq (w : Wording α) (ps : List (Formula α)) :
    textList w ps = ps.map (text w) := by
  induction ps with
  | nil => rfl
  | cons p ps ih => rw [textList, ih, List.map_cons]

end Formula

end ShellQuery
