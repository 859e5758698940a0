import ShellQuery.Formula.Basic

/-!
# Conjunctive normal form

A formula is brought into a conjunction of clauses, each a disjunction of atoms, by distributing
disjunction over conjunction. Atoms repeated in a clause are dropped, and so are clauses that hold
the same atoms as an earlier one.
-/

namespace ShellQuery.Formula

variable {α : Type}

mutual

/-- The clauses of a formula, each a list of atoms, before repetitions are dropped. -/
def clauses : Formula α → List (List α)
  | atom a => [[a]]
  | all parts => allClauses parts
  | any parts => anyClauses parts

/-- The clauses of a conjunction: those of all its parts. -/
def allClauses : List (Formula α) → List (List α)
  | [] => []
  | p :: ps => clauses p ++ allClauses ps

/-- The clauses of a disjunction: one clause of each part, put together in every possible way. -/
def anyClauses : List (Formula α) → List (List α)
  | [] => [[]]
  | p :: ps =>
    let rest := anyClauses ps
    (clauses p).flatMap fun c => rest.map (c ++ ·)

end

/-- Whether two clauses hold the same atoms. -/
def sameClause [BEq α] (c d : List α) : Bool :=
  c.all (d.contains ·) && d.all (c.contains ·)

/-- The clauses without repeated atoms and without repeated clauses. -/
def distinctClauses [BEq α] (cs : List (List α)) : List (List α) :=
  (cs.map List.eraseDups).eraseDupsBy sameClause

/-- A clause as a formula; a clause of one atom is that atom. -/
def ofClause : List α → Formula α
  | [a] => atom a
  | as => any (as.map atom)

/-- A list of conjuncts as a formula; a single conjunct stands for itself. -/
def ofConjuncts : List (Formula α) → Formula α
  | [p] => p
  | ps => all ps

/-- The conjunctive normal form. -/
def toCnf [BEq α] (p : Formula α) : Formula α :=
  ofConjuncts ((distinctClauses p.clauses).map ofClause)

/-- Whether a formula is an atom. -/
def isAtom : Formula α → Bool
  | atom _ => true
  | _ => false

/-- Whether a formula is an atom or a disjunction of atoms. -/
def isClause : Formula α → Bool
  | atom _ => true
  | any parts => parts.all isAtom
  | all _ => false

end ShellQuery.Formula
