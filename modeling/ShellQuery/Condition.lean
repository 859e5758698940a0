import ShellQuery.Awk.Test
import ShellQuery.Comparison.Basic
import ShellQuery.Formula.Cnf
import ShellQuery.Statement.Basic

/-!
# Conditions

A condition is a formula over comparisons. It is read from a flat sequence of terms, in which `and`
binds tighter than `or`, and resolved into a test on rows once the positions of its columns are
known.
-/

namespace ShellQuery

/-- A combination of comparisons. -/
abbrev Condition := Formula Comparison

namespace Condition

open Formula

/-- The disjunction of conjunctions that a sequence of terms denotes; one part stands for itself. -/
def ofRuns (runs : List (List Condition)) : Condition :=
  match runs.map ofConjuncts with
  | [p] => p
  | ps => any ps

mutual

/-- Reads the terms from where a condition has to begin. The conditions since the last `or` are in
`run`, those before it in `runs`. -/
def readTerm (runs : List (List Condition)) (run : List Condition) :
    List Term → Except PlanError Condition
  | [] => .error (.malformedCondition .danglingConnective)
  | t :: ts => do
    let c ← ofTerm t
    readConnective runs (run ++ [c]) ts

/-- Reads the terms from where a condition has ended. -/
def readConnective (runs : List (List Condition)) (run : List Condition) :
    List Term → Except PlanError Condition
  | [] => .ok (ofRuns (runs ++ [run]))
  | .and :: ts => readTerm runs run ts
  | .or :: ts => readTerm (runs ++ [run]) [] ts
  | .comparison _ _ _ :: _ => .error (.malformedCondition .missingConnective)
  | .group _ :: _ => .error (.malformedCondition .missingConnective)

/-- The condition that a single term stands for. -/
def ofTerm : Term → Except PlanError Condition
  | .comparison left operator right => (Comparison.ofTexts left operator right).map atom
  | .and => .error (.malformedCondition .danglingConnective)
  | .or => .error (.malformedCondition .danglingConnective)
  | .group ts =>
    if ts.isEmpty then .error (.malformedCondition .emptyGroup) else readTerm [] [] ts

end

/-- The condition that a sequence of terms denotes; no terms are no condition. -/
def ofTerms (ts : List Term) : Except PlanError (Option Condition) :=
  if ts.isEmpty then .ok none else (readTerm [] [] ts).map some

/-- The words a condition is described with. -/
def wording : Wording Comparison :=
  ⟨Comparison.describe, " and ", " or "⟩

/-- The condition in words. -/
def describe (c : Condition) : String :=
  Formula.text wording c

/-- The columns a condition refers to, from left to right. -/
def columns (c : Condition) : List ColumnName :=
  (Formula.atoms c).flatMap Comparison.columns

/-- Whether a condition refers to no column. -/
def isConstant (c : Condition) : Bool :=
  c.columns.isEmpty

/-- Replaces the columns of a condition, from left to right. -/
def mapColumnsM {ε : Type} (f : ColumnName → Except ε ColumnName) (c : Condition) :
    Except ε Condition :=
  Formula.mapM (Comparison.mapColumnsM f) c

/-- The conjuncts of a condition in conjunctive normal form. -/
def conjuncts (c : Condition) : Except PlanError (List Condition) :=
  match c with
  | .all parts =>
    match parts.find? fun p => !isClause p with
    | some p => .error (.malformedCondition (.notClause (describe p)))
    | none => .ok parts
  | c =>
    if isClause c then .ok [c] else .error (.malformedCondition (.notConjunctive (describe c)))

/-- The comparison of a conjunct that can join relations. -/
def join? (c : Condition) : Option Comparison :=
  (Formula.atom? c).filter Comparison.canJoin

/-- Parts conjuncts into the comparisons that can join relations and all others. -/
def classify (cs : List Condition) : List Comparison × List Condition :=
  (cs.filterMap join?, cs.filter fun c => (join? c).isNone)

/-- The side of a comparison, with its column replaced by the position it is found at. -/
def resolveOperand {ε : Type} (position : ColumnName → Except ε Nat) :
    Operand → Except ε Awk.FieldOperand
  | .column name => (position name).map .field
  | .literal text => .ok (.constant text)

/-- A comparison with its columns replaced by the positions they are found at. -/
def resolveComparison {ε : Type} (position : ColumnName → Except ε Nat) (c : Comparison) :
    Except ε Awk.FieldTest := do
  let left ← resolveOperand position c.left
  let right ← resolveOperand position c.right
  return .compare left c.operator right

/-- The test on rows that a condition becomes once its columns have positions. -/
def resolve {ε : Type} (position : ColumnName → Except ε Nat) (c : Condition) :
    Except ε Awk.RowTest :=
  Formula.mapM (resolveComparison position) c

end Condition

end ShellQuery
