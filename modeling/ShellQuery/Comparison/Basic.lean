import ShellQuery.Comparison.Operand
import ShellQuery.Comparison.Operator

/-!
# Comparisons

An atomic condition: an operator between two operands.
-/

namespace ShellQuery

/-- Two operands and the operator between them. -/
structure Comparison where
  left : Operand
  operator : Operator
  right : Operand

namespace Comparison

/-- Reads a comparison from its three parts. -/
def ofTexts (left operator right : String) : Except PlanError Comparison :=
  (Operator.ofText operator).map fun o => ⟨.ofText left, o, .ofText right⟩

/-- The comparison in words. -/
def describe (c : Comparison) : String :=
  c.left.describe ++ " " ++ c.operator.symbol ++ " " ++ c.right.describe

/-- The same operator between the same operands, in the same order. -/
def same (c d : Comparison) : Bool :=
  c.left == d.left && c.operator == d.operator && c.right == d.right

instance : BEq Comparison := ⟨same⟩

/-- Whether the comparison can join relations: an equality between columns that are qualified
differently. -/
def canJoin (c : Comparison) : Bool :=
  match c.left, c.right with
  | .column l, .column r => c.operator == .eq && !l.sameQualifiers r
  | _, _ => false

/-- The comparison that holds exactly where the given one does not. -/
def negate (c : Comparison) : Comparison :=
  { c with operator := c.operator.negate }

/-- The columns a comparison refers to, from left to right. -/
def columns (c : Comparison) : List ColumnName :=
  c.left.column?.toList ++ c.right.column?.toList

/-- Replaces the columns of a comparison, from left to right. -/
def mapColumnsM {ε : Type} (f : ColumnName → Except ε ColumnName) (c : Comparison) :
    Except ε Comparison := do
  let left ← c.left.mapColumnM f
  let right ← c.right.mapColumnM f
  return ⟨left, c.operator, right⟩

@[simp]
theorem negate_negate (c : Comparison) : c.negate.negate = c := by
  cases c
  simp [negate]

end Comparison

end ShellQuery
