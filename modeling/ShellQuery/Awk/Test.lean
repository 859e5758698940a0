import ShellQuery.Awk.Literal
import ShellQuery.Comparison.Operator
import ShellQuery.Formula.Basic

/-!
# Tests on the fields of a row

What a filter step asks of a row: comparisons between fields, given by position, and literals,
combined into a formula. Positions count from zero; awk numbers fields from one.
-/

namespace ShellQuery.Awk

/-- One side of a comparison on a row. -/
inductive FieldOperand where
  /-- The field at a position. -/
  | field (position : Nat)
  /-- A literal of the statement. -/
  | constant (text : String)
deriving DecidableEq, Repr

/-- An atomic test on a row. -/
inductive FieldTest where
  /-- A comparison of two operands. -/
  | compare (left : FieldOperand) (operator : Operator) (right : FieldOperand)
  /-- A test given in awk's own words. -/
  | verbatim (text : String)
deriving DecidableEq, Repr

/-- The field at a position, as awk refers to it. -/
def fieldRef (position : Nat) : String :=
  "$" ++ toString (position + 1)

namespace FieldOperand

/-- The operand as awk writes it. -/
def text : FieldOperand → String
  | field position => fieldRef position
  | constant text => literal text

end FieldOperand

namespace FieldTest

/-- The test as awk writes it. -/
def text : FieldTest → String
  | compare left operator right => left.text ++ " " ++ operator.symbol ++ " " ++ right.text
  | verbatim text => text

end FieldTest

/-- A formula over tests, as a filter step carries it. -/
abbrev RowTest := Formula FieldTest

/-- awk's words for conjunction and disjunction. -/
def wording : Formula.Wording FieldTest :=
  ⟨FieldTest.text, " && ", " || "⟩

namespace RowTest

/-- A test on a row as awk writes it. -/
def text (t : RowTest) : String :=
  Formula.text wording t

/-- Several tests that must all hold, as awk writes them. -/
def conjunctionText (ts : List RowTest) : String :=
  String.intercalate wording.conjunction (ts.map text)

end RowTest

end ShellQuery.Awk
