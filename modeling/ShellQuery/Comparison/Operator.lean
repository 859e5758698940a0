import ShellQuery.Error
import ShellQuery.Text.Ascii
import ShellQuery.Text.Blank

/-!
# Comparison operators
-/

namespace ShellQuery

/-- The six comparison operators. -/
inductive Operator where
  | eq
  | ne
  | lt
  | le
  | gt
  | ge
deriving DecidableEq, Repr

namespace Operator

/-- The operator a trimmed, lower-case word stands for. -/
def ofWord? (word : String) : Option Operator :=
  if word = "=" ∨ word = "==" ∨ word = "eq" then some eq
  else if word = "!=" ∨ word = "<>" ∨ word = "ne" then some ne
  else if word = "<" ∨ word = "lt" then some lt
  else if word = "<=" ∨ word = "le" then some le
  else if word = ">" ∨ word = "gt" then some gt
  else if word = ">=" ∨ word = "ge" then some ge
  else none

/-- Reads an operator; blanks around it and the case of its letters do not matter. -/
def ofText (text : String) : Except PlanError Operator :=
  match ofWord? (Text.lower (Text.trim text)) with
  | some operator => .ok operator
  | none => .error (.invalidOperator text)

/-- The one symbol an operator is written with. -/
def symbol : Operator → String
  | eq => "=="
  | ne => "!="
  | lt => "<"
  | le => "<="
  | gt => ">"
  | ge => ">="

/-- The operator that holds exactly where the given one does not. -/
def negate : Operator → Operator
  | eq => ne
  | ne => eq
  | lt => ge
  | le => gt
  | gt => le
  | ge => lt

@[simp]
theorem negate_negate (o : Operator) : o.negate.negate = o := by
  cases o <;> rfl

end Operator

end ShellQuery
