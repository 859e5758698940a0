import ShellQuery.Column.Name
import ShellQuery.Text.Blank

/-!
# Operands of a comparison

Whatever reads as a column name is a column; numerals, quoted strings and every other text are
literals.
-/

namespace ShellQuery

/-- One side of a comparison. -/
inductive Operand where
  /-- A reference to a column. -/
  | column (name : ColumnName)
  /-- A text taken as it is. -/
  | literal (text : String)

namespace Operand

/-- Reads an operand, without the blanks around it. -/
def ofText (text : String) : Operand :=
  match ColumnName.ofText (Text.trim text) with
  | .ok name => column name
  | .error _ => literal (Text.trim text)

/-- The column an operand refers to. -/
def column? : Operand → Option ColumnName
  | column name => some name
  | literal _ => none

/-- The operand in words. -/
def describe : Operand → String
  | column name => name.qualified
  | literal text => text

/-- The same literal, or identical column names. -/
def same : Operand → Operand → Bool
  | column m, column n => m.identical n
  | literal s, literal t => s == t
  | _, _ => false

instance : BEq Operand := ⟨same⟩

/-- Replaces the column of an operand. -/
def mapColumnM {ε : Type} (f : ColumnName → Except ε ColumnName) : Operand → Except ε Operand
  | column name => (f name).map column
  | literal text => .ok (literal text)

theorem same_refl (x : Operand) : (x == x) = true := by
  cases x <;> simp [BEq.beq, same]

/-- Equal operands are identical columns or one literal. -/
theorem beq_iff {x y : Operand} : (x == y) = true ↔
    (∃ m n, x = column m ∧ y = column n ∧ m.identical n = true) ∨
      ∃ text, x = literal text ∧ y = literal text := by
  cases x with
  | column m => cases y <;> simp [BEq.beq, same]
  | literal s =>
    cases y with
    | column n => simp [BEq.beq, same]
    | literal t =>
      have hsame : (literal s == literal t) = true ↔ s = t := beq_iff_eq (α := String)
      rw [hsame]
      constructor
      · rintro rfl
        exact .inr ⟨s, rfl, rfl⟩
      · rintro (⟨m, n, ⟨⟩, -⟩ | ⟨text, ⟨⟩, ⟨⟩⟩)
        rfl

/-- What is the same for identical columns is the same for equal operands. -/
theorem congr_of_beq {α : Type} {f : Operand → α} {x y : Operand} (h : (x == y) = true)
    (hf : ∀ {m n : ColumnName}, m.identical n = true → f (column m) = f (column n)) :
    f x = f y := by
  rcases beq_iff.1 h with ⟨m, n, rfl, rfl, hmn⟩ | ⟨text, rfl, rfl⟩
  · exact hf hmn
  · rfl

theorem same_comm (x y : Operand) : (x == y) = (y == x) := by
  cases x <;> cases y <;> simp [BEq.beq, same, ColumnName.identical_comm, eq_comm]

end Operand

end ShellQuery
