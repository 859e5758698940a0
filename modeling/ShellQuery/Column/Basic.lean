import ShellQuery.Column.Name
import ShellQuery.Text.Blank

/-!
# Columns of a table

A column answers to every name it was ever known by: after a join the merged key column can be
addressed through the names of either side. Its label is what the header line prints.
-/

namespace ShellQuery

/-- A column, known by a primary name and further names. -/
structure Column where
  /-- The name the column was introduced with. -/
  primary : ColumnName
  /-- Names it took over from columns merged into it. -/
  further : List ColumnName
  /-- The name it is printed under. -/
  label : ColumnName

namespace Column

/-- All names of a column, the primary one first. -/
def names (c : Column) : List ColumnName :=
  c.primary :: c.further

/-- A column with one name, which is also its label. -/
def ofName (n : ColumnName) : Column :=
  ⟨n, [], n⟩

/-- The column that a header field gives to the relation known by `qualifiers`. -/
def ofField (field : String) (qualifiers : List String) : Except PlanError Column :=
  (ColumnName.make (Text.trim field) qualifiers).map ofName

/-- The column printed under another name. -/
def withLabel (c : Column) (label : ColumnName) : Column :=
  { c with label := label }

/-- Whether a reference written as `n` may mean the column. -/
def answersTo (c : Column) (n : ColumnName) : Bool :=
  c.names.any fun own => n.denotes own

/-- Whether one of the column's names, as a reference, may mean the other column. -/
def denotes (c d : Column) : Bool :=
  c.names.any fun own => d.answersTo own

/-- Adds a name unless an identical one is there. -/
def addName (c : Column) (n : ColumnName) : Column :=
  if c.names.any (·.identical n) then c else { c with further := c.further ++ [n] }

/-- The column that results when `l` and `r` are joined on equality: it has the names of both and
the label of `l`. -/
def merge (l r : Column) : Column :=
  r.names.foldl addName l

/-- Columns are identical if their names are, one by one, and their aliases. -/
def identical (c d : Column) : Bool :=
  c.names.isEqv d.names ColumnName.identical && c.label.identical d.label

/-- Every name of the column with its qualifiers. -/
def describe (c : Column) : String :=
  String.intercalate " = " (c.names.map ColumnName.qualified)

/-- What the header line prints for the column. -/
def header (c : Column) : String :=
  c.label.spelling

@[simp]
theorem label_addName (c : Column) (n : ColumnName) : (c.addName n).label = c.label := by
  unfold addName
  split <;> rfl

@[simp]
theorem label_merge (l r : Column) : (l.merge r).label = l.label := by
  unfold merge
  generalize r.names = ns
  induction ns generalizing l with
  | nil => rfl
  | cons n ns ih => rw [List.foldl_cons, ih, label_addName]

theorem names_addName (c : Column) (n : ColumnName) :
    (c.addName n).names = if c.names.any (·.identical n) then c.names else c.names ++ [n] := by
  unfold addName
  split <;> simp [names]

end Column

end ShellQuery
