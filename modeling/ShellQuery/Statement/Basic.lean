/-!
# Statements

A SELECT statement as the planner takes it: what to print, the relations to read and the conditions
to keep rows by. The conditions are a flat sequence, read from left to right; what stands in
parentheses is a group within it.
-/

namespace ShellQuery

/-- An element of a sequence of conditions. -/
inductive Term where
  /-- A comparison, by its three texts. -/
  | comparison (left operator right : String)
  | and
  | or
  /-- A sequence in parentheses. -/
  | group (terms : List Term)
deriving Repr

/-- A file to read rows from. -/
structure Relation where
  path : String
  /-- The alias given to the file, if any. -/
  label : Option String
deriving DecidableEq, Repr

namespace Relation

/-- The name a relation goes by: its alias, or its path without one. -/
def name (r : Relation) : String :=
  r.label.getD r.path

end Relation

/-- A SELECT statement. -/
structure Statement where
  /-- The select items: `*`, `t.*`, `count(*)`, `count(name)` or a column name. -/
  columns : List String
  relations : List Relation
  conditions : List Term
  /-- How many rows to sample, if asked to. -/
  sample : Option Nat
deriving Repr

end ShellQuery
