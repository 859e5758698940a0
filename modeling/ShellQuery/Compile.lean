import ShellQuery.Query
import ShellQuery.Statement.Parser

/-!
# From the text of a statement to its plan
-/

namespace ShellQuery

/-- Why a text has no plan. -/
inductive QueryError where
  /-- The text is no statement. -/
  | read (error : ReadError)
  /-- The statement cannot be planned. -/
  | plan (error : PlanError)
deriving DecidableEq, Repr

/-- What a user is told about an error. -/
structure Diagnostic where
  code : String
  message : String
  /-- What to do about it. -/
  help : String
deriving DecidableEq, Repr

namespace Diagnostic

/-- The lines of a diagnostic. -/
def text (d : Diagnostic) : String :=
  "error[" ++ d.code ++ "]: " ++ d.message ++ "\n  help: " ++ d.help

/-- What is said about a statement that cannot be planned. -/
def ofPlanError (e : PlanError) : Diagnostic :=
  ⟨e.code, e.message, e.help⟩

/-- What is said about a text that is no statement. -/
def ofSyntaxError (e : SyntaxError) : Diagnostic :=
  ⟨"SQL_001", e.message,
    "supported form: SELECT items FROM relations [WHERE ...] [TABLESAMPLE (n)]"⟩

end Diagnostic

/-- The plan of the statement that a text is. -/
def compile (text : String) (config : Config) (catalog : Catalog) : Except QueryError String := do
  let statement ← (Statement.ofText text).mapError .read
  (Query.plan statement config catalog).mapError .plan

end ShellQuery
