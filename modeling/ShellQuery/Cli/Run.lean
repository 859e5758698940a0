import ShellQuery.Cli.Options
import ShellQuery.Compile
import ShellQuery.FileTree
import ShellQuery.Statement.Json

/-!
# Answering a command line

The statement comes from a JSON file, from the command line or from standard input. Its plan is
printed, or a diagnostic.
-/

namespace ShellQuery.Cli

/-- Why a command line has no answer. -/
inductive Failure where
  /-- The statement has no plan. -/
  | query (error : QueryError)
  /-- The statement cannot be read. -/
  | unreadable (what : String) (fault : ReadFault)
  /-- The JSON of a file is no statement. -/
  | invalidStatement (path : String)
  /-- A plan cannot be carried out. -/
  | notStarted (reason : String)
deriving DecidableEq, Repr

namespace Failure

/-- What is said about a failure; a reader that makes no headway leaves nothing to say. -/
def diagnostic? : Failure → Option Diagnostic
  | query (.read (.malformed e)) => some (.ofSyntaxError e)
  | query (.read .emptyWord) => none
  | query (.plan e) => some (.ofPlanError e)
  | unreadable what fault =>
    some ⟨"CLI_001", "failed to read " ++ what ++ ": " ++ fault.message,
      "check the path and its permissions"⟩
  | invalidStatement path =>
    some ⟨"CLI_002", "invalid statement in '" ++ path ++ "'",
      "the file must hold a JSON object with 'columns' and 'relations'"⟩
  | notStarted reason =>
    some ⟨"CLI_003", "failed to start bash: " ++ reason, "--execute needs bash on the PATH"⟩

end Failure

/-- Where the statement of a command line comes from. -/
inductive Origin where
  | json (path : String)
  | argument (text : String)
  | standardInput

namespace Options

/-- Where the statement comes from. -/
def origin (o : Options) : Origin :=
  match o.ast, o.sql with
  | some path, _ => .json path
  | none, some text => .argument text
  | none, none => .standardInput

/-- The settings of the plan. -/
def config (o : Options) : Config :=
  { delimiter := o.delimiter.getD ','
    header := !o.flags.contains .noHeader
    seed := o.seed }

end Options

/-- The statement that the content of a JSON file is. -/
def statementOfJson (path : String) (content : Except ReadFault ByteArray) :
    Except Failure Statement := do
  let text ← (content >>= textOfBytes).mapError (.unreadable path)
  match (Json.ofText text).bind Statement.ofJson? with
  | some statement => return statement
  | none => .error (.invalidStatement path)

/-- The statement that a text is. -/
def statementOfText (text : String) : Except Failure Statement :=
  (Statement.ofText text).mapError fun e => .query (.read e)

/-- The statement that standard input holds. -/
def statementOfInput (content : ByteArray) : Except Failure Statement := do
  let text ← (textOfBytes content).mapError (.unreadable "stdin")
  statementOfText text

/-- The plan of a statement. -/
def planOf (o : Options) (statement : Statement) (catalog : Catalog) : Except Failure String :=
  (Query.plan statement o.config catalog).mapError fun e => .query (.plan e)

/-- How a command line is answered. -/
inductive Answer where
  /-- A text is printed. -/
  | printed (text : String)
  /-- A plan is to be carried out. -/
  | execute (plan : String)
  | failed (failure : Failure)
  | misuse
deriving DecidableEq, Repr

/-- What is printed for the version. -/
def versionLine : String :=
  "sqltxt 0.4.13\n"

/-- What is printed for help. -/
def helpText : String :=
  "Compile SQL SELECT statements over delimited text files into shell pipelines\n\n" ++
  "Usage: sqltxt [OPTIONS] [SQL]\n"

/-- The answer that a plan, or its failure, leads to. -/
def Answer.ofPlan (o : Options) (plan : Except Failure String) : Answer :=
  match plan with
  | .error failure => .failed failure
  | .ok plan => if o.flags.contains .execute then .execute plan else .printed (plan ++ "\n")

/-- The plan that some options ask for, given standard input and the files. -/
def plan (o : Options) (input : ByteArray) (read : String → Except ReadFault ByteArray) :
    Except Failure String := do
  let statement ←
    match o.origin with
    | .json path => statementOfJson path (read path)
    | .argument text => statementOfText text
    | .standardInput => statementOfInput input
  planOf o statement (Catalog.ofFiles read)

/-- The answer to some arguments, given standard input and the files. -/
def answer (arguments : List String) (input : ByteArray)
    (read : String → Except ReadFault ByteArray) : Answer :=
  match Request.ofArguments arguments with
  | .misuse => .misuse
  | .version => .printed versionLine
  | .help => .printed helpText
  | .plan o => .ofPlan o (plan o input read)

/-- The exit status of an answer. -/
def Answer.status : Answer → Nat
  | printed _ => 0
  | execute _ => 0
  | failed failure => if failure.diagnostic?.isSome then 1 else 101
  | misuse => 2

end ShellQuery.Cli
