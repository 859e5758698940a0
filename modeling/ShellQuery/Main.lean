import ShellQuery.Cli.Run

/-!
# The command

Reads what the arguments name, and prints the answer to them.
-/

namespace ShellQuery.Cli

/-- What went wrong with a file, as far as it has a name of its own. -/
def faultOfError (error : IO.Error) : ReadFault :=
  match error with
  | .noFileOrDirectory _ _ _ => .noSuchFile
  | .inappropriateType _ 20 _ => .notDirectory
  | .inappropriateType _ 21 _ => .isDirectory
  | e => .other (toString e)

/-- The content of a file. -/
def readContent (path : String) : IO (Except ReadFault ByteArray) := do
  try
    return .ok (← IO.FS.readBinFile path)
  catch e =>
    return .error (faultOfError e)

/-- Everything that standard input holds. -/
def readInput : IO ByteArray := do
  (← IO.getStdin).readBinToEnd

/-- Finds the content of a file among those that were read. -/
def lookupContent (contents : List (String × Except ReadFault ByteArray)) (path : String) :
    Except ReadFault ByteArray :=
  (contents.lookup path).getD (.error .noSuchFile)

/-- The answer to the options of a command line. -/
def answerOptions (o : Options) : IO Answer := do
  let statement ←
    match o.origin with
    | .json path => pure (statementOfJson path (← readContent path))
    | .argument text => pure (statementOfText text)
    | .standardInput => pure (statementOfInput (← readInput))
  match statement with
  | .error failure => return .failed failure
  | .ok statement =>
    let contents ← statement.relations.mapM fun r => do
      return (r.path, ← readContent r.path)
    return .ofPlan o (planOf o statement (Catalog.ofFiles (lookupContent contents)))

/-- The answer to some arguments. -/
def answerArguments (arguments : List String) : IO Answer :=
  match Request.ofArguments arguments with
  | .plan o => answerOptions o
  | _ => return answer arguments ByteArray.empty fun _ => .error .noSuchFile

/-- Prints an answer. Plans are printed only: this command starts no other one. -/
def printAnswer : Answer → IO Unit
  | .printed text => IO.print text
  | .failed failure =>
    match failure.diagnostic? with
    | some d => IO.eprintln d.text
    | none => return
  | .misuse => IO.eprintln "error: invalid arguments"
  | .execute _ => return

/-- An answer that this command can give. -/
def Answer.withoutExecution : Answer → Answer
  | .execute _ => .failed (.notStarted "no command can be started from here")
  | other => other

end ShellQuery.Cli

/-- Answers a command line. -/
def main (arguments : List String) : IO UInt32 := do
  let answer ← ShellQuery.Cli.answerArguments arguments
  let answer := answer.withoutExecution
  ShellQuery.Cli.printAnswer answer
  return answer.status.toUInt32
