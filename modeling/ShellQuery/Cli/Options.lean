import ShellQuery.Text.Digits

/-!
# Options of the command line

Options may stand before and after the statement. The value of an option follows it, or is attached
to it: `--seed 7`, `--seed=7`, `-d ;`, `-d;`, `-d=;`. Short options without a value can be written
together. `--` ends the options. No option may be given twice.

The arguments are taken from left to right, and the first one that is wrong decides; a request for
the version or for help takes effect where it stands, if everything before it was right.
-/

namespace ShellQuery.Cli

/-- The options that take a value. -/
inductive ValueOption where
  | ast
  | delimiter
  | seed
deriving DecidableEq, Repr

/-- The options that take none. -/
inductive Flag where
  | execute
  | noHeader
  | debug
deriving DecidableEq, Repr

/-- The options of the command line. -/
inductive Switch where
  | value (o : ValueOption)
  | flag (f : Flag)
  | help
  | version
deriving DecidableEq, Repr

namespace Switch

/-- The option with a long name. -/
def ofLong? (name : List Char) : Option Switch :=
  [("ast", value .ast), ("delimiter", value .delimiter), ("seed", value .seed),
    ("execute", flag .execute), ("no-header", flag .noHeader), ("debug", flag .debug),
    ("help", help), ("version", version)].lookup (String.ofList name)

/-- The option with a letter. -/
def ofShort? (letter : Char) : Option Switch :=
  [('d', value .delimiter), ('e', flag .execute), ('h', help), ('V', version)].lookup letter

end Switch

/-- The options that were given. -/
structure Options where
  /-- The text of the statement. -/
  sql : Option String := none
  /-- The file that holds the statement in JSON. -/
  ast : Option String := none
  delimiter : Option Char := none
  seed : Option Nat := none
  flags : List Flag := []
deriving DecidableEq, Repr

/-! ### Values -/

/-- The delimiter that a text names: a tab by its escape or its name, and every other character by
itself, the ones apart that the commands of a plan could not quote. -/
def delimiterOfText? (text : List Char) : Option Char :=
  if text = ['\\', 't'] ∨ text = ['t', 'a', 'b'] then some '\t'
  else
    match text with
    | [c] => if c = '\n' ∨ c = '\'' ∨ c = '"' ∨ c = '\\' then none else some c
    | _ => none

/-- The number of at most 64 bits that some digits are, with an optional plus sign. -/
def seedOfText? (text : List Char) : Option Nat :=
  let digits := match text with
    | '+' :: rest => rest
    | rest => rest
  if digits.isEmpty || !digits.all Char.isDigit then none
  else
    let n := Text.digitsValue digits
    if n < Text.wordBound then some n else none

namespace Options

/-- Sets a value, which must be right and the first one for its option. -/
def setValue (o : Options) (option : ValueOption) (text : List Char) : Option Options :=
  match option with
  | .ast =>
    if o.ast.isSome || text.isEmpty then none else some { o with ast := some (String.ofList text) }
  | .delimiter =>
    if o.delimiter.isSome then none
    else (delimiterOfText? text).map fun c => { o with delimiter := some c }
  | .seed =>
    if o.seed.isSome then none
    else (seedOfText? text).map fun n => { o with seed := some n }

/-- Sets a flag, which must not be set yet. -/
def setFlag (o : Options) (f : Flag) : Option Options :=
  if o.flags.contains f then none else some { o with flags := o.flags ++ [f] }

/-- Sets the statement, of which there is at most one. -/
def setSql (o : Options) (text : String) : Option Options :=
  if o.sql.isSome then none else some { o with sql := some text }

end Options

/-! ### Arguments -/

/-- What a command line asks for. -/
inductive Request where
  /-- To plan a statement. -/
  | plan (options : Options)
  | help
  | version
  /-- Nothing that makes sense. -/
  | misuse
deriving DecidableEq, Repr

/-- What the next argument is taken for. -/
inductive Mode where
  /-- An option or the statement. -/
  | free
  /-- The value of an option. -/
  | valueOf (o : ValueOption)
  /-- The statement: the options have ended. -/
  | ended
deriving DecidableEq, Repr

/-- What an argument leads to: a request, or the options so far and what comes next. -/
inductive Progress where
  | stop (request : Request)
  | go (mode : Mode) (options : Options)

namespace Progress

/-- Goes on freely with options that could be set. -/
def ofOptions (options : Option Options) : Progress :=
  match options with
  | some o => go .free o
  | none => stop .misuse

end Progress

/-- Takes the letters of a group of short options. Behind one that takes a value the rest is that
value, with or without an equals sign. -/
def takeShort (o : Options) : List Char → Progress
  | [] => .go .free o
  | letter :: rest =>
    match Switch.ofShort? letter with
    | none => .stop .misuse
    | some .help => .stop .help
    | some .version => .stop .version
    | some (.flag f) =>
      match o.setFlag f with
      | some o => takeShort o rest
      | none => .stop .misuse
    | some (.value v) =>
      match rest with
      | [] => .go (.valueOf v) o
      | '=' :: text => .ofOptions (o.setValue v text)
      | text => .ofOptions (o.setValue v text)

/-- A character of a long option's name. -/
def isLongNameChar (c : Char) : Bool :=
  c != '='

/-- Takes a long option, given without its dashes. -/
def takeLong (o : Options) (text : List Char) : Progress :=
  let name := text.takeWhile isLongNameChar
  let attached := text.dropWhile isLongNameChar
  match Switch.ofLong? name, attached with
  | some (.value v), [] => .go (.valueOf v) o
  | some (.value v), _ :: value => .ofOptions (o.setValue v value)
  | some (.flag f), [] => .ofOptions (o.setFlag f)
  | some .help, [] => .stop .help
  | some .version, [] => .stop .version
  | _, _ => .stop .misuse

/-- Takes the statement once the options have ended. -/
def takeLast (o : Options) (argument : String) : Progress :=
  match o.setSql argument with
  | some o => .go .ended o
  | none => .stop .misuse

/-- Takes one argument. A single dash is no option. -/
def takeArgument (mode : Mode) (o : Options) (argument : String) : Progress :=
  match mode, argument.toList with
  | .ended, _ => takeLast o argument
  | .free, ['-', '-'] => .go .ended o
  | .free, '-' :: '-' :: text => takeLong o text
  | .free, '-' :: c :: text => takeShort o (c :: text)
  | .free, _ => .ofOptions (o.setSql argument)
  | .valueOf _, '-' :: _ :: _ => .stop .misuse
  | .valueOf v, text => .ofOptions (o.setValue v text)

/-- Takes all arguments. A statement must come from one place only. -/
def takeArguments (mode : Mode) (o : Options) : List String → Request
  | [] =>
    match mode with
    | .valueOf _ => .misuse
    | _ => if o.sql.isSome && o.ast.isSome then .misuse else .plan o
  | argument :: arguments =>
    match takeArgument mode o argument with
    | .stop request => request
    | .go mode o => takeArguments mode o arguments

/-- What some arguments ask for. -/
def Request.ofArguments (arguments : List String) : Request :=
  takeArguments .free {} arguments

end ShellQuery.Cli
