import ShellQuery.Text.Split

/-!
# Words on a shell command line

A text made of characters that mean nothing to the shell is a word as it stands. Any other text is
put between single quotes, and a single quote in it is written outside of them, after a backslash.
-/

namespace ShellQuery.Shell

/-- The characters besides letters and digits that the shell takes as they are. -/
def safePunctuation : List Char :=
  [',', '.', ':', '_', '-', '+', '=', '@', '%', '/']

/-- Whether the shell takes a character as it is. -/
def isSafe (c : Char) : Bool :=
  c.isAlphanum || safePunctuation.contains c

/-- The form of one character between single quotes. -/
def quotedChar (c : Char) : List Char :=
  if c = '\'' then ['\'', '\\', '\'', '\''] else [c]

/-- A text as a single word. -/
def word (s : String) : String :=
  if !s.toList.isEmpty && s.toList.all isSafe then s
  else String.ofList ('\'' :: s.toList.flatMap quotedChar ++ ['\''])

/-- A field delimiter as part of a word. -/
def delimiter (c : Char) : String :=
  if isSafe c then String.ofList [c]
  else if c = '\'' then "\"'\""
  else String.ofList ['\'', c, '\'']

end ShellQuery.Shell
