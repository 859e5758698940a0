import ShellQuery.Text.Split

/-!
# Literals inside an awk program

A string in single quotes becomes an awk string in double quotes. The awk program itself stands
between single quotes in the shell, so a single quote inside the string is written by its octal
code. Every other literal is left as it is.
-/

namespace ShellQuery.Awk

/-- The form of one character inside an awk string. -/
def stringChar (c : Char) : List Char :=
  if c = '\\' then ['\\', '\\']
  else if c = '"' then ['\\', '"']
  else if c = '\'' then ['\\', '0', '4', '7']
  else [c]

/-- The characters between the single quotes of a quoted string, if the text is one. -/
def stringBody? (cs : List Char) : Option (List Char) :=
  (Text.stripFirst '\'' cs).bind (Text.stripLast '\'')

/-- An awk string with the given characters. -/
def string (cs : List Char) : String :=
  String.ofList ('"' :: cs.flatMap stringChar ++ ['"'])

/-- A literal as an awk program writes it. Between single quotes a doubled quote means one. -/
def literal (text : String) : String :=
  match stringBody? text.toList with
  | some body => string (Text.undouble '\'' body)
  | none => text

end ShellQuery.Awk
