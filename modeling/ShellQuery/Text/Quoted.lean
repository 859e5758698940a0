import ShellQuery.Text.Extending
import ShellQuery.Text.Printable

/-!
# Quoted text in messages

A message that shows a piece of the statement puts it between double quotes. Inside, the quote and
the backslash are escaped, the common controls have short forms, and a character that would not
show as itself is written by its code point in hexadecimal.
-/

namespace ShellQuery.Text

/-- The form of one character between double quotes. -/
def quotedChar (c : Char) : List Char :=
  if c = '\x00' then ['\\', '0']
  else if c = '\t' then ['\\', 't']
  else if c = '\r' then ['\\', 'r']
  else if c = '\n' then ['\\', 'n']
  else if c = '"' then ['\\', '"']
  else if c = '\\' then ['\\', '\\']
  else if isExtending c || !isPrintable c then
    ['\\', 'u', '\x7b'] ++ Nat.toDigits 16 c.toNat ++ ['\x7d']
  else [c]

/-- A text between double quotes. -/
def quoted (s : String) : String :=
  String.ofList ('"' :: s.toList.flatMap quotedChar ++ ['"'])

end ShellQuery.Text
