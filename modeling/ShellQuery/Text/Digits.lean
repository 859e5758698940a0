/-!
# Decimal digits

The value of a row of decimal digits, the most significant one first, and the bounds of the two
machine words that numerals have to fit into.
-/

namespace ShellQuery.Text

/-- The value of a decimal digit. -/
def digitValue (c : Char) : Nat :=
  c.toNat - '0'.toNat

/-- The value of a row of decimal digits; the empty row is zero. -/
def digitsValue (digits : List Char) : Nat :=
  digits.foldl (fun n c => 10 * n + digitValue c) 0

/-- The first number that an unsigned word of 64 bits cannot hold. -/
def wordBound : Nat :=
  Nat.pow 2 64

/-- The first number that a signed word of 64 bits cannot hold; its negative is the last one that
the word can hold. -/
def signedBound : Nat :=
  Nat.pow 2 63

end ShellQuery.Text
