/-!
# Blank characters at the ends of a text

`isBlank` is the property White_Space of the Unicode character database: twenty-five characters.
Header fields, operands, operators and select items are read without the blanks around them.

`isSpacing` is the smaller class that separates the words of a statement. It leaves out the
vertical tab and everything beyond ASCII.
-/

namespace ShellQuery.Text

/-- The characters with the property White_Space. -/
def isBlank (c : Char) : Bool :=
  let n := c.toNat
  (0x09 ≤ n && n ≤ 0x0D) || n == 0x20 || n == 0x85 || n == 0xA0 || n == 0x1680 ||
    (0x2000 ≤ n && n ≤ 0x200A) || n == 0x2028 || n == 0x2029 || n == 0x202F || n == 0x205F ||
    n == 0x3000

/-- Space, tab, line feed, form feed and carriage return. -/
def isSpacing (c : Char) : Bool :=
  let n := c.toNat
  n == 0x20 || n == 0x09 || n == 0x0A || n == 0x0C || n == 0x0D

/-- Drops the blanks a text begins with. -/
def trimStart (cs : List Char) : List Char :=
  cs.dropWhile isBlank

/-- Drops the blanks a text ends with. -/
def trimEnd (cs : List Char) : List Char :=
  (cs.reverse.dropWhile isBlank).reverse

/-- Drops the blanks at both ends of a text. -/
def trim (s : String) : String :=
  String.ofList (trimEnd (trimStart s.toList))

variable {c : Char}

theorem trimStart_cons_of_not_isBlank (h : isBlank c = false) (cs : List Char) :
    trimStart (c :: cs) = c :: cs := by
  simp [trimStart, h]

theorem trimEnd_append_of_not_isBlank (h : isBlank c = false) (cs : List Char) :
    trimEnd (cs ++ [c]) = cs ++ [c] := by
  simp [trimEnd, h]

/-- The text between two marks that are not blank keeps its blanks. -/
theorem trim_delimited {d : Char} (hc : isBlank c = false) (hd : isBlank d = false)
    (cs : List Char) : trim (String.ofList (c :: cs ++ [d])) = String.ofList (c :: cs ++ [d]) := by
  rw [trim, String.toList_ofList, List.cons_append, trimStart_cons_of_not_isBlank hc,
    ← List.cons_append, trimEnd_append_of_not_isBlank hd]

end ShellQuery.Text
