/-!
# Sets of characters given by ranges of code points
-/

namespace ShellQuery.Text

/-- Whether some range holds the code point of `c`; both ends belong to a range. -/
def inRanges (ranges : List (Nat × Nat)) (c : Char) : Bool :=
  ranges.any fun r => r.1 ≤ c.toNat && c.toNat ≤ r.2

end ShellQuery.Text
