import ShellQuery.Text.Digits

/-!
# Binary floating-point numbers with 53 bits

The values of the binary64 format that a decimal numeral can denote: a sign and a magnitude, which
is either `mantissa · 2 ^ exponent` or infinite. A numeral is read exactly, as a quotient of
natural numbers, and rounded once, to the nearest value, a tie going to the even mantissa.
-/

namespace ShellQuery

/-- The size of a binary floating-point number. -/
inductive Magnitude where
  /-- The number `mantissa · 2 ^ exponent`. -/
  | finite (mantissa : Nat) (exponent : Int)
  /-- Larger than every finite number of the format. -/
  | infinite
deriving DecidableEq, Repr

/-- A binary floating-point number; zero has a sign too. -/
structure Binary64 where
  negative : Bool
  magnitude : Magnitude
deriving DecidableEq, Repr

namespace Binary64

/-- The exponent of the smallest positive number. -/
def minExponent : Int := -1074

/-- The exponent of the largest finite number. -/
def maxExponent : Int := 971

/-- The least mantissa of 53 bits. -/
def hiddenBit : Nat := Nat.pow 2 52

/-- The quotient of two natural numbers rounded to the nearest one, a tie to the even one. -/
def roundDiv (num den : Nat) : Nat :=
  let q := num / den
  let r := num % den
  if 2 * r < den then q
  else if den < 2 * r then q + 1
  else if q % 2 = 0 then q
  else q + 1

/-- `num / den / 2 ^ e`, rounded to the nearest natural number. -/
def scaledRound (num den : Nat) (e : Int) : Nat :=
  if 0 ≤ e then roundDiv num (den * Nat.pow 2 e.toNat)
  else roundDiv (num * Nat.pow 2 (-e).toNat) den

/-- The exponent at which `num / den` has a mantissa of 53 bits, or the least one. -/
def exponentOf (num den : Nat) : Int :=
  let guess : Int := (Nat.log2 num : Int) - (Nat.log2 den : Int) - 52
  let short : Bool :=
    if 0 ≤ guess then num < den * Nat.pow 2 (52 + guess.toNat)
    else num * Nat.pow 2 (-guess).toNat < den * hiddenBit
  max minExponent (if short then guess - 1 else guess)

/-- The magnitude nearest to `num / den`. -/
def nearest (num den : Nat) : Magnitude :=
  if num = 0 then .finite 0 minExponent
  else
    let e := exponentOf num den
    let m := scaledRound num den e
    -- a mantissa rounded up to 54 bits is a power of two
    let (m, e) := if m = 2 * hiddenBit then (hiddenBit, e + 1) else (m, e)
    if maxExponent < e then .infinite else .finite m e

/-- The number denoted by the digits before and after a decimal point. -/
def ofDecimal (negative : Bool) (whole fraction : List Char) : Binary64 :=
  ⟨negative, nearest (Text.digitsValue (whole ++ fraction)) (Nat.pow 10 fraction.length)⟩

end Binary64

end ShellQuery
