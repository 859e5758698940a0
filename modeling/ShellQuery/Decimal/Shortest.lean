import ShellQuery.Decimal.Binary64

/-!
# The shortest decimal that reads back

The numbers that round to a given binary magnitude form an interval around it, whose ends belong
to it when the mantissa is even. Among the decimals in that interval with the fewest digits the one
nearest to the magnitude is chosen; of two equally near ones, the larger.

On the grid of decimals with a given number of digits only the two neighbours of the magnitude need
to be looked at: if any grid point lies in the interval, so does one of them.
-/

namespace ShellQuery

/-- A positive decimal number `0.d₁d₂… · 10 ^ point`. -/
structure Decimal where
  digits : List Char
  point : Int
deriving DecidableEq, Repr

namespace Decimal

/-- Three numbers over one denominator: a magnitude and the ends of what rounds to it. -/
structure Interval where
  low : Nat
  value : Nat
  high : Nat
  den : Nat
  /-- Whether the ends round to the magnitude too. -/
  closed : Bool

/-- The interval of `mantissa · 2 ^ exponent`. Below a power of two the numbers lie twice as close,
so there the lower end is nearer. -/
def Interval.ofBinary (mantissa : Nat) (exponent : Int) : Interval :=
  let below := if mantissa = Binary64.hiddenBit ∧ Binary64.minExponent < exponent then 1 else 2
  let scale := if 2 ≤ exponent then Nat.pow 2 (exponent - 2).toNat else 1
  { low := (4 * mantissa - below) * scale
    value := 4 * mantissa * scale
    high := (4 * mantissa + 2) * scale
    den := if 2 ≤ exponent then 1 else Nat.pow 2 (2 - exponent).toNat
    closed := mantissa % 2 = 0 }

/-- Multiplies the numbers of an interval by `10 ^ k`. -/
def Interval.shift (i : Interval) (k : Int) : Interval :=
  let up := if 0 ≤ k then Nat.pow 10 k.toNat else 1
  { i with
    low := i.low * up
    value := i.value * up
    high := i.high * up
    den := if 0 ≤ k then i.den else i.den * Nat.pow 10 (-k).toNat }

/-- Whether the natural number `n` lies in an interval. -/
def Interval.contains (i : Interval) (n : Nat) : Bool :=
  if i.closed then i.low ≤ n * i.den && n * i.den ≤ i.high
  else i.low < n * i.den && n * i.den < i.high

/-- The natural number in an interval that is nearest to its value, if a neighbour of the value
lies in it; the larger one on a tie. -/
def Interval.nearest? (i : Interval) : Option Nat :=
  let down := i.value / i.den
  let up := down + 1
  if i.contains down && i.contains up then
    some (if 2 * (i.value - down * i.den) < i.den then down else up)
  else if i.contains down then some down
  else if i.contains up then some up
  else none

/-- The least `point` with `value < 10 ^ point`. -/
def Interval.point (i : Interval) : Int :=
  if i.den ≤ i.value then ((Nat.toDigits 10 (i.value / i.den)).length : Int)
  else 1 - ((Nat.toDigits 10 (i.den / i.value)).length : Int)

/-- The decimal `n · 10 ^ k`, without zeros at the end of its digits. -/
def ofNat (n : Nat) (k : Int) : Decimal :=
  let digits := Nat.toDigits 10 n
  { digits := (digits.reverse.dropWhile (· == '0')).reverse
    point := digits.length + k }

/-- The shortest decimal that rounds to `mantissa · 2 ^ exponent`. Seventeen digits always
suffice. -/
def shortest (mantissa : Nat) (exponent : Int) : Decimal :=
  let i := Interval.ofBinary mantissa exponent
  let point := i.point
  let hit := (List.range 17).findSome? fun (n : Nat) =>
    let k : Int := n + 1 - point
    ((i.shift k).nearest?).map fun d => ofNat d (-k)
  hit.getD ⟨[], 0⟩

end Decimal

end ShellQuery
