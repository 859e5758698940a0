import ShellQuery.Decimal.Shortest

/-!
# Writing a floating-point number

Both ways of writing a number take the digits of the shortest decimal that reads back. They differ
in where the positional form ends and in what follows a whole number.
-/

namespace ShellQuery

/-- How a floating-point number is written. -/
structure NumberLayout where
  /-- The least and greatest position of the decimal point for the positional form; without it
  every number is written positionally. -/
  positional : Option (Int × Int)
  /-- What follows the digits of a whole number. -/
  whole : String
deriving DecidableEq, Repr

namespace NumberLayout

/-- The positional form of a decimal. -/
def positionalText (layout : NumberLayout) (d : Decimal) : String :=
  let count : Int := d.digits.length
  if d.point ≤ 0 then
    "0." ++ String.ofList (List.replicate (-d.point).toNat '0' ++ d.digits)
  else if count ≤ d.point then
    String.ofList (d.digits ++ List.replicate (d.point - count).toNat '0') ++ layout.whole
  else
    String.ofList (d.digits.take d.point.toNat) ++ "." ++
      String.ofList (d.digits.drop d.point.toNat)

/-- The exponent form of a decimal: one digit before the point. -/
def exponentText (d : Decimal) : String :=
  let rest := d.digits.drop 1
  String.ofList (d.digits.take 1) ++ (if rest.isEmpty then "" else "." ++ String.ofList rest) ++
    "e" ++ toString (d.point - 1)

/-- The form of a positive decimal. -/
def decimalText (layout : NumberLayout) (d : Decimal) : String :=
  match layout.positional with
  | none => layout.positionalText d
  | some (least, greatest) =>
    if least ≤ d.point ∧ d.point ≤ greatest then layout.positionalText d else exponentText d

/-- The form of a magnitude. -/
def magnitudeText (layout : NumberLayout) : Magnitude → String
  | .infinite => "inf"
  | .finite 0 _ => "0" ++ layout.whole
  | .finite mantissa exponent => layout.decimalText (Decimal.shortest mantissa exponent)

/-- The form of a number, with a minus sign also before a negative zero. -/
def text (layout : NumberLayout) (x : Binary64) : String :=
  (if x.negative then "-" else "") ++ layout.magnitudeText x.magnitude

end NumberLayout

end ShellQuery
