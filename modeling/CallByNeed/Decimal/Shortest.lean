/-!
# Shortest decimals

A binary number `significand * 2 ^ exponent` stands for a whole interval of
reals, those that round to it.  `shortest` finds a decimal with the fewest
digits inside that interval: for one digit, two digits and so on it looks at
the two neighbours of the number on the grid of decimals with that many digits,
and the first grid with a neighbour inside the interval wins.  Of two
neighbours inside, the nearer one is taken, and the upper one if both are
equally near.  All comparisons are made on natural numbers.

`Decimal.render` writes such a decimal with its digits only, never with an
exponent, and `decimalText` is the text of a floating-point number.
-/

namespace CallByNeed

/-- A power of `base` where the exponent is not negative, and one where it is.  A number
    `base ^ power` is thus a fraction of two such powers, of `power` and of `-power`. -/
def wholePower (base : Nat) (power : Int) : Nat := Nat.pow base power.toNat

/-- The positive number `coefficient * 10 ^ power`. -/
structure Decimal where
  coefficient : Nat
  power : Int
  deriving DecidableEq, Repr

/-- A positive fraction together with the ends of the interval that rounds to it, all three over
    one denominator. -/
structure Rounding where
  low : Nat
  value : Nat
  high : Nat
  denominator : Nat
  closed : Bool
  deriving DecidableEq, Repr

/-- The interval of reals that round to `significand * 2 ^ exponent`.  It reaches half a step to
    either side, but only a quarter of one below a power of two at which the step doubles
    (`narrow`); its ends belong to it when the significand is even. -/
def Rounding.of (significand : Nat) (exponent : Int) (narrow : Bool) : Rounding :=
  let scale := wholePower 2 exponent
  { low := (4 * significand - if narrow then 1 else 2) * scale
    value := 4 * significand * scale
    high := (4 * significand + 2) * scale
    denominator := 4 * wholePower 2 (-exponent)
    closed := significand % 2 == 0 }

/-- The numerator and the denominator of a decimal. -/
def Decimal.toFraction (d : Decimal) : Nat × Nat :=
  (d.coefficient * wholePower 10 d.power, wholePower 10 (-d.power))

/-- Whether the decimal rounds to the number. -/
def Rounding.contains (r : Rounding) (d : Decimal) : Bool :=
  let (num, den) := d.toFraction
  let scaled := num * r.denominator
  if r.closed then decide (r.low * den ≤ scaled) && decide (scaled ≤ r.high * den)
  else decide (r.low * den < scaled) && decide (scaled < r.high * den)

/-- The number of decimal digits of a number. -/
def digitCount (n : Nat) : Nat := (Nat.toDigits 10 n).length

/-- The power of ten of the leading digit of the number. -/
def Rounding.leadingPower (r : Rounding) : Int :=
  if r.denominator ≤ r.value then (digitCount (r.value / r.denominator) : Int) - 1
  -- below one: the place of the first digit after the point
  else -((digitCount ((r.denominator + r.value - 1) / r.value - 1) : Nat) : Int)

/-- The neighbours of the number on the grid of decimals in steps of `10 ^ power`, the lower one
    first. -/
def Rounding.neighbours (r : Rounding) (power : Int) : Decimal × Decimal :=
  let below := r.value * wholePower 10 (-power) / (r.denominator * wholePower 10 power)
  (⟨below, power⟩, ⟨below + 1, power⟩)

/-- Whether the number is at least as near to the upper one of two neighbours. -/
def Rounding.prefersUpper (r : Rounding) (lower upper : Decimal) : Bool :=
  let (lowNum, den) := lower.toFraction
  let (highNum, _) := upper.toFraction
  decide ((lowNum + highNum) * r.denominator ≤ 2 * r.value * den)

/-- The nearest decimal of the grid in steps of `10 ^ power` that rounds to the number. -/
def Rounding.onGrid? (r : Rounding) (power : Int) : Option Decimal :=
  let (lower, upper) := r.neighbours power
  match r.contains lower, r.contains upper with
  | true, true => some (if r.prefersUpper lower upper then upper else lower)
  | true, false => some lower
  | false, true => some upper
  | false, false => none

/-- The decimal with the fewest digits that rounds to the number; seventeen digits always do for a
    number of 53 binary digits. -/
def Rounding.shortest (r : Rounding) : Decimal :=
  let lead := r.leadingPower
  ((List.range 17).findSome? fun (k : Nat) => r.onGrid? (lead - (k : Int))).getD
    (r.neighbours (lead - 16)).1

/-- The digits of `fraction` in `places` places after the point, without the zeros at the end. -/
def fractionDigits (fraction places : Nat) : List Char :=
  let digits := Nat.toDigits 10 fraction
  let padded := List.replicate (places - digits.length) '0' ++ digits
  (padded.reverse.dropWhile (· == '0')).reverse

/-- The decimal in positional notation, without a point if it is a whole number. -/
def Decimal.render (d : Decimal) : String :=
  let places := (-d.power).toNat
  let (scaled, unit) := d.toFraction
  let whole := toString (scaled / unit)
  match fractionDigits (scaled % unit) places with
  | [] => whole
  | digits => whole ++ "." ++ String.ofList digits

/-- The interval of reals that round to a positive finite number, from the bits of its encoding:
    eleven of exponent above fifty-two of fraction. -/
def Rounding.ofBits (bits : UInt64) : Rounding :=
  let fraction := (bits &&& 0xFFFFFFFFFFFFF).toNat
  let biased := ((bits >>> 52) &&& 0x7FF).toNat
  if biased = 0 then .of fraction (-1074) false
  else .of (fraction + wholePower 2 52) ((biased : Int) - 1075) (fraction == 0 && biased != 1)

/-- The shortest decimal text that reads back as `x`, never with an exponent. -/
def decimalText (x : Float) : String :=
  let bits := x.toBits
  let sign := if bits >>> 63 == 1 then "-" else ""
  if x.isNaN then "NaN"
  else if x.isInf then sign ++ "inf"
  else if x == 0 then sign ++ "0"
  else sign ++ (Rounding.ofBits (bits &&& 0x7FFFFFFFFFFFFFFF)).shortest.render

end CallByNeed
