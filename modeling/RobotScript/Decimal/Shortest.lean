/-
# The shortest decimal of a binary fraction

The text of a literal has the fewest decimal digits that read back as the
same binary fraction. A decimal reads back if it lies between the two points
halfway to the neighbouring fractions, ends included when the mantissa is
even. `shortest` tries the decimals with one digit, two digits, and so on: of
those with a given number of digits only the two nearest to the value can
qualify. `plain` writes the digits without an exponent.

Key definitions: `shortest`, `plain`.
-/
import RobotScript.Decimal.Binary64

namespace RobotScript.Decimal

/-- The least `k` with `value < 10 ^ k`, for a positive value `num / den`
below one; tried from `k` downwards. -/
def smallMagnitude (num den : Nat) : Nat → Int → Int
  | 0, k => k
  | fuel + 1, k =>
    if num * Nat.pow 10 (1 - k).toNat < den then smallMagnitude num den fuel (k - 1) else k

/-- The least `k` with `num / den < 10 ^ k`, for positive `num` and `den`. -/
def magnitude (num den : Nat) : Int :=
  if num < den then smallMagnitude num den 400 0
  else ((Nat.toDigits 10 (num / den)).length : Int)

/-- The decimals that read back as a given value lie between `low` and `high`,
all over the same denominator. -/
structure Interval where
  low : Nat
  value : Nat
  high : Nat
  den : Nat
  /-- Whether the ends belong to the interval. -/
  closed : Bool

/-- The interval of the binary fraction `mantissa · 2 ^ exponent`. -/
def Interval.of (mantissa : Nat) (exponent : Int) : Interval :=
  let (value, den) := scaleRatio (mantissa * 4) 4 exponent
  let (unit, _) := scaleRatio 4 4 exponent
  -- below a power of two the neighbours stand half as far apart, but for the smallest values
  let nearer := mantissa = fullMantissa ∧ leastExponent < exponent
  { low := value - if nearer then unit / 4 else unit / 2
    value := value
    high := value + unit / 2
    den := den
    closed := mantissa % 2 = 0 }

/-- Whether `n` steps of `num / den` lie in the interval. -/
def Interval.holds (i : Interval) (n num den : Nat) : Bool :=
  let point := n * num * i.den
  if i.closed then i.low * den ≤ point && point ≤ i.high * den
  else i.low * den < point && point < i.high * den

/-- The decimal with the fewest digits in the interval, at least `digits` of
them: a count of steps and the power of ten that is one step. -/
def Interval.search (i : Interval) (k : Int) : Nat → Nat → Nat × Int
  | 0, _ => (0, 0)
  | fuel + 1, digits =>
    let power := k - digits
    let num := Nat.pow 10 power.toNat
    let den := Nat.pow 10 (-power).toNat
    let below := i.value * den / (i.den * num)
    let rest := i.value * den % (i.den * num)
    match i.holds below num den, i.holds (below + 1) num den with
    | true, true => (if 2 * rest < i.den * num then below else below + 1, power)
    | true, false => (below, power)
    | false, true => (below + 1, power)
    | false, false => i.search k fuel (digits + 1)

/-- The shortest decimal of a positive finite value: digits and a power of
ten. Seventeen digits always suffice. -/
def shortest (x : Float) : Nat × Int :=
  let s := split x
  let i := Interval.of s.mantissa s.exponent
  i.search (magnitude i.value i.den) 17 1

/-- `digits · 10 ^ power` without an exponent. -/
def plain (digits : Nat) (power : Int) : String :=
  let ds := Nat.toDigits 10 digits
  if 0 ≤ power then String.ofList (ds ++ List.replicate power.toNat '0')
  else
    let places := (-power).toNat
    let padded := List.replicate (places + 1 - ds.length) '0' ++ ds
    let whole := padded.take (padded.length - places)
    let fraction := (padded.drop (padded.length - places)).reverse.dropWhile (· == '0')
    if fraction.isEmpty then String.ofList whole
    else String.ofList (whole ++ '.' :: fraction.reverse)

/-- The text of a binary fraction: its shortest decimal, whole numbers without
a fraction. -/
def render (x : Float) : String :=
  if x.isNaN then "NaN"
  else
    let sign := if (split x).negative then "-" else ""
    if x.isInf then sign ++ "inf"
    else if x == 0 then sign ++ "0"
    else
      let (digits, power) := shortest x
      sign ++ plain digits power

end RobotScript.Decimal
