/-
# Decimals and binary fractions

A fixed-point literal is a decimal fraction kept as a binary fraction of 53
bits. `ofRatio` gives the nearest such fraction of a ratio, a tie going to the
even one, subnormal and infinite results included; `split` gives back the
integer and the power of two of a finite one; `remainder` is the exact
remainder of a truncated division.

Key definitions: `ofRatio`, `ofDecimal`, `split`, `remainder`.
-/

namespace RobotScript.Decimal

/-- The integer nearest to `num / den`, a tie going to the even one. -/
def roundEven (num den : Nat) : Nat :=
  let q := num / den
  let r := num % den
  if den < 2 * r ∨ (2 * r = den ∧ q % 2 = 1) then q + 1 else q

/-- The ratio `num / den` times a power of two, as a numerator and a
denominator. -/
def scaleRatio (num den : Nat) (exponent : Int) : Nat × Nat :=
  if 0 ≤ exponent then (num * Nat.pow 2 exponent.toNat, den) else (num, den * Nat.pow 2 (-exponent).toNat)

/-- The largest `e` with `2 ^ e ≤ num / den`, for positive `num` and `den`. -/
def floorLog2 (num den : Nat) : Int :=
  let e : Int := (num.log2 : Int) - (den.log2 : Int)
  let (n, d) := scaleRatio num den (-e)
  if n < d then e - 1 else e

/-- The least integer of a value that keeps all its bits. -/
def fullMantissa : Nat := 0x10000000000000

/-- The bits of an infinite value. -/
def infinityBits : Nat := 0x7ff * fullMantissa

/-- The power of two of the smallest values. -/
def leastExponent : Int := -1074

/-- The binary fraction nearest to `num / den`. -/
def ofRatio (num den : Nat) : Float :=
  if num = 0 ∨ den = 0 then 0
  else
    -- one unit in the last place is `2 ^ unit`
    let unit := max (floorLog2 num den - 52) leastExponent
    let (n, d) := scaleRatio num den (-unit)
    let m := roundEven n d
    let bits := if m < fullMantissa then m
      else (unit - leastExponent + 1).toNat * fullMantissa + (m - fullMantissa)
    Float.ofBits (UInt64.ofNat (min bits infinityBits))

/-- The binary fraction nearest to `digits / 10 ^ places`. -/
def ofDecimal (digits places : Nat) : Float := ofRatio digits (Nat.pow 10 places)

/-- A finite binary fraction as a sign, an integer and a power of two. -/
structure Split where
  negative : Bool
  mantissa : Nat
  exponent : Int
  deriving DecidableEq, Repr

/-- The parts of a binary fraction; those of an infinity or a value that is
not a number mean nothing. -/
def split (x : Float) : Split :=
  let bits := x.toBits.toNat
  let fraction : Nat := bits % fullMantissa
  let biased : Nat := bits / fullMantissa % 0x800
  { negative := 0x800 ≤ bits / fullMantissa
    mantissa := if biased = 0 then fraction else fraction + fullMantissa
    exponent := if biased = 0 then leastExponent else leastExponent + biased - 1 }

/-- What truncated division of `a` by `b` leaves, with the sign of `a`. It is
always a binary fraction itself, so nothing is rounded. -/
def remainder (a b : Float) : Float :=
  if a.isNaN || b.isNaN || a.isInf || b == 0 then 0 / 0
  else if b.isInf then a
  else
    let x := split a
    let y := split b
    let unit := min x.exponent y.exponent
    let m := x.mantissa * Nat.pow 2 (x.exponent - unit).toNat
    let n := y.mantissa * Nat.pow 2 (y.exponent - unit).toNat
    let (num, den) := scaleRatio (m % n) 1 unit
    let r := ofRatio num den
    if x.negative then -r else r

end RobotScript.Decimal
