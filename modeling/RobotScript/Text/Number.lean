/-
# Numbers in settings

Numbers are given in decimal digits, with a sign in front perhaps.

Key definitions: `natural?`, `integer?`.
-/

namespace RobotScript.Text

/-- The value of decimal digits, of which there must be one. -/
def digitsValue? (cs : List Char) : Option Nat :=
  if cs.isEmpty || cs.any (!·.isDigit) then none
  else some (cs.foldl (fun n c => 10 * n + (c.toNat - 48)) 0)

/-- A number without a sign, or with a plus. -/
def natural? : List Char → Option Nat
  | '+' :: cs => digitsValue? cs
  | cs => digitsValue? cs

/-- A number with or without a sign. -/
def integer? : List Char → Option Int
  | '-' :: cs => (digitsValue? cs).map fun n => -(n : Int)
  | cs => (natural? cs).map fun n => (n : Int)

end RobotScript.Text
