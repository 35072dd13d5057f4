/-
# Numbers and columns in text

Right-aligned columns and hexadecimal numbers, as listings and messages
print them.
-/

namespace RobotScript.Text

/-- The text with `fill` in front up to the given width. -/
def alignRight (width : Nat) (fill : Char) (text : String) : String :=
  String.ofList (List.replicate (width - text.length) fill) ++ text

/-- A number in base 16, in lower case. -/
def hex (n : Nat) : String := String.ofList (Nat.toDigits 16 n)

/-- A number in base 16 with at least four digits. -/
def hex4 (n : Nat) : String := alignRight 4 '0' (hex n)

end RobotScript.Text
