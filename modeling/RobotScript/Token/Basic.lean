/-
# Tokens

A token is a number, a fixed-point literal, a name or a keyword, with its text
and the place it was read at.

Key definitions: `Token`, `Token.Kind`.
-/
import RobotScript.Machine.Operator
import RobotScript.Text.Span
import RobotScript.Decimal.Shortest

namespace RobotScript

inductive Token.Kind where
  /-- A whole number, already cut to a cell. -/
  | number (value : Cell)
  /-- A literal with a fraction. -/
  | float (value : Float)
  | name
  | keyword (text : String)
  deriving Repr, Inhabited

structure Token where
  kind : Token.Kind
  span : Span
  text : String
  /-- The line of the first character, from one. -/
  line : Nat
  /-- The column of the first character, from one. -/
  col : Nat
  deriving Repr, Inhabited

namespace Token

/-- The kind of a token as a message names it. -/
def Kind.describe : Kind → String
  | number value => s!"number {value.toInt}"
  | float value => "number " ++ Decimal.render value
  | name => "name"
  | keyword text => "\"" ++ text ++ "\""

/-- Whether the token is a given keyword. -/
def isKeyword (t : Token) (text : String) : Bool :=
  match t.kind with
  | .keyword k => k == text
  | _ => false

/-- Whether the token is a name. -/
def isName (t : Token) : Bool :=
  match t.kind with
  | .name => true
  | _ => false

end Token
end RobotScript
