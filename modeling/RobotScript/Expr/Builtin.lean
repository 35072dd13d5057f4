/-
# Built-in functions

A built-in function is called like a function of the script. All but `abs`
are done by a function of the node's firmware and exist where that exists;
`abs` is an operator in one language, and built in for the other.

Key definitions: `Builtin.lookup?`.
-/
import RobotScript.Language.Basic
import RobotScript.Node.Basic

namespace RobotScript

inductive Builtin where
  | min
  | max
  | clamp
  | muldiv
  | atan2
  | sin
  | cos
  | sqrt
  | rand
  | abs
  deriving DecidableEq, Repr, Inhabited

namespace Builtin

def all : List Builtin := [min, max, clamp, muldiv, atan2, sin, cos, sqrt, rand, abs]

def name : Builtin → String
  | min => "min"
  | max => "max"
  | clamp => "clamp"
  | muldiv => "muldiv"
  | atan2 => "atan2"
  | sin => "sin"
  | cos => "cos"
  | sqrt => "sqrt"
  | rand => "rand"
  | abs => "abs"

/-- The function of the firmware that does the work. -/
def native? : Builtin → Option String
  | abs => none
  | b => some ("math." ++ b.name)

def arity : Builtin → Nat
  | rand => 0
  | sin | cos | sqrt | abs => 1
  | min | max | atan2 => 2
  | clamp | muldiv => 3

/-- The type of the result for arguments of given types. -/
def resultTy : Builtin → List Ty → Ty
  | abs, ty :: _ => ty
  | _, _ => .int

/-- Whether the function exists in a language on a node. -/
def available (language : Language) (node : Node) (b : Builtin) : Bool :=
  match b.native? with
  | some native => (node.native? native).isSome
  | none => language == .l2

/-- The built-in function with a given name. -/
def lookup? (name : String) (language : Language) (node : Node) : Option Builtin :=
  all.find? fun b => b.name == name && b.available language node

end Builtin
end RobotScript
