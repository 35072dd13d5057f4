/-
# Operators of the languages

The value types of a script and the operators that join values, with the
priority at which each binds. A larger priority binds tighter.

Key definitions: `Ty`, `Op`, `Op.priority`.
-/
import RobotScript.Machine.Operator

namespace RobotScript

open Machine (Unary Binary)

/-- The type of a value. -/
inductive Ty where
  /-- Not known yet. -/
  | undefined
  | void
  | int
  | bool
  /-- A number scaled by a factor. -/
  | fixed
  deriving DecidableEq, Repr, Inhabited

def Ty.describe : Ty → String
  | undefined => "undefined"
  | void => "void"
  | int => "int"
  | bool => "bool"
  | fixed => "fixed"

/-- How an operator stands to its operands. -/
inductive Fixity where
  | prefixOp
  | postfixOp
  | infixOp
  /-- An operator without operands. -/
  | constant
  deriving DecidableEq, Repr, Inhabited

namespace Priority

def constant : Nat := 200
def unary : Nat := 150
def mult : Nat := 140
def add : Nat := 130
def shift : Nat := 120
def bitAnd : Nat := 110
def bitXor : Nat := 100
def bitOr : Nat := 90
def comparison : Nat := 80
def and : Nat := 60
def or : Nat := 50
def conditionalElse : Nat := 41
def conditional : Nat := 40
def assignment : Nat := 30
def comma : Nat := 25
def parenthesis : Nat := 20
def statement : Nat := 10

end Priority

inductive Op where
  /-- An operator of the machine. -/
  | binary (op : Binary)
  /-- Conjunction that evaluates its second operand only if it must. -/
  | logicAnd
  /-- Disjunction that evaluates its second operand only if it must. -/
  | logicOr
  | assign
  /-- Assignment of the result of an operator on the old value. -/
  | compound (op : Binary)
  | preIncrement
  | preDecrement
  | postIncrement
  | postDecrement
  | negate
  | bitNot
  | abs
  | not
  | cast (ty : Ty)
  /-- The number of words of a value. -/
  | size
  /-- The choice between the operands of its second operand, which is a
  `conditionalElse`. -/
  | conditional
  | conditionalElse
  | comma
  | bool (value : Bool)
  deriving DecidableEq, Repr, Inhabited

/-- The priority of an operator of the machine. -/
def binaryPriority : Binary → Nat
  | .mult | .div | .mod => Priority.mult
  | .add | .sub => Priority.add
  | .shl | .shr => Priority.shift
  | .bitAnd => Priority.bitAnd
  | .bitXor => Priority.bitXor
  | .bitOr => Priority.bitOr
  | .eq | .ne | .gt | .ge | .lt | .le => Priority.comparison
  | .and => Priority.and
  | .or => Priority.or

/-- The symbol of an operator of the machine. -/
def binarySymbol : Binary → String
  | .shl => "<<"
  | .shr => ">>"
  | .add => "+"
  | .sub => "-"
  | .mult => "*"
  | .div => "/"
  | .mod => "%"
  | .bitOr => "|"
  | .bitXor => "^"
  | .bitAnd => "&"
  | .eq => "=="
  | .ne => "!="
  | .gt => ">"
  | .ge => ">="
  | .lt => "<"
  | .le => "<="
  | .or => "or"
  | .and => "and"

/-- The symbol of a compound assignment. There is none for comparisons and
logical operators, which show as themselves. -/
def compoundSymbol (op : Binary) : String :=
  if op.isComparison || op.isLogical then binarySymbol op else binarySymbol op ++ "="

namespace Op

def priority : Op → Nat
  | binary op => binaryPriority op
  | logicAnd => Priority.and
  | logicOr => Priority.or
  | assign | compound _ => Priority.assignment
  | preIncrement | preDecrement | postIncrement | postDecrement | negate | bitNot | abs | not
  | cast _ | size => Priority.unary
  | conditional => Priority.conditional
  | conditionalElse => Priority.conditionalElse
  | comma => Priority.comma
  | bool _ => Priority.constant

/-- Whether the operator writes to its first operand. -/
def isAssignment : Op → Bool
  | assign | compound _ | preIncrement | preDecrement | postIncrement | postDecrement => true
  | _ => false

def symbol : Op → String
  | binary op => binarySymbol op
  | logicAnd => "&&"
  | logicOr => "||"
  | assign => "="
  | compound op => compoundSymbol op
  | preIncrement | postIncrement => "++"
  | preDecrement | postDecrement => "--"
  | negate => "-"
  | bitNot => "~"
  | abs => "abs"
  | not => "not"
  | cast .bool => "bool"
  | cast .fixed => "fixed"
  | cast _ => "int"
  | size => "size"
  | conditional => "?"
  | conditionalElse => ":"
  | comma => ","
  | bool true => "true"
  | bool false => "false"

end Op
end RobotScript
