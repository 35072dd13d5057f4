/-
# The arithmetic of the machine

The stack machine has three unary and eighteen binary operators. Each works
on 32-bit integers that wrap around; a result is cut to the 16-bit cell it is
kept in by `toCell`. The only operators that can fail are the quotient and
the remainder, on a zero divisor or on the one quotient that does not fit.

Key definitions: `Unary.eval`, `Binary.eval`, `toCell`.
-/

namespace RobotScript

/-- A memory word, a stack word or a number of a script: 16 bits, signed. -/
abbrev Cell := Int16

/-- The cell an integer result is kept in: its low 16 bits. -/
def toCell (n : Int32) : Cell := n.toInt16

namespace Machine

/-- Operators on the top of the stack. -/
inductive Unary where
  | neg
  | abs
  | bitNot
  deriving DecidableEq, Repr, Inhabited

namespace Unary

/-- The operand of the instruction that applies the operator. -/
def code : Unary → Nat
  | neg => 0
  | abs => 1
  | bitNot => 2

/-- The operator with a given code. -/
def ofCode? : Nat → Option Unary
  | 0 => some neg
  | 1 => some abs
  | 2 => some bitNot
  | _ => none

def mnemonic : Unary → String
  | neg => "neg"
  | abs => "abs"
  | bitNot => "bitnot"

/-- The value before it is cut to a cell. -/
def eval (op : Unary) (n : Int32) : Int32 :=
  match op with
  | neg => -n
  | abs => if n < 0 then -n else n
  | bitNot => ~~~n

theorem ofCode?_code (op : Unary) : ofCode? op.code = some op := by
  cases op <;> rfl

end Unary

/-- Operators on the two topmost words of the stack. The same operators
select the comparison of a conditional branch. -/
inductive Binary where
  | shl
  | shr
  | add
  | sub
  | mult
  | div
  | mod
  | bitOr
  | bitXor
  | bitAnd
  | eq
  | ne
  | gt
  | ge
  | lt
  | le
  | or
  | and
  deriving DecidableEq, Repr, Inhabited

namespace Binary

/-- The operand of the instruction that applies the operator. -/
def code : Binary → Nat
  | shl => 0
  | shr => 1
  | add => 2
  | sub => 3
  | mult => 4
  | div => 5
  | mod => 6
  | bitOr => 7
  | bitXor => 8
  | bitAnd => 9
  | eq => 10
  | ne => 11
  | gt => 12
  | ge => 13
  | lt => 14
  | le => 15
  | or => 16
  | and => 17

/-- The operator with a given code. -/
def ofCode? : Nat → Option Binary
  | 0 => some shl
  | 1 => some shr
  | 2 => some add
  | 3 => some sub
  | 4 => some mult
  | 5 => some div
  | 6 => some mod
  | 7 => some bitOr
  | 8 => some bitXor
  | 9 => some bitAnd
  | 10 => some eq
  | 11 => some ne
  | 12 => some gt
  | 13 => some ge
  | 14 => some lt
  | 15 => some le
  | 16 => some or
  | 17 => some and
  | _ => none

def mnemonic : Binary → String
  | shl => "shl"
  | shr => "shr"
  | add => "add"
  | sub => "sub"
  | mult => "mult"
  | div => "div"
  | mod => "mod"
  | bitOr => "bitor"
  | bitXor => "bitxor"
  | bitAnd => "bitand"
  | eq => "eq"
  | ne => "ne"
  | gt => "gt"
  | ge => "ge"
  | lt => "lt"
  | le => "le"
  | or => "or"
  | and => "and"

/-- Every operator, in the order of their codes. -/
def all : List Binary :=
  [shl, shr, add, sub, mult, div, mod, bitOr, bitXor, bitAnd, eq, ne, gt, ge, lt, le, or, and]

/-- The operator with a given mnemonic. -/
def ofMnemonic? (text : String) : Option Binary :=
  all.find? fun op => op.mnemonic == text

def isComparison : Binary → Bool
  | eq | ne | gt | ge | lt | le => true
  | _ => false

def isLogical : Binary → Bool
  | or | and => true
  | _ => false

/-- The comparison that holds exactly when the given one does not. -/
def negated? : Binary → Option Binary
  | eq => some ne
  | ne => some eq
  | gt => some le
  | le => some gt
  | lt => some ge
  | ge => some lt
  | _ => none

/-- A truth value as a number. -/
def truth (b : Bool) : Int32 := if b then 1 else 0

/-- The value before it is cut to a cell; `none` for a quotient or remainder
that does not exist. Shift counts are taken modulo 32. -/
def eval (op : Binary) (a b : Int32) : Option Int32 :=
  match op with
  | shl => some (a <<< b)
  | shr => some (a >>> b)
  | add => some (a + b)
  | sub => some (a - b)
  | mult => some (a * b)
  | div => if b = 0 ∨ (a = Int32.minValue ∧ b = -1) then none else some (a / b)
  | mod => if b = 0 ∨ (a = Int32.minValue ∧ b = -1) then none else some (a % b)
  | bitOr => some (a ||| b)
  | bitXor => some (a ^^^ b)
  | bitAnd => some (a &&& b)
  | eq => some (truth (a == b))
  | ne => some (truth (a != b))
  | gt => some (truth (b < a))
  | ge => some (truth (b ≤ a))
  | lt => some (truth (a < b))
  | le => some (truth (a ≤ b))
  | or => some (truth (a != 0 || b != 0))
  | and => some (truth (a != 0 && b != 0))

/-- The operator on cells: evaluate, then cut to a cell. -/
def evalCell (op : Binary) (a b : Cell) : Option Cell :=
  (op.eval a.toInt32 b.toInt32).map toCell

theorem ofCode?_code (op : Binary) : ofCode? op.code = some op := by
  cases op <;> rfl

end Binary

/-- The unary operator on cells. -/
def Unary.evalCell (op : Unary) (a : Cell) : Cell :=
  toCell (op.eval a.toInt32)

end Machine
end RobotScript
