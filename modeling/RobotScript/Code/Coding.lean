/-
# Generating code

Code is generated statement by statement for a routine of a program. Each
statement has temporaries at its disposal, words that are handed out downwards
from the end of the variable memory to the last variable declared and are all
free again at the next statement. An operand that does not fit into memory is
a fault of the statement at hand.

Key definitions: `Coder`, `Coding`, `Coder.temps`, `Coder.address`.
-/
import RobotScript.Code.Item
import RobotScript.Node.Basic
import RobotScript.Settings

namespace RobotScript

open Machine (Instr Binary)

/-- What the code of a routine depends on. -/
structure Coder where
  node : Node
  settings : Settings
  /-- The words of variable memory behind which nothing is declared. -/
  moduleSize : Nat
  /-- The frame of the function, in a function. -/
  frameSize : Option Nat
  /-- What ends the routine. -/
  exit : Instr
  deriving Repr, Inhabited

/-- What generating code changes. -/
structure Coding.State where
  /-- The last temporary handed out. -/
  nextTemp : Nat
  /-- The statement at hand. -/
  span : Span
  deriving DecidableEq, Repr, Inhabited

/-- A step of generating code. -/
abbrev Coding := StateT Coding.State Result

namespace Coding

/-- The value, if there is one; else a jump is too far. -/
def inReach {α : Type} : Option α → Coding α
  | some a => return a
  | none => throw (.ofCause (.semantic .codeTooLarge))

/-- Generate code with a place for a failure that has none. -/
def placedAt {α : Type} (span : Span) (x : Coding α) : Coding α := fun s => (x s).placedAt span

end Coding

namespace Coder

/-- The end of the temporaries; only L2 keeps words behind them. -/
def tempTop (c : Coder) : Nat :=
  match c.settings.language with
  | .l2 => c.node.returnSlot
  | .simple => c.node.maxVarSize

/-- Free all temporaries. -/
def freeTemps (c : Coder) : Coding Unit := modify fun s => { s with nextTemp := c.tempTop }

/-- Take `n` temporaries; the result is the address of the first. -/
def temps (c : Coder) (n : Nat) : Coding Nat := do
  let s ← get
  if s.nextTemp < c.moduleSize + n then semantic .outOfMemory s.span
  else
    set { s with nextTemp := s.nextTemp - n }
    return s.nextTemp - n

/-- An address of the variable memory as an operand. -/
def address (c : Coder) (addr : Nat) : Coding Word := do
  if 0x1000 ≤ addr ∨ c.node.maxVarSize ≤ addr then semantic .outOfMemory (← get).span
  else return UInt16.ofNat addr

/-- The operand of the word that holds function results. -/
def returnSlot (c : Coder) : Word := UInt16.ofNat c.node.returnSlot

/-- The operand of the word that holds the address of the frame. -/
def frameSlot (c : Coder) : Word := UInt16.ofNat c.node.frameSlot

/-- The size of the variable memory as an operand. -/
def memorySize (c : Coder) : Word := UInt16.ofNat c.node.maxVarSize

/-- Push a number that is a size or an address. -/
def pushNat (n : Nat) : Instr := .immediate (Int16.ofNat n)

/-- Pop `n` words into the words from `base` on, the last one first. -/
def popInto (c : Coder) (base : Nat) : Nat → Coding Code
  | 0 => return []
  | n + 1 => do
    let last ← c.address (base + n)
    return .instr (.store last) :: (← c.popInto base n)

/-- Pop `n` words into temporaries; the address is that of the first. -/
def popToTemps (c : Coder) (n : Nat) : Coding (Code × Nat) := do
  let base ← c.temps n
  return (← c.popInto base n, base)

/-- Drop the word on top of the stack. -/
def drop (c : Coder) : Coding Code := do
  let scratch ← c.address (← c.temps 1)
  return .plain [.store scratch]

end Coder
end RobotScript
