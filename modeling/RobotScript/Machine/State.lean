/-
# The state of the machine

The machine holds an image, of which it may change only the marks of edge
branches, variable memory of a fixed size, a data stack and a stack of return
addresses, both bounded, and the events it has sent. `Exec` is a computation
on that state that may end in a fault; what it changed before the fault stays.

Key definitions: `State`, `RunFault`, `Exec` and its access operations.
-/
import RobotScript.Node.Basic
import RobotScript.Text.Layout

namespace RobotScript.Machine

/-- The most words the data stack holds. -/
def stackSize : Nat := 32

/-- The most return addresses the call stack holds. -/
def callDepth : Nat := 64

/-- Why a run stopped before its end. -/
inductive RunFault where
  | stepLimit (limit : Nat)
  | stackOverflow (pc : Nat)
  | stackUnderflow (pc : Nat)
  | badAddress (pc addr : Nat)
  | divisionByZero (pc : Nat)
  | indexOutOfRange (pc : Nat) (index size : Word)
  | unknownNative (name : String)
  | unknownInstruction (pc : Nat) (word : Word)
  | badJump (target : Nat)
  deriving DecidableEq, Repr, Inhabited

def RunFault.message : RunFault → String
  | stepLimit limit => s!"no more than {limit} steps allowed"
  | stackOverflow pc => s!"stack overflow at {pc}"
  | stackUnderflow pc => s!"stack underflow at {pc}"
  | badAddress pc addr => s!"address {addr} out of memory at {pc}"
  | divisionByZero pc => s!"division by zero at {pc}"
  | indexOutOfRange pc index size =>
    s!"index {index.toNat} out of array of size {size.toNat} at {pc}"
  | unknownNative name => "unknown native function " ++ name
  | unknownInstruction pc word =>
    "unknown instruction 0x" ++ Text.hex4 word.toNat ++ s!" at {pc}"
  | badJump target => s!"program counter {target} outside the image"

/-- An event sent by the program: its id and data. -/
structure Emission where
  id : Word
  data : List Cell
  deriving DecidableEq, Repr, Inhabited

structure State where
  image : Array Word
  memory : Array Cell
  /-- The data stack, top first. -/
  stack : List Cell
  /-- The addresses to return to, innermost first. -/
  calls : List Nat
  pc : Nat
  /-- The events sent so far, in order. -/
  emitted : Array Emission
  /-- The last random number. -/
  seed : Word
  deriving Repr, Inhabited

/-- The machine before its first event: memory is zero. -/
def State.start (node : Node) (image : List Word) : State where
  image := image.toArray
  memory := Array.replicate node.maxVarSize 0
  stack := []
  calls := []
  pc := 0
  emitted := #[]
  seed := 0

/-- The memory word at an address, zero outside of memory. -/
def State.word (s : State) (addr : Nat) : Cell := s.memory.getD addr 0

/-- The state with a memory word replaced; nothing changes outside of memory. -/
def State.setWord (s : State) (addr : Nat) (value : Cell) : State :=
  { s with memory := s.memory.setIfInBounds addr value }

/-- A computation of the machine. A fault keeps the changes made before it. -/
abbrev Exec := EStateM RunFault State

namespace Exec

def push (value : Cell) : Exec Unit := do
  let s ← get
  if stackSize ≤ s.stack.length then throw (.stackOverflow s.pc)
  else set { s with stack := value :: s.stack }

def pop : Exec Cell := do
  let s ← get
  match s.stack with
  | [] => throw (.stackUnderflow s.pc)
  | value :: rest => do
    set { s with stack := rest }
    pure value

def read (addr : Nat) : Exec Cell := do
  let s ← get
  match s.memory[addr]? with
  | some value => pure value
  | none => throw (.badAddress s.pc addr)

def write (addr : Nat) (value : Cell) : Exec Unit := do
  if addr < (← get).memory.size then modify (·.setWord addr value)
  else throw (.badAddress (← get).pc addr)

/-- The word of the image at an address. -/
def fetch (addr : Nat) : Exec Word := do
  let s ← get
  match s.image[addr]? with
  | some word => pure word
  | none => throw (.badJump addr)

/-- Go on `n` words further. -/
def advance (n : Nat) : Exec Unit := modify fun s => { s with pc := s.pc + n }

/-- Go on at an offset from the current instruction. -/
def jumpBy (offset : Int) : Exec Unit := do
  let s ← get
  let target := s.pc + offset
  if target < 0 then throw (.badJump s.pc)
  else set { s with pc := target.toNat }

/-- Pop an index below `size` and add it to `base`. -/
def popIndex (base : Nat) (size : Word) : Exec Nat := do
  let index ← pop
  let s ← get
  let index := index.toUInt16
  if index < size then pure (base + index.toNat)
  else throw (.indexOutOfRange s.pc index size)

/-- Pop two operands, the second on top, and apply an operator to them. -/
def popBinary (op : Binary) : Exec Cell := do
  let b ← pop
  let a ← pop
  let s ← get
  match op.evalCell a b with
  | some value => pure value
  | none => throw (.divisionByZero s.pc)

/-- The memory words from `addr` on. -/
def readMany (addr : Nat) : Nat → Exec (List Cell)
  | 0 => pure []
  | n + 1 => do
    let value ← read addr
    let rest ← readMany (addr + 1) n
    pure (value :: rest)

end Exec
end RobotScript.Machine
