/-
# Places

A place is a word of a variable that can be read, written and pointed to. Its
element is known, or computed each time the place is used, or computed once
and kept in a temporary. What the code looks like depends on how the variable
is found; an element of an array outside functions is checked by the machine.

Key definitions: `Place`, `Place.load`, `Place.store`, `Place.push`.
-/
import RobotScript.Code.Coding
import RobotScript.Expr.Basic

namespace RobotScript

open Machine (Instr Binary)

/-- Which word of a variable is meant, in storage order. -/
inductive Element where
  | known (k : Nat)
  /-- The word whose position the code pushes. -/
  | computed (position : Coding Code)
  /-- The word whose position a temporary holds. -/
  | saved (temp : Word)

structure Place where
  storage : Storage
  element : Element

namespace Place

/-- Push the position of the element. -/
def position (p : Place) : Coding Code :=
  match p.element with
  | .known k => return .plain [Coder.pushNat k]
  | .computed position => position
  | .saved temp => return .plain [.load temp]

/-- Push the address that a reference parameter holds, with the element added. -/
def referenced (c : Coder) (p : Place) : Coding Code := do
  let slot ← c.address p.storage.offset
  let base : Code := .plain [.load c.frameSlot, .loadIndirect slot c.memorySize]
  match p.element with
  | .known 0 => return base
  | _ => return base ++ (← p.position) ++ .plain [.binary .add]

/-- How the word of a place is reached: the code that pushes an index, and the
operands of the instruction that uses it. -/
inductive Access where
  | direct (addr : Word)
  | indexed (index : Code) (addr size : Word)

/-- How the word of a place is reached. -/
def access (c : Coder) (p : Place) : Coding Access := do
  match p.storage.mode, p.element with
  | .absolute, .known k => return .direct (← c.address (p.storage.offset + k))
  | .absolute, _ =>
    let addr ← c.address p.storage.offset
    return .indexed (← p.position) addr (UInt16.ofNat p.storage.size)
  | .frame, .known k =>
    let addr ← c.address (p.storage.offset + k)
    return .indexed (.plain [.load c.frameSlot]) addr c.memorySize
  | .frame, _ =>
    let addr ← c.address p.storage.offset
    let index := (← p.position) ++ .plain [.load c.frameSlot, .binary .add]
    return .indexed index addr c.memorySize
  | .reference, _ => return .indexed (← p.referenced c) 0 c.memorySize

/-- Push the word of a place. -/
def load (c : Coder) (p : Place) : Coding Code := do
  match ← p.access c with
  | .direct addr => return .plain [.load addr]
  | .indexed index addr size => return index ++ .plain [.loadIndirect addr size]

/-- Pop a word into a place. -/
def store (c : Coder) (p : Place) : Coding Code := do
  match ← p.access c with
  | .direct addr => return .plain [.store addr]
  | .indexed index addr size => return index ++ .plain [.storeIndirect addr size]

/-- Push the address of a place. -/
def push (c : Coder) (p : Place) : Coding Code := do
  match p.storage.mode, p.element with
  | .absolute, .known k => return .plain [Coder.pushNat (p.storage.offset + k)]
  | .absolute, _ =>
    return .plain [Coder.pushNat p.storage.offset] ++ (← p.position) ++ .plain [.binary .add]
  | .frame, .known 0 =>
    return .plain [.load c.frameSlot, Coder.pushNat p.storage.offset, .binary .add]
  | .frame, _ =>
    return .plain [.load c.frameSlot, Coder.pushNat p.storage.offset, .binary .add] ++
      (← p.position) ++ .plain [.binary .add]
  | .reference, _ => p.referenced c

end Place

/-- The storage of a variable, which it must have by now. -/
def Variable.stored (v : Variable) : Result Storage :=
  match v.storage with
  | some s => .ok s
  | none => internal (.unresolvedVariable v.name)

end RobotScript
