/-
# Assembling words

Words can be put down one by one, with jumps and branches whose target is
filled in later. A target that is too far leaves the words as they are.

Key definitions: `Assembly`, `Assembly.patch`.
-/
import RobotScript.Code.Item

namespace RobotScript

open Machine (Instr Binary Opcode)

/-- Words put down so far. -/
structure Assembly where
  words : Array Word
  deriving DecidableEq, Repr, Inhabited

namespace Assembly

def empty : Assembly := ⟨#[]⟩

/-- The address of the next word. -/
def here (a : Assembly) : Nat := a.words.size

def append (a : Assembly) (words : List Word) : Assembly := ⟨a.words ++ words⟩

/-- A jump whose target is filled in later. -/
def jump (a : Assembly) : Assembly := a.append (Instr.jump 0).encode

/-- A branch whose target is filled in later. -/
def branch (a : Assembly) (op : Binary) (edge : Bool) : Assembly :=
  a.append (Instr.branch op edge 0).encode

/-- The words with one of them replaced. -/
def setWord (a : Assembly) (addr : Nat) (w : Word) : Assembly := ⟨a.words.setIfInBounds addr w⟩

/-- Fill in the target of the jump at an address; none if it is too far. -/
def patchJump (a : Assembly) (addr target : Nat) : Option Assembly :=
  (jumpOffset? ((target : Int) - addr)).map fun d =>
    a.setWord addr (Opcode.jump.word d.toUInt16.toNat)

/-- Fill in the target of the branch at an address; none if it is too far. -/
def patchBranch (a : Assembly) (addr target : Nat) : Option Assembly :=
  (branchOffset? ((target : Int) - addr)).map fun d => a.setWord (addr + 1) d.toUInt16

/-- Fill in the target of the jump or branch at an address; none if it is too
far. -/
def patch (a : Assembly) (addr target : Nat) : Option Assembly :=
  if (a.words[addr]?.bind Opcode.ofWord?) = some .conditionalBranch then a.patchBranch addr target
  else a.patchJump addr target

end Assembly
end RobotScript
