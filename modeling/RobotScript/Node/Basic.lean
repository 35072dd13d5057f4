/-
# Node descriptions

A node is the target of a program: its words of variable memory, of which the
first are predefined variables and the last two are reserved, its local
events and the functions its firmware provides.

Key definitions: `Node`, `Node.native?`, `Node.localEventId?`.
-/
import RobotScript.Machine.Instruction

namespace RobotScript

/-- A count of words as it is kept: in 64 bits, so that it starts over at zero. -/
def counted (n : Nat) : Nat := n % 0x10000000000000000

theorem counted_of_lt {n : Nat} (h : n < 0x10000000000000000) : counted n = n := Nat.mod_eq_of_lt h

/-- A predefined variable. -/
structure NodeVariable where
  name : String
  size : Nat
  deriving DecidableEq, Repr, Inhabited

/-- A function of the firmware. Each argument has a size code: a positive one
is its size, `0` admits any size, which is passed along, and `-k` admits any
size that all arguments of group `k` have. -/
structure NativeFunction where
  name : String
  args : List Int32
  deriving DecidableEq, Repr, Inhabited

structure Node where
  name : String
  /-- Words of variable memory. -/
  maxVarSize : Nat
  /-- The predefined variables, from address zero on. -/
  predefined : List NodeVariable
  localEvents : List String
  nativeFunctions : List NativeFunction
  deriving DecidableEq, Repr, Inhabited

namespace Node

/-- The event id of the init code. -/
def initEventId : Word := 0xffff

/-- The words of the predefined variables. -/
def variablesSize (node : Node) : Nat := node.predefined.foldr (fun v n => counted (v.size + n)) 0

/-- The word that holds function results, and the subject of a switch. -/
def returnSlot (node : Node) : Nat := node.maxVarSize - 2

/-- The word that holds the address of the current function frame. -/
def frameSlot (node : Node) : Nat := node.maxVarSize - 1

/-- The first function with a given name, and its id. -/
def native? (node : Node) (name : String) : Option (Word × NativeFunction) :=
  (node.nativeFunctions.zipIdx.find? fun f => f.1.name == name).map fun f =>
    (UInt16.ofNat f.2, f.1)

/-- The id of a local event: the ids count down from the one below the init
code's. -/
def localEventId? (node : Node) (name : String) : Option Word :=
  (node.localEvents.findIdx? (· == name)).map fun i => initEventId - 1 - UInt16.ofNat i

end Node
end RobotScript
