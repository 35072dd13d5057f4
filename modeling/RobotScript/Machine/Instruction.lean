/-
# Instructions and their words

An instruction starts with a 16-bit word whose top four bits are its opcode
and whose low twelve bits are an operand; some are followed by one or two
more words. `Instr` is an instruction with its operands read, `Instr.encode`
its words. Operands that do not fit their field are cut to it.

Key definitions: `Opcode.word`, `signed12`, `Instr.encode`, `Instr.immediate`.
-/
import RobotScript.Machine.Operator

namespace RobotScript

/-- A word of a program image. -/
abbrev Word := UInt16

namespace Machine

/-- What the top four bits of an instruction's first word select. -/
inductive Opcode where
  | stop
  | smallImmediate
  | largeImmediate
  | load
  | store
  | loadIndirect
  | storeIndirect
  | unary
  | binary
  | jump
  | conditionalBranch
  | emit
  | nativeCall
  | subCall
  | ret
  deriving DecidableEq, Repr, Inhabited

namespace Opcode

def code : Opcode → Nat
  | stop => 0
  | smallImmediate => 1
  | largeImmediate => 2
  | load => 3
  | store => 4
  | loadIndirect => 5
  | storeIndirect => 6
  | unary => 7
  | binary => 8
  | jump => 9
  | conditionalBranch => 10
  | emit => 11
  | nativeCall => 12
  | subCall => 13
  | ret => 14

def ofCode? : Nat → Option Opcode
  | 0 => some stop
  | 1 => some smallImmediate
  | 2 => some largeImmediate
  | 3 => some load
  | 4 => some store
  | 5 => some loadIndirect
  | 6 => some storeIndirect
  | 7 => some unary
  | 8 => some binary
  | 9 => some jump
  | 10 => some conditionalBranch
  | 11 => some emit
  | 12 => some nativeCall
  | 13 => some subCall
  | 14 => some ret
  | _ => none

/-- The opcode of a word; the value 15 is not used. -/
def ofWord? (w : Word) : Option Opcode := ofCode? (w.toNat / 4096)

/-- The first word of an instruction with the low twelve bits of `arg`. -/
def word (op : Opcode) (arg : Nat) : Word := UInt16.ofNat (op.code * 4096 + arg % 4096)

/-- The number of words of an instruction. -/
def length : Opcode → Nat
  | largeImmediate | loadIndirect | storeIndirect | conditionalBranch => 2
  | emit => 3
  | _ => 1

theorem code_lt (op : Opcode) : op.code < 15 := by
  cases op <;> decide

theorem ofCode?_code (op : Opcode) : ofCode? op.code = some op := by
  cases op <;> rfl

end Opcode

/-- The operand of an instruction's first word. -/
def operand (w : Word) : Nat := w.toNat % 4096

/-- The low twelve bits of a word, read as a signed number. -/
def signed12 (w : Word) : Int :=
  if operand w < 2048 then (operand w : Int) else (operand w : Int) - 4096

theorem Opcode.toNat_word (op : Opcode) (arg : Nat) :
    (op.word arg).toNat = op.code * 4096 + arg % 4096 := by
  have := op.code_lt
  simp only [Opcode.word, UInt16.toNat_ofNat']
  omega

theorem Opcode.ofWord?_word (op : Opcode) (arg : Nat) : Opcode.ofWord? (op.word arg) = some op := by
  rw [ofWord?, toNat_word, show (op.code * 4096 + arg % 4096) / 4096 = op.code by omega, ofCode?_code]

theorem operand_word (op : Opcode) (arg : Nat) : operand (op.word arg) = arg % 4096 := by
  rw [operand, Opcode.toNat_word]
  omega

/-- A branch that is taken only when its condition starts to hold. -/
def isEdge (w : Word) : Bool := w.toNat / 256 % 2 == 1

/-- Set by the machine on an edge branch whose condition held last time. -/
def heldLast (w : Word) : Bool := w.toNat / 512 % 2 == 1

/-- The word with its `heldLast` mark set or cleared. -/
def markHeld (w : Word) (held : Bool) : Word :=
  UInt16.ofNat (w.toNat - w.toNat / 512 % 2 * 512 + held.toNat * 512)

/-- An instruction with its operands. -/
inductive Instr where
  | stop
  /-- Push a number of twelve bits. -/
  | pushSmall (value : Cell)
  | push (value : Cell)
  | load (addr : Word)
  | store (addr : Word)
  /-- Pop an index below `size` and push the word that far past `addr`. -/
  | loadIndirect (addr size : Word)
  /-- Pop an index below `size`, then a value for the word that far past `addr`. -/
  | storeIndirect (addr size : Word)
  | unary (op : Unary)
  | binary (op : Binary)
  /-- Go on at an offset from this instruction. -/
  | jump (offset : Cell)
  /-- Go on at an offset when the comparison does not hold, or, on an edge
  branch, when it held before too. -/
  | branch (op : Binary) (edge : Bool) (offset : Cell)
  /-- Send `size` words from `addr` on as the event `id`. -/
  | emit (id addr size : Word)
  | callNative (id : Word)
  | callSub (addr : Word)
  | ret
  deriving DecidableEq, Repr, Inhabited

namespace Instr

def opcode : Instr → Opcode
  | stop => .stop
  | pushSmall _ => .smallImmediate
  | push _ => .largeImmediate
  | load _ => .load
  | store _ => .store
  | loadIndirect _ _ => .loadIndirect
  | storeIndirect _ _ => .storeIndirect
  | unary _ => .unary
  | binary _ => .binary
  | jump _ => .jump
  | branch _ _ _ => .conditionalBranch
  | emit _ _ _ => .emit
  | callNative _ => .nativeCall
  | callSub _ => .subCall
  | ret => .ret

/-- The number of words of the instruction. -/
def length : Instr → Nat
  | push _ | loadIndirect _ _ | storeIndirect _ _ | branch _ _ _ => 2
  | emit _ _ _ => 3
  | _ => 1

/-- The opcode of an instruction tells its length. -/
theorem length_opcode (i : Instr) : i.opcode.length = i.length := by
  cases i <;> rfl

/-- The words of the instruction. -/
def encode : Instr → List Word
  | stop => [Opcode.stop.word 0]
  | pushSmall n => [Opcode.smallImmediate.word n.toUInt16.toNat]
  | push n => [Opcode.largeImmediate.word 0, n.toUInt16]
  | load a => [Opcode.load.word a.toNat]
  | store a => [Opcode.store.word a.toNat]
  | loadIndirect a n => [Opcode.loadIndirect.word a.toNat, n]
  | storeIndirect a n => [Opcode.storeIndirect.word a.toNat, n]
  | unary op => [Opcode.unary.word op.code]
  | binary op => [Opcode.binary.word op.code]
  | jump d => [Opcode.jump.word d.toUInt16.toNat]
  | branch op edge d =>
    [Opcode.conditionalBranch.word (op.code + edge.toNat * 256), d.toUInt16]
  | emit id a n => [Opcode.emit.word id.toNat, a, n]
  | callNative id => [Opcode.nativeCall.word id.toNat]
  | callSub a => [Opcode.subCall.word a.toNat]
  | ret => [Opcode.ret.word 0]

@[simp] theorem length_encode (i : Instr) : i.encode.length = i.length := by
  cases i <;> rfl

theorem length_pos (i : Instr) : 0 < i.length := by
  cases i <;> simp [length]

/-- The shortest instruction that pushes a number. -/
def immediate (n : Cell) : Instr :=
  if -2048 ≤ n ∧ n < 2048 then pushSmall n else push n

end Instr
end Machine
end RobotScript
