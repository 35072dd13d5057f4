/-
# Reading an image back

An image starts with its event table: a first word that counts the words of
the table, itself included, then one pair of event id and handler address for
each event. The code follows. `eventTable` reads the table, `disassemble` the
instructions behind it, each with its address, and `listing` prints them with
a label in front of each handler.

Key definitions: `eventTable`, `decode`, `disassemble`, `listing`.
-/
import RobotScript.Machine.Instruction
import RobotScript.Text.Layout

namespace RobotScript.Machine

/-- Why an image cannot be read. -/
inductive ImageFault where
  | badEventTable
  | unknownInstruction (addr : Nat) (word : Word)
  /-- The image ends within the instruction. -/
  | cutShort (addr : Nat)
  deriving DecidableEq, Repr

def ImageFault.message : ImageFault → String
  | badEventTable => "bad event table"
  | unknownInstruction addr word =>
    "unknown instruction 0x" ++ Text.hex4 word.toNat ++ " at " ++ toString addr
  | cutShort addr => "instruction at " ++ toString addr ++ " is cut short"

/-- The pairs of an event table whose addresses lie in `[lo, hi)`; `none` if
one does not, or if a word is left over. -/
def eventPairs (lo hi : Nat) : List Word → Option (List (Word × Nat))
  | [] => some []
  | [_] => none
  | id :: addr :: rest =>
    if lo ≤ addr.toNat ∧ addr.toNat < hi then
      (eventPairs lo hi rest).map ((id, addr.toNat) :: ·)
    else none

/-- The event ids of an image with the addresses of their handlers, which lie
behind the table and within the image. -/
def eventTable (image : List Word) : Except ImageFault (List (Word × Nat)) :=
  match image with
  | [] => .error .badEventTable
  | first :: rest =>
    let len := first.toNat
    if len % 2 = 0 ∨ image.length < len then .error .badEventTable
    else
      match eventPairs len image.length (rest.take (len - 1)) with
      | some pairs => .ok pairs
      | none => .error .badEventTable

/-- The instruction at `addr` that starts with the word `w` and may go on
with the words of `rest`. -/
def decode (addr : Nat) (w : Word) (rest : List Word) : Except ImageFault Instr :=
  let unknown := .error (.unknownInstruction addr w)
  let arg := UInt16.ofNat (operand w)
  match Opcode.ofWord? w with
  | none => unknown
  | some .stop => .ok .stop
  | some .smallImmediate => .ok (.pushSmall (Int16.ofInt (signed12 w)))
  | some .largeImmediate =>
    match rest with
    | value :: _ => .ok (.push value.toInt16)
    | [] => .error (.cutShort addr)
  | some .load => .ok (.load arg)
  | some .store => .ok (.store arg)
  | some .loadIndirect =>
    match rest with
    | size :: _ => .ok (.loadIndirect arg size)
    | [] => .error (.cutShort addr)
  | some .storeIndirect =>
    match rest with
    | size :: _ => .ok (.storeIndirect arg size)
    | [] => .error (.cutShort addr)
  | some .unary =>
    match Unary.ofCode? (operand w) with
    | some op => .ok (.unary op)
    | none => unknown
  | some .binary =>
    match Binary.ofCode? (operand w) with
    | some op => .ok (.binary op)
    | none => unknown
  | some .jump => .ok (.jump (Int16.ofInt (signed12 w)))
  | some .conditionalBranch =>
    match Binary.ofCode? (operand w % 256) with
    | none => unknown
    | some op =>
      if op.isComparison then
        match rest with
        | offset :: _ => .ok (.branch op (isEdge w) offset.toInt16)
        | [] => .error (.cutShort addr)
      else unknown
  | some .emit =>
    match rest with
    | a :: size :: _ => .ok (.emit arg a size)
    | _ => .error (.cutShort addr)
  | some .nativeCall => .ok (.callNative arg)
  | some .subCall => .ok (.callSub arg)
  | some .ret => .ok .ret

/-- The instructions of a stretch of code that starts at `addr`, each with its
address. -/
def decodeAll (addr : Nat) : List Word → Except ImageFault (List (Nat × Instr))
  | [] => .ok []
  | w :: rest => do
    let instr ← decode addr w rest
    let more ← decodeAll (addr + instr.length) (rest.drop (instr.length - 1))
    .ok ((addr, instr) :: more)
termination_by words => words.length
decreasing_by
  simp only [List.length_drop, List.length_cons]
  omega

/-- The instructions behind the event table, each with its address. -/
def disassemble (image : List Word) : Except ImageFault (List (Nat × Instr)) := do
  let _ ← eventTable image
  match image with
  | [] => .error .badEventTable
  | first :: _ => decodeAll first.toNat (image.drop first.toNat)

/-- The text of the instruction at `addr`; jumps show their target. -/
def Instr.render (addr : Nat) : Instr → String
  | stop => "stop"
  | pushSmall n => s!"push.s {n.toInt}"
  | push n => s!"push {n.toInt}"
  | load a => s!"load {a.toNat}"
  | store a => s!"store {a.toNat}"
  | loadIndirect a n => s!"load.ind {a.toNat} size={n.toNat}"
  | storeIndirect a n => s!"store.ind {a.toNat} size={n.toNat}"
  | unary op => op.mnemonic
  | binary op => op.mnemonic
  | jump d => s!"jump {addr + d.toInt}"
  | branch op edge d =>
    s!"jump.if.not {op.mnemonic} {addr + d.toInt}" ++ if edge then " (edge)" else ""
  | emit id a n => s!"emit {id.toNat} addr={a.toNat} size={n.toNat}"
  | callNative id => s!"callnat {id.toNat}"
  | callSub a => s!"callsub {a.toNat}"
  | ret => "ret"

/-- The labels in front of the instruction at `addr`, one for each event it
handles. -/
def handlerLabels (events : List (Word × Nat)) (addr : Nat) : String :=
  String.join
    ((events.filter fun e => e.2 == addr).map fun e => "onevent_" ++ Text.hex4 e.1.toNat ++ ":\n")

/-- The text of an image: its instructions in order, handlers labelled. -/
def listing (image : List Word) : Except ImageFault String := do
  let events ← eventTable image
  let instrs ← disassemble image
  let lines := instrs.map fun (addr, instr) =>
    handlerLabels events addr ++ Text.alignRight 5 ' ' (toString addr) ++ ": " ++ instr.render addr
  .ok (String.intercalate "\n" lines)

end RobotScript.Machine
