/-
# Running an image

`step` executes one instruction, `runEvent` the handler of an event from its
address in the event table until it stops, with a bound on the steps. A
handler stops at `stop` or at a `ret` outside of any call.

Key definitions: `State.handler?`, `step`, `runEvent`, `runInit`.
-/
import RobotScript.Machine.Native

namespace RobotScript.Machine

/-- The address paired with an event id; `none` if the id is not listed. -/
def handlerIn (id : Word) : List Word → Option Nat
  | [] => none
  | [_] => none
  | key :: addr :: rest => if key == id then some addr.toNat else handlerIn id rest

/-- The address of the handler of an event. -/
def State.handler? (s : State) (id : Word) : Option Nat :=
  match s.image[0]? with
  | none => none
  | some first =>
    let len := first.toNat
    if len = 0 ∨ s.image.size < len then none
    else handlerIn id (s.image.extract 1 len).toList

/-- Execute a conditional branch whose first word is `word`. -/
def stepBranch (word : Word) (op : Binary) : Exec Unit := do
  let holds := (← Exec.popBinary op) != 0
  let s ← get
  if isEdge word then
    set { s with image := s.image.setIfInBounds s.pc (markHeld word holds) }
  if !holds || (isEdge word && heldLast word) then do
    let offset ← Exec.fetch (s.pc + 1)
    Exec.jumpBy offset.toInt16.toInt
  else Exec.advance 2

/-- Execute one instruction; `false` once the handler is done. -/
def step (node : Node) : Exec Bool := do
  let pc := (← get).pc
  let word ← Exec.fetch pc
  let arg := operand word
  match Opcode.ofWord? word with
  | none => throw (.unknownInstruction pc word)
  | some .stop => pure false
  | some .smallImmediate => do
    Exec.push (Int16.ofInt (signed12 word))
    Exec.advance 1
    pure true
  | some .largeImmediate => do
    let value ← Exec.fetch (pc + 1)
    Exec.push value.toInt16
    Exec.advance 2
    pure true
  | some .load => do
    let value ← Exec.read arg
    Exec.push value
    Exec.advance 1
    pure true
  | some .store => do
    let value ← Exec.pop
    Exec.write arg value
    Exec.advance 1
    pure true
  | some .loadIndirect => do
    let size ← Exec.fetch (pc + 1)
    let addr ← Exec.popIndex arg size
    let value ← Exec.read addr
    Exec.push value
    Exec.advance 2
    pure true
  | some .storeIndirect => do
    let size ← Exec.fetch (pc + 1)
    let addr ← Exec.popIndex arg size
    let value ← Exec.pop
    Exec.write addr value
    Exec.advance 2
    pure true
  | some .unary =>
    match Unary.ofCode? arg with
    | none => throw (.unknownInstruction pc word)
    | some op => do
      let value ← Exec.pop
      Exec.push (op.evalCell value)
      Exec.advance 1
      pure true
  | some .binary =>
    match Binary.ofCode? arg with
    | none => throw (.unknownInstruction pc word)
    | some op => do
      let value ← Exec.popBinary op
      Exec.push value
      Exec.advance 1
      pure true
  | some .jump => do
    Exec.jumpBy (signed12 word)
    pure true
  | some .conditionalBranch =>
    match Binary.ofCode? (arg % 256) with
    | none => throw (.unknownInstruction pc word)
    | some op => do
      stepBranch word op
      pure true
  | some .emit => do
    let addr ← Exec.fetch (pc + 1)
    let size ← Exec.fetch (pc + 2)
    let data ← Exec.readMany addr.toNat size.toNat
    modify fun s => { s with emitted := s.emitted.push ⟨UInt16.ofNat arg, data⟩ }
    Exec.advance 3
    pure true
  | some .nativeCall => do
    callNative node arg
    Exec.advance 1
    pure true
  | some .subCall => do
    let s ← get
    if callDepth ≤ s.calls.length then throw (.stackOverflow pc)
    else do
      set { s with calls := (pc + 1) :: s.calls, pc := arg }
      pure true
  | some .ret => do
    let s ← get
    match s.calls with
    | [] => pure false
    | caller :: rest => do
      set { s with calls := rest, pc := caller }
      pure true

/-- Step until the handler is done, with at most `left` steps that go on. -/
def runSteps (node : Node) (limit : Nat) : Nat → Exec Unit
  | 0 => do
    if ← step node then throw (.stepLimit limit)
  | left + 1 => do
    if ← step node then runSteps node limit left

/-- Run the handler of an event; `false` if the program does not handle it. -/
def runEvent (node : Node) (id : Word) (limit : Nat) : Exec Bool := do
  let s ← get
  match s.handler? id with
  | none => pure false
  | some start => do
    set { s with pc := start, stack := [], calls := [] }
    runSteps node limit limit
    pure true

/-- Run the init code. -/
def runInit (node : Node) (limit : Nat) : Exec Bool := runEvent node Node.initEventId limit

end RobotScript.Machine
