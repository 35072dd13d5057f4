/-
# Code of statements

The code of a statement starts with a mark of its place. Loops and switches
put what surrounds their body on a list, in which a jump out of a loop finds
what it leaves; the code of a whole loop then has no such jumps of its own.

Key definitions: `Flow`, `Flow.depth`, `Stmt.code`.
-/
import RobotScript.Code.Expr
import RobotScript.Stmt.Basic

namespace RobotScript

open Machine (Instr Binary)

/-- A loop or switch around a statement. -/
structure Flow where
  label : Option String
  isSwitch : Bool
  deriving DecidableEq, Repr, Inhabited

namespace Flow

/-- Whether a jump may mean this loop or switch: the one with its label, or
the innermost, where `continue` looks at loops only. -/
def matches? (kind : LoopExit) (label : Option String) (f : Flow) : Bool :=
  match label with
  | some name => f.label == some name
  | none => kind == .leave || !f.isSwitch

/-- The depth of what a jump leaves. A switch cannot be continued. -/
def depth (flows : List Flow) (kind : LoopExit) (label : Option String) (span : Span) :
    Result Nat :=
  match flows.findIdx? (matches? kind label), label with
  | some d, none => .ok d
  | some d, some name =>
    if kind = .again ∧ flows[d]?.any (·.isSwitch) then semantic (.unknownLoopLabel kind name) span
    else .ok d
  | none, some name => semantic (.unknownLoopLabel kind name) span
  | none, none => semantic (.outsideLoop kind) span

end Flow

/-- An argument of a native call. -/
inductive NativeArg where
  | place (p : Place)
  /-- Words on the stack. -/
  | words (n : Nat)

namespace Coder

/-- Push the words of a value; there are as many as the number says. -/
def pushWords (c : Coder) (e : Expr) : Coding (Code × Nat) := do
  match e with
  | .array _ items => return (← Expr.valuesCode c items, items.length)
  | .var _ v =>
    if e.size = 1 then return (← e.code c .value, 1)
    else
      let s ← v.stored
      return (← concat (List.range s.size) fun k => Place.load c ⟨s, .known k⟩, s.size)
  | _ => return (← e.code c .value, 1)

/-- Push the arguments of a native call that are no places. -/
def pushNativeArgs (c : Coder) : List Expr → Coding (Code × List NativeArg)
  | [] => return ([], [])
  | e :: es => do
    if e.isPlace then
      let (setup, place) ← e.placeOf c false
      let (code, args) ← c.pushNativeArgs es
      return (setup ++ code, .place place :: args)
    else
      let (first, n) ← c.pushWords e
      let (code, args) ← c.pushNativeArgs es
      return (first ++ code, .words n :: args)

/-- Pop the words of arguments into temporaries, the last argument first; then
each argument has an address. -/
def popNativeArgs (c : Coder) : List NativeArg → Coding (Code × List (Coding Code))
  | [] => return ([], [])
  | a :: as => do
    let (code, addresses) ← c.popNativeArgs as
    match a with
    | .place p => return (code, p.push c :: addresses)
    | .words n =>
      let (pops, base) ← c.popToTemps n
      return (code ++ pops, (return .plain [pushNat base]) :: addresses)

/-- Call a firmware function. Variables are passed as they are, other values in
temporaries. -/
def nativeStatement (c : Coder) (name : String) (args : List Expr) (span : Span) :
    Coding Code := do
  let (pushes, places) ← c.pushNativeArgs args
  let (pops, addresses) ← c.popNativeArgs places
  return pushes ++ pops ++ (← c.callNative name addresses (args.map (·.size)) span)

/-- The words of a value where an event can be sent from: those of a variable
at a fixed address are sent from there, others from temporaries. -/
def emitFrom (c : Coder) (e : Expr) : Coding (Code × Nat) := do
  let fixedAddress : Option Nat ← match e with
    | .var _ v => do
      let s ← v.stored
      pure (if s.mode = .absolute then some s.offset else none)
    | _ => pure none
  match fixedAddress with
  | some addr => return ([], addr)
  | none =>
    let (pushes, n) ← c.pushWords e
    let (pops, base) ← c.popToTemps n
    return (pushes ++ pops, base)

/-- Send a user event. -/
def emit (c : Coder) (event : String) (value : Option Expr) (span : Span) : Coding Code := do
  match c.settings.userEvent? event with
  | none => semantic (.unknownUserEvent event) span
  | some (id, decl) =>
    let size := (value.map (·.size)).getD 0
    if size ≠ decl.size then semantic .emitSize span
    else
      let (code, addr) ← match value with
        | some e => c.emitFrom e
        | none => pure ([], 0)
      return code ++ .plain [.emit id (← c.address addr) (UInt16.ofNat size)]

/-- The code of a whole loop or switch, with the jumps out of it resolved. -/
def close (next : Nat) (code : Code) : Coding Code :=
  Coding.inReach (Code.closeLoop next (Code.size code) 0 code)

/-- The branch over a distance that ends a test, if there is one. -/
def testBranch (op : Option Binary) (distance : Nat) : Coding Code :=
  match op with
  | some op => return .plain [← Coding.inReach (branchBy? op false distance)]
  | none => return []

/-- A jump back over code. -/
def jumpBack (code : Code) : Coding Code :=
  return .plain [← Coding.inReach (jumpBy? (-(Code.size code : Int)))]

/-- A loop that goes on at its test. -/
def whileLoop (test : Code) (op : Option Binary) (body : Code) : Coding Code := do
  let branch ← testBranch op (2 + Code.size body + 1)
  let front := test ++ branch ++ body
  close 0 (front ++ (← jumpBack front))

/-- A loop that goes on at the test behind its body. -/
def doWhile (body test : Code) (op : Binary) : Coding Code := do
  let front := body ++ test ++ .plain [.branch op false 3]
  close (Code.size body) (front ++ (← jumpBack front))

/-- A loop that goes on at the step behind its body. -/
def stepLoop (test : Code) (op : Option Binary) (body step : Code) : Coding Code := do
  let branch ← testBranch op (2 + Code.size body + Code.size step + 1)
  let front := test ++ branch ++ body
  close (Code.size front) (front ++ step ++ (← jumpBack (front ++ step)))

/-- The tests of a switch in order, each without its branch. -/
def switchTests (c : Coder) : List Stmt → Coding (List Code)
  | [] => return []
  | .case _ value :: ss => do
    let test := .plain [.load c.returnSlot] ++ (← value.code c .value)
    return test :: (← c.switchTests ss)
  | _ :: ss => c.switchTests ss

/-- How far each branch of the tests is from the body of the switch, which
follows them and one jump. -/
def testGaps : List Code → List Nat
  | [] => []
  | _ :: tests => (2 + tests.foldr (fun t n => Code.size t + 2 + n) 0 + 1) :: testGaps tests

/-- The tests of a switch with their branches. -/
def joinTests : List Code → List Instr → Code
  | test :: tests, branch :: branches => test ++ .plain [branch] ++ joinTests tests branches
  | _, _ => []

/-- Begin a statement and generate its code. -/
def statement (c : Coder) (span : Span) (marked : Bool) (code : Coding Code) : Coding Code :=
  Coding.placedAt span do
    set (⟨c.tempTop, span⟩ : Coding.State)
    let code ← code
    return if marked then .mark span :: code else code

end Coder

/-- Whether there is a further arm. -/
def Arms.isDone : Arms → Bool
  | .done => true
  | _ => false

/-- Whether the place of a statement is kept with its code. -/
def Stmt.isMarked : Stmt → Bool
  | .block _ _ | .empty _ | .varDecl _ _ | .constDecl _ _ _ | .label _ _ => false
  | _ => true

namespace Stmt

mutual

/-- The code of a statement inside the given loops and switches, innermost
first. -/
def code (c : Coder) (flows : List Flow) (s : Stmt) : Coding Code :=
  c.statement s.span s.isMarked <| match s with
  | varDecl _ _ | constDecl _ _ _ | empty _ | case _ _ | default _ => return []
  | expr _ e => e.code c .effect
  | branch _ arms => armsCode c flows arms
  | whenever _ cond body => do
    let test ← cond.code c .test
    let body ← blockCode c flows body
    let branch ← Coding.inReach (branchBy? cond.testOp true (2 + Code.size body))
    return test ++ .plain [branch] ++ body
  | whileLoop _ tag cond body => do
    let test ← match cond with
      | some e => e.code c .test
      | none => pure []
    let body ← blockCode c (⟨tag, false⟩ :: flows) body
    Coder.whileLoop test (cond.map (·.testOp)) body
  | doWhile _ tag body cond => do
    let body ← blockCode c (⟨tag, false⟩ :: flows) body
    let test ← cond.code c .test
    Coder.doWhile body test cond.testOp
  | rangeFor _ tag var first last step body => do
    let step := (step.bind Expr.number?).getD 1
    let (setup, counter) ← var.placeOf c false
    let first ← first.code c .value
    let start ← counter.store c
    let count ← counter.load c
    let last ← last.code c .value
    let body ← blockCode c (⟨tag, false⟩ :: flows) body
    let old ← counter.load c
    let update := old ++ .plain [.immediate step, .binary .add] ++ (← counter.store c)
    let loop ← Coder.stepLoop (count ++ last) (some (if 0 ≤ step then .le else .ge)) body update
    return setup ++ first ++ start ++ loop
  | forLoop _ tag init cond step body => do
    let init ← blockCode c flows init
    let test ← match cond with
      | some e => e.code c .test
      | none => pure []
    let body ← blockCode c (⟨tag, false⟩ :: flows) body
    let step ← match step with
      | some e => do c.freeTemps; e.code c .effect
      | none => pure []
    return init ++ (← Coder.stepLoop test (cond.map (·.testOp)) body step)
  | switch _ tag subject body => do
    let subject ← subject.code c .value
    let tests ← c.switchTests body
    let (body, branches, start) ←
      switchCode c (⟨tag, true⟩ :: flows) (Coder.testGaps tests) 0 body
    let skip ← Coding.inReach (jumpBy? (1 + start.getD (Code.size body)))
    let code := subject ++ .plain [.store c.returnSlot] ++ Coder.joinTests tests branches ++
      .plain [skip] ++ body
    Coder.close (Code.size code) code
  | block _ body => blockCode c flows body
  | label _ name => return [.label name]
  | goto span name => return [.goto name span]
  | exit span kind tag => return [.exit kind (← Flow.depth flows kind tag span)]
  | native span name args => c.nativeStatement name args span
  | callSub span name => return [.call name span]
  | emit span event value => c.emit event value span
  | ret _ value => do
    match value with
    | some e => return (← e.code c .value) ++ .plain [.store c.returnSlot, c.exit]
    | none => return .plain [c.exit]

/-- The code of the arms of an `if`. -/
def armsCode (c : Coder) (flows : List Flow) : Arms → Coding Code
  | .done => return []
  | .otherwise body => blockCode c flows body
  | .arm _ cond body rest => do
    let test ← cond.code c .test
    let body ← blockCode c flows body
    let skipped := if rest.isDone then 0 else 1
    let branch ← Coding.inReach (branchBy? cond.testOp false (2 + Code.size body + skipped))
    let others ← armsCode c flows rest
    let skip ← if rest.isDone then pure []
      else pure [← Coding.inReach (jumpBy? (1 + Code.size others))]
    return test ++ .plain [branch] ++ body ++ .plain skip ++ others

/-- The code of statements one after another. -/
def blockCode (c : Coder) (flows : List Flow) : List Stmt → Coding Code
  | [] => return []
  | s :: ss => return (← code c flows s) ++ (← blockCode c flows ss)

/-- The code of the body of a switch from the address `here` on, with the
branches of its tests, whose gaps are given, and the address of its last
`default`. -/
def switchCode (c : Coder) (flows : List Flow) (gaps : List Nat) (here : Nat) :
    List Stmt → Coding (Code × List Instr × Option Nat)
  | [] => return ([], [], none)
  | s :: ss =>
    match s, gaps with
    | case _ _, gap :: gaps => do
      let branch ← Coding.inReach (branchBy? .ne false (gap + here))
      let (code, branches, start) ← switchCode c flows gaps here ss
      return (code, branch :: branches, start)
    | case _ _, [] => switchCode c flows [] here ss
    | default _, gaps => do
      let (code, branches, start) ← switchCode c flows gaps here ss
      return (code, branches, some (start.getD here))
    | s, gaps => do
      let first ← code c flows s
      let (rest, branches, start) ← switchCode c flows gaps (here + Code.size first) ss
      return (first ++ rest, branches, start)

end

end Stmt
end RobotScript
