/-
# Object code

The code of a routine, ready to be linked: its words, the calls in them that
have no address yet, and the addresses of its statements, all counted from the
start of the routine.

Key definitions: `ObjectCode`, `Routine.assemble`, `Program.assemble`.
-/
import RobotScript.Code.Stmt
import RobotScript.Routine.Basic

namespace RobotScript

open Machine (Instr)

/-- What a routine is reached by. -/
inductive Entry where
  | init
  | event (name : String)
  | call (name : String)
  deriving DecidableEq, Repr, Inhabited

def Routine.Kind.entry : Routine.Kind → Entry
  | .init => .init
  | .onEvent name => .event name
  | .sub name => .call name
  | .function decl _ => .call decl.name

/-- A call in the code of a routine. -/
structure CallSite where
  addr : Nat
  name : String
  span : Span
  deriving DecidableEq, Repr, Inhabited

structure ObjectCode where
  entry : Entry
  span : Span
  words : List Word
  calls : List CallSite
  /-- The places of statements and the addresses of their code. -/
  map : List (Span × Nat)
  deriving DecidableEq, Repr, Inhabited

/-- The call at an address. -/
def Item.callSite? : Nat × Item → Option CallSite
  | (addr, .call name span) => some ⟨addr, name, span⟩
  | _ => none

/-- The statement whose code starts at an address. -/
def Item.statement? : Nat × Item → Option (Span × Nat)
  | (addr, .mark span) => some (span, addr)
  | _ => none

/-- What the code of a routine of a program depends on. -/
def Routine.coder (node : Node) (settings : Settings) (moduleSize : Nat) (r : Routine) : Coder where
  node := node
  settings := settings
  moduleSize := moduleSize
  frameSize := match r.kind with
    | .function _ (some _) => some r.frameSize
    | _ => none
  exit := if r.kind.callName?.isSome then .ret else .stop

/-- The code of a routine up to what ends it. -/
def Routine.code (c : Coder) (r : Routine) : Result Code := do
  let (code, _) ← (Stmt.blockCode c [] r.body).run ⟨c.tempTop, r.span⟩
  return code ++ .plain [c.exit]

/-- The object code of a routine. -/
def Routine.assemble (node : Node) (settings : Settings) (moduleSize : Nat) (r : Routine) :
    Result ObjectCode := do
  let code ← r.code (r.coder node settings moduleSize)
  let code ← Code.resolveGotos (fun name => Code.labelAddress? name 0 code) 0 code
  let items := Code.addressed 0 code
  return ⟨r.kind.entry, r.span, Code.words code, items.filterMap Item.callSite?,
    items.filterMap Item.statement?⟩

/-- The object code of a program's routines. -/
def Program.assemble (node : Node) (settings : Settings) (p : Program) : Result (List ObjectCode) :=
  p.routines.mapM (Routine.assemble node settings p.moduleSize)

end RobotScript
