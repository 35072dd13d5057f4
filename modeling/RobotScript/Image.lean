/-
# Images

An image is a table of the event handlers and the code of all routines behind
it. Its first word is the length of the table, then come the id and the
address of each handler. Linking gives each routine its address and fills in
the calls between them.

Key definitions: `Image`, `Image.link`.
-/
import RobotScript.Code.Object

namespace RobotScript

structure Image where
  words : List Word
  /-- The places of statements and the addresses of their code. -/
  map : List (Span × Word)
  deriving DecidableEq, Repr, Inhabited

namespace Image

/-- The most words an image can have: a call reaches no further. -/
def maxSize : Nat := 0x1000

/-- The routines placed so far. -/
structure Placing where
  /-- The address of the next routine. -/
  next : Nat
  /-- The routines that can be called, and their addresses. -/
  callable : List (String × Nat)
  /-- The handlers by event id, in order, and their addresses. -/
  handlers : List (Word × Nat)
  deriving DecidableEq, Repr, Inhabited

/-- Whether a routine has an entry in the table. -/
def isHandler (u : ObjectCode) : Bool :=
  match u.entry with
  | .call _ => false
  | _ => true

/-- The length of the table. -/
def headerSize (units : List ObjectCode) : Nat := 1 + 2 * units.countP isHandler

namespace Placing

/-- Enter a handler with its id. -/
def handler (p : Placing) (next : Nat) (id : Word) (name : String) (span : Span) : Result Placing :=
  if (p.handlers.lookup id).isSome then semantic (.duplicateDefinition name) span
  else return ⟨next, p.callable, p.handlers ++ [(id, p.next)]⟩

/-- Give the next routine its address. -/
def unit (node : Node) (p : Placing) (u : ObjectCode) : Result Placing :=
  let next := p.next + u.words.length
  if maxSize < next then semantic .codeTooLarge u.span
  else match u.entry with
    | .init => p.handler next Node.initEventId "init" u.span
    | .event name =>
      match node.localEventId? name with
      | none => semantic (.unknownEvent name) u.span
      | some id => p.handler next id name u.span
    | .call name =>
      if (p.callable.lookup name).isSome then semantic (.duplicateDefinition name) u.span
      else return ⟨next, p.callable ++ [(name, p.next)], p.handlers⟩

end Placing

/-- The words of a routine with its calls filled in. -/
def resolveCalls (callable : List (String × Nat)) : List CallSite → List Word → Result (List Word)
  | [], words => return words
  | site :: sites, words =>
    match callable.lookup site.name with
    | none => semantic (.unknownFunction site.name) site.span
    | some addr =>
      resolveCalls callable sites (words.set site.addr (Machine.Opcode.subCall.word addr))

/-- The code of routines from an address on, with the addresses of statements. -/
def layOut (callable : List (String × Nat)) : Nat → List ObjectCode → Result Image
  | _, [] => return ⟨[], []⟩
  | base, u :: us => do
    let words ← resolveCalls callable u.calls u.words
    let map := u.map.map fun m => (m.1, UInt16.ofNat (base + m.2))
    let rest ← layOut callable (base + u.words.length) us
    return ⟨words ++ rest.words, map ++ rest.map⟩

/-- The table of the handlers. -/
def header (size : Nat) (handlers : List (Word × Nat)) : List Word :=
  UInt16.ofNat size :: handlers.flatMap fun h => [h.1, UInt16.ofNat h.2]

/-- The image of the routines of a program. -/
def link (node : Node) (units : List ObjectCode) : Result Image := do
  let size := headerSize units
  let placed ← units.foldlM (Placing.unit node) ⟨size, [], []⟩
  let code ← layOut placed.callable size units
  return ⟨header size placed.handlers ++ code.words, code.map⟩

end Image
end RobotScript
