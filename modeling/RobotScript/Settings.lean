/-
# Settings of a compilation

What the compiler is told beside the script and the node: the language, the
factor that scales fixed-point values and the user events a script may send
to the host. A user event is declared in the text form `name` or `name:size`.

Key definitions: `Settings`, `UserEvent.ofText`.
-/
import RobotScript.Language.Basic
import RobotScript.Machine.Instruction
import RobotScript.Text.Blank
import RobotScript.Text.Number

namespace RobotScript

/-- An event that a script can send to the host. -/
structure UserEvent where
  name : String
  /-- The number of data words it carries. -/
  size : Nat
  deriving DecidableEq, Repr, Inhabited

/-- Why a text declares no user event. -/
inductive EventFault where
  | missingName
  | badSize (text : String)
  deriving DecidableEq, Repr, Inhabited

def EventFault.message : EventFault → String
  | missingName => "missing event name"
  | badSize text => "invalid event size " ++ Text.quoteString text

namespace UserEvent

/-- A size: a number below `2 ^ 64`. -/
def size? (cs : List Char) : Option Nat := (Text.natural? cs).filter (· < 0x10000000000000000)

/-- The event a text declares; a size that cannot be read is reported before a
missing name. -/
def ofText (text : String) : Except EventFault UserEvent := do
  let cs := text.toList
  let name := Text.trimBlanks (cs.takeWhile (· != ':'))
  let size ← match cs.dropWhile (· != ':') with
    | [] => pure 0
    | _ :: rest => match size? (Text.trimBlanks rest) with
      | some n => pure n
      | none => throw (.badSize (String.ofList rest))
  if name.isEmpty then throw .missingName
  return ⟨String.ofList name, size⟩

end UserEvent

structure Settings where
  language : Language
  /-- A fixed-point value is kept as a number this many times larger. -/
  factor : Cell
  userEvents : List UserEvent
  deriving DecidableEq, Repr, Inhabited

namespace Settings

/-- The factor unless another one is asked for. -/
def defaultFactor : Cell := 100

/-- The word that stands for a fixed-point value. A half is rounded up. -/
def scaled (settings : Settings) (f : Float) : Cell :=
  toCell (f * Float.ofInt settings.factor.toInt + 0.5).floor.toInt32

/-- The first event declared with a given name, and its id. -/
def userEvent? (settings : Settings) (name : String) : Option (Word × UserEvent) :=
  (settings.userEvents.zipIdx.find? fun e => e.1.name == name).map fun e =>
    (UInt16.ofNat e.2, e.1)

end Settings
end RobotScript
