/-
# Node descriptions as JSON

A description is an object with the fields of `Node`, of which the events and
the functions may be missing; other fields are ignored. The fields of any of
its objects can also be given without names, as an array in their order.

Key definitions: `Node.ofJsonText`, `Node.toJson`.
-/
import RobotScript.Json.Reader
import RobotScript.Node.Basic
import RobotScript.Text.Number

namespace RobotScript

/-- Why a text describes no node. -/
inductive NodeFault where
  | json
  /-- The variables leave no room for the two reserved words. -/
  | tooManyVariables (name : String) (used max : Nat)
  deriving DecidableEq, Repr, Inhabited

def NodeFault.message : NodeFault → String
  | json => "invalid node description"
  | tooManyVariables name used max =>
    s!"node description \"{name}\" declares {used} words of variables but only has {max}"

namespace Json

/-- The only value of a field, if it has one; it may not have two. -/
def soleField? (fields : List (Option String × Json)) (name : String) : Option (Option Json) :=
  match fields.filter fun f => f.1 == some name with
  | [] => some none
  | [f] => some (some f.2)
  | _ => none

/-- The values of the known fields of an object in their order; an array lists
them itself. -/
def fields? (names : List String) : Json → Option (List (Option Json))
  | .object fields =>
    if fields.all (·.1.isSome) then names.mapM (soleField? fields) else none
  | .array items =>
    if items.length ≤ names.length then
      some (items.map some ++ List.replicate (names.length - items.length) none)
    else none
  | _ => none

def text? : Json → Option String
  | .string text => text
  | _ => none

/-- The value of a number written without a fraction and an exponent; a zero
with a sign counts as a fraction. -/
def int? : Json → Option Int
  | .number text =>
    if text = "-0" then none else Text.integer? text.toList
  | _ => none

/-- A size, of 64 bits. -/
def size? (v : Json) : Option Nat :=
  v.int?.bind fun n => if 0 ≤ n ∧ n < 0x10000000000000000 then some n.toNat else none

/-- A size code, of 32 bits. -/
def sizeCode? (v : Json) : Option Int32 :=
  v.int?.bind fun n => if -0x80000000 ≤ n ∧ n < 0x80000000 then some (.ofInt n) else none

/-- The items of an array, each read. -/
def list? {α : Type} (item : Json → Option α) : Json → Option (List α)
  | .array items => items.mapM item
  | _ => none

/-- The items of an array that may be missing. -/
def listOrNone? {α : Type} (item : Json → Option α) : Option Json → Option (List α)
  | none => some []
  | some v => v.list? item

end Json

namespace Node

def variableOfJson? (v : Json) : Option NodeVariable := do
  match ← v.fields? ["name", "size"] with
  | [some name, some size] => return ⟨← name.text?, ← size.size?⟩
  | _ => none

def eventOfJson? (v : Json) : Option String := do
  match ← v.fields? ["name"] with
  | [some name] => name.text?
  | _ => none

def nativeOfJson? (v : Json) : Option NativeFunction := do
  match ← v.fields? ["name", "args"] with
  | [some name, some args] => return ⟨← name.text?, ← args.list? Json.sizeCode?⟩
  | _ => none

/-- The node that a value describes. -/
def ofJson? (v : Json) : Option Node := do
  match ← v.fields? ["name", "maxVarSize", "variables", "localEvents", "nativeFunctions"] with
  | [some name, some size, some predefined, events, natives] =>
    return ⟨← name.text?, ← size.size?, ← predefined.list? variableOfJson?,
      ← Json.listOrNone? eventOfJson? events, ← Json.listOrNone? nativeOfJson? natives⟩
  | _ => none

/-- The node, if its variables leave room for the reserved words. -/
def checked (node : Node) : Except NodeFault Node :=
  if node.maxVarSize < counted (node.variablesSize + 2) then
    .error (.tooManyVariables node.name node.variablesSize node.maxVarSize)
  else .ok node

/-- The node that a JSON value describes. -/
def ofJson (v : Json) : Except NodeFault Node :=
  match ofJson? v with
  | some node => node.checked
  | none => .error .json

/-- The node that a text describes. -/
def ofJsonText (text : String) : Except NodeFault Node :=
  match Json.read? text with
  | some v => ofJson v
  | none => .error .json

/-- The description of a node. -/
def toJson (node : Node) : Json :=
  .record
    [("name", .text node.name),
     ("maxVarSize", .int node.maxVarSize),
     ("variables", .array (node.predefined.map fun v =>
        .record [("name", .text v.name), ("size", .int v.size)])),
     ("localEvents", .array (node.localEvents.map fun e => .record [("name", .text e)])),
     ("nativeFunctions", .array (node.nativeFunctions.map fun f =>
        .record [("name", .text f.name), ("args", .array (f.args.map fun code => .int code.toInt))]))]

end Node
end RobotScript
