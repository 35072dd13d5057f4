/-
# Running the command line

The script is read and compiled, the result is written in the format asked
for, and the init code is run if that is asked for too. Files are reached
through `Files`, so that what happens does not depend on where they are.

Key definitions: `execute`, `Failure.message`.
-/
import RobotScript.CommandLine.Options
import RobotScript.Compile
import RobotScript.Machine.Listing
import RobotScript.Machine.Run
import RobotScript.Node.Json
import RobotScript.Node.Thymio

namespace RobotScript.CommandLine

/-- Access to files by name; a failure gives its reason. -/
structure Files (m : Type → Type) where
  read : String → m (Except String String)
  write : String → String → m (Except String Unit)

/-- Why a command did not come to its end. -/
inductive Failure where
  | usage
  | cannotRead (file reason : String)
  | cannotCreate (file reason : String)
  | node (fault : NodeFault)
  | compile (error : CompileError)
  | image (fault : Machine.ImageFault)
  | run (fault : Machine.RunFault)
  deriving Repr

/-- The parts of a compile error from the outside in: all of it, its cause, and
what the cause of a later stage wraps. -/
def compileMessage (e : CompileError) : String :=
  let inner := match e.cause with
    | .semantic fault => ": " ++ fault.message
    | .internal fault => ": " ++ fault.message
    | .lexical _ | .syntactic _ => ""
  e.render ++ ": " ++ e.cause.message ++ inner

def Failure.message : Failure → String
  | usage => "usage: FILE [-o FILE] [--language NAME] [--factor N] [--node-description FILE] " ++
      "[--event NAME[:SIZE]]... [--format words|hex|json|listing] [--run] [--max-steps N]"
  | cannotRead file reason => "cannot read " ++ file ++ ": " ++ reason
  | cannotCreate file reason => "cannot create " ++ file ++ ": " ++ reason
  | node fault => fault.message
  | compile error => compileMessage error
  | image fault => fault.message
  | run fault => fault.message

/-- What a command writes, and why it failed if it did. -/
structure Outcome where
  output : String
  failure : Option Failure
  deriving Repr

/-- Words in groups of eight. -/
def groupsOfEight (words : List String) : List (List String) :=
  match words with
  | [] => []
  | w :: ws => ((w :: ws).take 8) :: groupsOfEight ((w :: ws).drop 8)
termination_by words.length
decreasing_by simp only [List.length_drop, List.length_cons]; omega

/-- The image and the source map of a compiled script. -/
def compiledJson (c : Compiled) : Json :=
  .record
    [("image", .array (c.image.map fun w => .int w.toNat)),
     ("source_map", .array (c.sourceMap.map fun e =>
        .record [("offset", .int e.offset), ("line", .int e.line), ("col", .int e.col),
          ("addr", .int e.addr.toNat)]))]

/-- The text of a compiled script. -/
def render (format : Format) (c : Compiled) : Except Failure String :=
  match format with
  | .words => .ok ("\n".intercalate (c.image.map fun w => toString w.toNat))
  | .hex =>
    let lines := groupsOfEight (c.image.map fun w => Text.hex4 w.toNat)
    .ok ("\n".intercalate (lines.map (" ".intercalate ·)))
  | .json => .ok (compiledJson c).pretty
  | .listing => (Machine.listing c.image).mapError .image

/-- An event that was sent, with its name if that is known. -/
def emissionLine (events : List UserEvent) (e : Machine.Emission) : String :=
  let name := (events[e.id.toNat]?.map (·.name)).getD "?"
  let data := ", ".intercalate (e.data.map fun n => toString n.toInt)
  "emit " ++ name ++ " [" ++ data ++ "]\n"

/-- The words of the variable memory that are not zero, between the predefined
variables and the reserved words. -/
def memoryLine (node : Node) (s : Machine.State) : String :=
  let used := (List.range node.returnSlot).drop node.variablesSize
  let words := used.filterMap fun addr =>
    if s.word addr = 0 then none else some s!"[{addr}] = {(s.word addr).toInt}"
  "memory after init: " ++ ", ".intercalate words ++ "\n"

/-- What running the init code of an image shows. -/
def runReport (node : Node) (options : Options) (image : List Word) : Except Failure String :=
  match (Machine.runInit node options.maxSteps).run (.start node image) with
  | .error fault _ => .error (.run fault)
  | .ok _ s => .ok (String.join (s.emitted.toList.map (emissionLine options.events)) ++ memoryLine node s)

variable {m : Type → Type} [Monad m]

/-- Read a file that must be there. -/
def readFile (files : Files m) (file : String) : ExceptT Failure m String := do
  match ← files.read file with
  | .ok text => return text
  | .error reason => throw (.cannotRead file reason)

/-- The node that the options ask for. -/
def readNode (files : Files m) (options : Options) : ExceptT Failure m Node := do
  match options.nodeFile with
  | none => return Node.thymio
  | some file =>
    match Node.ofJsonText (← readFile files file) with
    | .ok node => return node
    | .error fault => throw (.node fault)

/-- Compile the script; the result is the node, the image and the text. -/
def build (files : Files m) (options : Options) : ExceptT Failure m (Node × List Word × String) := do
  let text ← readFile files options.file
  let node ← readNode files options
  let settings : Settings :=
    ⟨options.language.getD (.detect text), options.factor, options.events⟩
  match compile node settings ⟨text, some options.file⟩ with
  | .error e => throw (.compile e)
  | .ok compiled =>
    match render options.format compiled with
    | .error failure => throw failure
    | .ok shown => return (node, compiled.image, shown ++ "\n")

/-- Write the text to the output file, or keep it to be shown. -/
def deliver (files : Files m) (options : Options) (text : String) : ExceptT Failure m String := do
  match options.output with
  | none => return text
  | some file =>
    match ← files.write file text with
    | .ok () => return ""
    | .error reason => throw (.cannotCreate file reason)

/-- Execute the command with the given arguments. -/
def execute (files : Files m) (args : List String) : m Outcome := do
  match Options.ofArgs? args with
  | none => return ⟨"", some .usage⟩
  | some options =>
    let built ← (do
      let (node, image, text) ← build files options
      return (node, image, ← deliver files options text) : ExceptT Failure m _).run
    match built with
    | .error failure => return ⟨"", some failure⟩
    | .ok (node, image, shown) =>
      if options.run then
        match runReport node options image with
        | .ok report => return ⟨shown ++ report, none⟩
        | .error failure => return ⟨shown, some failure⟩
      else return ⟨shown, none⟩

end RobotScript.CommandLine
