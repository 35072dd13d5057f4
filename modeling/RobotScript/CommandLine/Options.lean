/-
# Arguments of the command line

An option is given as `--name value` or `--name=value`, the output file also as
`-o value` or `-ovalue`. All but `--event` are given at most once. An argument
that starts with a dash is no value, but starts an option of its own: the
option before it then has no value, which is an error for the two files and
the events, and leaves any other option at its default. Behind `--` an argument
is a file name whatever it looks like.

Key definitions: `Options`, `Options.ofArgs?`.
-/
import RobotScript.Settings

namespace RobotScript.CommandLine

/-- What is written for a compiled script. -/
inductive Format where
  | words
  | hex
  | json
  | listing
  deriving DecidableEq, Repr, Inhabited

def Format.ofName? : String → Option Format
  | "words" => some words
  | "hex" => some hex
  | "json" => some json
  | "listing" => some listing
  | _ => none

structure Options where
  /-- The script. -/
  file : String
  output : Option String
  /-- The language; none to find it out from the script. -/
  language : Option Language
  factor : Cell
  /-- The file that describes the node. -/
  nodeFile : Option String
  events : List UserEvent
  format : Format
  /-- Whether to run the init code. -/
  run : Bool
  maxSteps : Nat
  deriving Repr, Inhabited

/-- An option with a value. -/
inductive Key where
  | output
  | language
  | factor
  | nodeDescription
  | event
  | format
  | maxSteps
  deriving DecidableEq, Repr

namespace Key

def ofName? : String → Option Key
  | "output" => some output
  | "language" => some language
  | "factor" => some factor
  | "node-description" => some nodeDescription
  | "event" => some event
  | "format" => some format
  | "max-steps" => some maxSteps
  | _ => none

/-- Whether the option can be given more than once. -/
def repeats : Key → Bool
  | event => true
  | _ => false

end Key

/-- The arguments seen so far. -/
structure Scan where
  file : Option String
  run : Bool
  /-- The options met, with or without a value. -/
  met : List Key
  /-- The values of options, in order. -/
  values : List (Key × String)
  /-- The option whose value comes next. -/
  waiting : Option Key
  /-- Whether only file names follow. -/
  filesOnly : Bool
  deriving Repr, Inhabited

namespace Scan

def start : Scan := ⟨none, false, [], [], none, false⟩

/-- A file name; there is only one. -/
def fileName (s : Scan) (arg : String) : Option Scan :=
  if s.file.isSome then none else some { s with file := some arg }

/-- An option, with a value that may start with equal signs if it is given at
once. -/
def option (s : Scan) (key : Key) (value : Option (List Char)) : Option Scan :=
  if s.met.contains key && !key.repeats then none
  else
    let s := { s with met := key :: s.met, waiting := none }
    match value with
    | some cs => some { s with values := s.values ++ [(key, String.ofList (cs.dropWhile (· == '=')))] }
    | none => some { s with waiting := some key }

/-- An argument that starts with two dashes; more of them are no matter. -/
def long (s : Scan) (cs : List Char) : Option Scan :=
  let body := cs.dropWhile (· == '-')
  let name := String.ofList (body.takeWhile (· != '='))
  match Key.ofName? name with
  | some key => s.option key (body.dropWhile (· != '=')).tail?
  | none => if name = "run" && !s.run then some { s with run := true, waiting := none } else none

/-- An argument that starts with a dash. -/
def short (s : Scan) : List Char → Option Scan
  | 'o' :: [] => s.option .output none
  | 'o' :: cs => s.option .output (some cs)
  | _ => none

/-- One more argument. -/
def arg (s : Scan) (arg : String) : Option Scan :=
  if s.filesOnly then s.fileName arg
  else match arg.toList with
    | ['-', '-'] => some { s with filesOnly := true }
    | '-' :: '-' :: _ => s.long arg.toList
    | '-' :: c :: cs => s.short (c :: cs)
    | _ =>
      match s.waiting with
      | some key => some { s with values := s.values ++ [(key, arg)], waiting := none }
      | none => s.fileName arg

/-- The values of an option. -/
def valuesOf (s : Scan) (key : Key) : List String :=
  (s.values.filter (·.1 == key)).map (·.2)

/-- The values of an option without a default, which must have one if it is met. -/
def named (s : Scan) (key : Key) : Option (List String) :=
  let values := s.valuesOf key
  if values.isEmpty && s.met.contains key then none else some values

/-- The value of an option, read; its default if it has no value. -/
def read {α : Type} (s : Scan) (key : Key) (default : α) (value? : String → Option α) : Option α :=
  match s.valuesOf key with
  | text :: _ => value? text
  | [] => some default

end Scan

/-- A language, or that it is to be found out. -/
def language? (text : String) : Option (Option Language) :=
  if text.map Char.toLower = "auto" then some none else (Language.ofName? text).map some

/-- A factor, which fits a cell. -/
def factor? (text : String) : Option Cell :=
  (Text.integer? text.toList).bind fun n =>
    if -0x8000 ≤ n ∧ n < 0x8000 then some (Int16.ofInt n) else none

def event? (text : String) : Option UserEvent := (UserEvent.ofText text).toOption

/-- The options that arguments give. -/
def Options.ofArgs? (args : List String) : Option Options := do
  let s ← args.foldlM Scan.arg .start
  return {
    file := ← s.file
    output := (← s.named .output).head?
    language := ← s.read .language none language?
    factor := ← s.read .factor Settings.defaultFactor factor?
    nodeFile := (← s.named .nodeDescription).head?
    events := ← (← s.named .event).mapM event?
    format := ← s.read .format .words Format.ofName?
    run := s.run
    maxSteps := ← s.read .maxSteps 100000 fun text => UserEvent.size? text.toList }

end RobotScript.CommandLine
