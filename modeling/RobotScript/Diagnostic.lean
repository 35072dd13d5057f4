/-
# Diagnostics

A diagnostic is a cause with the place it belongs to. The place is a span at
first; `resolve` looks it up in the source and keeps the line it stands on.
Contexts say what was being done, innermost first. `render` shows all of it.

Key definitions: `Diagnostic`, `Diagnostic.render`.
-/
import RobotScript.Text.Span
import RobotScript.Text.Layout

namespace RobotScript

/-- A line of the source and a position on it. -/
structure Snippet where
  position : Position
  line : String
  deriving DecidableEq, Repr, Inhabited

structure Diagnostic (κ : Type) where
  cause : κ
  span : Option Span
  file : Option String
  snippet : Option Snippet
  /-- What was being done, innermost first. -/
  contexts : List String
  deriving DecidableEq, Repr, Inhabited

namespace Diagnostic

variable {κ ι : Type}

/-- A cause at an unknown place. -/
def ofCause (cause : κ) : Diagnostic κ := ⟨cause, none, none, none, []⟩

def mapCause (f : κ → ι) (d : Diagnostic κ) : Diagnostic ι :=
  ⟨f d.cause, d.span, d.file, d.snippet, d.contexts⟩

/-- Place the diagnostic, unless it has a place already. -/
def placedAt (d : Diagnostic κ) (span : Span) : Diagnostic κ :=
  { d with span := some (d.span.getD span) }

/-- The line and position of a span; none past the end of the source. -/
def snippetOf (source : Source) (span : Span) : Option Snippet :=
  if source.size < span.offset then none
  else
    let position := source.position span.offset
    some ⟨position, source.lineText position.line⟩

/-- Place the diagnostic at a span of a source, whatever place it had. -/
def withSource (d : Diagnostic κ) (span : Span) (source : Source) : Diagnostic κ :=
  { d with span := some span, file := source.file, snippet := snippetOf source span }

/-- Place the diagnostic at a span of a source, unless its line is known. -/
def withBackupSource (d : Diagnostic κ) (span : Span) (source : Source) : Diagnostic κ :=
  if d.snippet.isSome then d else d.withSource span source

/-- Look up the place in the source, unless the line is known. -/
def resolve (d : Diagnostic κ) (source : Source) : Diagnostic κ :=
  match d.span, d.snippet with
  | some span, none => d.withSource span source
  | _, _ => d

def addContext (d : Diagnostic κ) (context : String) : Diagnostic κ :=
  { d with contexts := d.contexts ++ [context] }

/-- The position, once the line is known. -/
def position? (d : Diagnostic κ) : Option Position := d.snippet.map (·.position)

/-- The text of a diagnostic: the cause and the contexts, with the line and a
mark under its column once they are known. -/
def render (message : κ → String) (d : Diagnostic κ) : String :=
  let contexts := String.join (d.contexts.map ("\nwhile " ++ ·))
  match d.snippet with
  | none => message d.cause ++ contexts
  | some snippet =>
    let line := toString (snippet.position.line + 1)
    let col := toString (snippet.position.col + 1)
    let file := d.file.getD "<unknown source>"
    let mark := Text.alignRight (snippet.position.col + 1) ' ' "^"
    message d.cause ++ s!" line {line} col {col}\n   --> {file}:{line}:{col}\n    |\n" ++
      Text.alignRight 3 ' ' line ++ " | " ++ snippet.line ++ "\n    | " ++ mark ++ contexts

end Diagnostic
end RobotScript
