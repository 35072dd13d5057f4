/-
# Reading tokens

What is read from the front of a list of tokens is a value together with the
tokens left, and `Parsed` bounds how many those are: reading never gives
tokens back, so a grammar that reads a token before it repeats itself comes
to an end. `Reader` is reading that may take nothing, one step after another.

Key definitions: `Parsed`, `Reading`, `Reader`.
-/
import RobotScript.Fault
import RobotScript.Settings
import RobotScript.Text.Taken

namespace RobotScript

/-- Why tokens cannot be read. -/
abbrev SyntaxError := Diagnostic SyntaxFault

/-- Fail at a place. -/
def refuse {α : Type} (fault : SyntaxFault) (span : Span) : Except SyntaxError α :=
  .error ((Diagnostic.ofCause fault).placedAt span)

/-- The result, with what was being done added to a failure. -/
def whileDoing {α : Type} (context : String) (result : Except SyntaxError α) :
    Except SyntaxError α :=
  result.mapError (·.addContext context)

/-- A value that was read, and fewer than `bound` tokens that are left. -/
abbrev Parsed (α : Type) (bound : Nat) : Type := Taken Token α bound

/-- What reading depends on beside the tokens. -/
structure Reading where
  settings : Settings
  /-- The length of the source in bytes, where its end is reported. -/
  endOffset : Nat
  deriving Repr

namespace Reading

def language (r : Reading) : Language := r.settings.language

/-- Where the end of the source is reported. -/
def endSpan (r : Reading) : Span := ⟨r.endOffset, 0⟩

/-- The place of the next token. -/
def nextSpan (r : Reading) : List Token → Span
  | [] => r.endSpan
  | t :: _ => t.span

/-- Read a keyword that must come. -/
def keyword (r : Reading) (text : String) :
    (toks : List Token) → Except SyntaxError (Parsed Span toks.length)
  | [] => refuse (.unexpectedEnd (some (.token (.keyword text)))) r.endSpan
  | t :: ts =>
    if t.isKeyword text then .ok (.head t.span t ts)
    else refuse (.expected (.token (.keyword text)) t.kind) t.span

/-- Read a name that must come. -/
def name (r : Reading) : (toks : List Token) → Except SyntaxError (Parsed (String × Span) toks.length)
  | [] => refuse (.unexpectedEnd (some (.token .name))) r.endSpan
  | t :: ts =>
    if t.isName then .ok (.head (t.text, t.span) t ts)
    else refuse (.expected (.token .name) t.kind) t.span

/-- Read a token that must come, whatever it is. -/
def token (r : Reading) (wanted : Wanted) :
    (toks : List Token) → Except SyntaxError (Parsed Token toks.length)
  | [] => refuse (.unexpectedEnd (some wanted)) r.endSpan
  | t :: ts => .ok (.head t t ts)

end Reading

/-- Whether a keyword comes next. -/
def startsWith (text : String) : List Token → Bool
  | [] => false
  | t :: _ => t.isKeyword text

/-- Reading that takes some of the tokens, or none. -/
def Reader (α : Type) : Type := (toks : List Token) → Except SyntaxError (Parsed α (toks.length + 1))

namespace Reader

variable {α β : Type}

/-- Take nothing. -/
def done (a : α) : Reader α := fun toks => .ok (.nothing a toks)

/-- Read one thing, then another. -/
def andThen (x : Reader α) (f : α → Reader β) : Reader β := fun toks =>
  match x toks with
  | .error e => .error e
  | .ok p =>
    match f p.value p.rest with
    | .error e => .error e
    | .ok q => .ok (p.andMaybe q)

instance : Monad Reader where
  pure := done
  bind := andThen

/-- Read something that takes a token. -/
def take (x : (toks : List Token) → Except SyntaxError (Parsed α toks.length)) : Reader α :=
  fun toks =>
    match x toks with
    | .error e => .error e
    | .ok p => .ok p.loosen

/-- Fail at a place. -/
def refuseAt (fault : SyntaxFault) (span : Span) : Reader α := fun _ => refuse fault span

/-- The tokens that are left. -/
def ahead : Reader (List Token) := fun toks => .ok (.nothing toks toks)

/-- Whether a keyword comes next. -/
def sees (text : String) : Reader Bool := do return startsWith text (← ahead)

/-- Read a keyword if it comes next. -/
def accept (text : String) : Reader Bool
  | [] => .ok (.nothing false [])
  | t :: ts =>
    if t.isKeyword text then .ok (Taken.head true t ts).loosen
    else .ok (.nothing false (t :: ts))

/-- Read with what is being done added to a failure. -/
def during (context : String) (x : Reader α) : Reader α := fun toks => whileDoing context (x toks)

end Reader
end RobotScript
