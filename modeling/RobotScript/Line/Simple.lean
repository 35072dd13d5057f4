/-
# Lines of the simple language

A line starts with its keyword and ends where nothing more belongs to it. A
line without a keyword of its own is an expression. Whether `emit` takes a
value is known from the declaration of the event alone.

Key definitions: `Simple.line`.
-/
import RobotScript.Line.Basic
import RobotScript.Expr.Parser

namespace RobotScript.Simple

/-- Read a whole expression. -/
def value (r : Reading) : Reader Expr := .take (expression r Priority.statement)

/-- Read a keyword that must come. -/
def keyword (r : Reading) (text : String) : Reader Span := .take (r.keyword text)

/-- Read a name that must come. -/
def name (r : Reading) : Reader String := do return (← Reader.take r.name).1

/-- Read a value behind a keyword, if that comes. -/
def valueAfter (r : Reading) (text : String) : Reader (Option Expr) := do
  if ← Reader.accept text then return some (← value r) else return none

/-- Read the size of an array behind its opening bracket; it is left open if
an initial value follows. -/
def arraySize (r : Reading) : Reader (Option Expr) := do
  let close := r.nextSpan (← Reader.ahead)
  if ← Reader.accept "]" then
    if ← Reader.sees "=" then return none else Reader.refuseAt .sizelessArray close
  else
    let size ← value r
    discard <| keyword r "]"
    return some size

/-- Read the declaration of a variable behind its keyword. -/
def varDecl (r : Reading) : Reader VarDecl := do
  let name ← name r
  let dims ← if ← Reader.accept "[" then pure [← arraySize r] else pure []
  let init ← valueAfter r "="
  return ⟨name, .int, dims, init, none⟩

/-- Read the head of a loop over a range behind its keyword. -/
def rangeFor (r : Reading) : Reader Opener := do
  let (name, span) ← Reader.take r.name
  discard <| keyword r "in"
  let first ← value r
  discard <| keyword r ":"
  let last ← value r
  let step ← valueAfter r "step"
  discard <| keyword r "do"
  return .rangeFor (.var (.bare span) ⟨name, none⟩) first last step

/-- Read a condition and the keyword that ends it. -/
def condition (r : Reading) (close : String) : Reader Expr := do
  let cond ← value r
  discard <| keyword r close
  return cond

/-- Read the arguments of a call in parentheses, if there are any. -/
def callArguments (r : Reading) : Reader (List Expr) := do
  if ← Reader.accept "(" then Reader.take (arguments r ")") else return []

/-- How a line goes on behind its keyword; none for a keyword that starts no
line of its own. -/
def lineAfter? (r : Reading) (span : Span) : String → Option (Reader Line)
  | "const" => some do
    let name ← name r
    discard <| keyword r "="
    return .plain (.constDecl span name (← value r))
  | "var" => some do
    return .plain (.varDecl span (← Reader.during "parsing variable declaration" (varDecl r)))
  | "if" => some do return .opening (.branch (← condition r "then")) span
  | "elseif" => some do return .elseIf (← condition r "then") span
  | "when" => some do return .opening (.whenever (← condition r "do")) span
  | "while" => some do return .opening (.whileLoop (← condition r "do")) span
  | "for" => some do return .opening (← Reader.during "parsing for loop" (rangeFor r)) span
  | "else" => some (pure (.otherwise span))
  | "end" => some (pure (.closing span))
  | "call" => some do
    let name ← name r
    return .plain (.native span name (← callArguments r))
  | "callsub" => some do return .plain (.callSub span (← name r))
  | "emit" => some do
    let event ← name r
    if (r.settings.userEvent? event).any (0 < ·.2.size) then
      return .plain (.emit span event (some (← value r)))
    else return .plain (.emit span event none)
  | "onevent" => some do return .header (.onEvent (← name r)) span
  | "sub" => some do return .header (.sub (← name r)) span
  | "return" => some (pure (.plain (.ret span none)))
  | _ => none

/-- Read a line. -/
def line (r : Reading) (toks : List Token) : Except SyntaxError (Parsed (List Line) toks.length) :=
  match toks with
  | [] => refuse (.unexpectedEnd none) r.endSpan
  | t :: ts =>
    let read := match t.kind with
      | .keyword text => lineAfter? r t.span text
      | _ => none
    match read with
    | some reader => return (← reader ts).map ([·])
    | none => return (← expression r Priority.statement (t :: ts)).map fun e => [.plain (.expr t.span e)]

end RobotScript.Simple
