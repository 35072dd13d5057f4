/-
# Pairing blocks

Lines are paired up by a stack of open blocks. A line goes into the innermost
block; a closing line turns that block into a statement of the one around it.
The block at the bottom is the routine being read. In one language a header
line ends it and starts the next; in the other handlers and functions are
blocks that stand in the init code and are taken out of it.

Key definitions: `Blocks.line`, `Routine.ofLines`.
-/
import RobotScript.Line.Basic
import RobotScript.Routine.Basic

namespace RobotScript

/-- The chain of the arms in a list, with an `else` block perhaps. -/
def Arms.ofList : List (Span × Expr × List Stmt) → Option (List Stmt) → Arms
  | [], none => .done
  | [], some body => .otherwise body
  | (span, cond, body) :: arms, final => .arm span cond body (ofList arms final)

/-- What an open block is. -/
inductive Block.Kind where
  | routine (kind : Routine.Kind)
  /-- The arms of an `if` that are complete, and the condition of the current
  one; there is none in the `else` part. -/
  | branch (arms : List (Span × Expr × List Stmt)) (current : Option (Expr × Span))
  | whenever (cond : Expr)
  | whileLoop (cond : Expr)
  | doLoop
  | rangeFor (var first last : Expr) (step : Option Expr)
  | forLoop (init : List Stmt) (cond step : Option Expr)
  | switch (subject : Expr)
  | block
  deriving Repr, Inhabited

/-- A block that is not closed yet. -/
structure Block where
  kind : Block.Kind
  span : Span
  label : Option String
  /-- The statements so far. -/
  body : List Stmt
  deriving Repr, Inhabited

namespace Block

/-- The block as a message names it. -/
def Kind.describe : Kind → String
  | routine (.function _ _) => "function definition"
  | routine (.sub _) => "sub"
  | routine _ => "onevent"
  | branch _ _ => "if"
  | whenever _ => "when"
  | whileLoop _ => "while"
  | doLoop => "do"
  | rangeFor _ _ _ _ | forLoop _ _ _ => "for"
  | switch _ => "switch"
  | block => "block"

/-- Whether a label just before the block names it. -/
def Kind.takesLabel : Kind → Bool
  | whileLoop _ | doLoop | rangeFor _ _ _ _ | forLoop _ _ _ | switch _ => true
  | _ => false

/-- The block that an opener starts. -/
def Kind.ofOpener (opener : Opener) (span : Span) : Kind :=
  match opener with
  | .branch cond => branch [] (some (cond, span))
  | .whenever cond => whenever cond
  | .whileLoop cond => whileLoop cond
  | .doLoop => doLoop
  | .rangeFor var first last step => rangeFor var first last step
  | .forLoop init cond step => forLoop init cond step
  | .switch subject => switch subject
  | .block => block
  | .onEvent name => routine (.onEvent name)
  | .function decl => routine (.function decl none)

/-- Fail for the structure of the blocks. -/
def refuse {α : Type} (fault : SyntaxFault) (span : Span) : Result α :=
  .error ((Diagnostic.ofCause (.syntactic fault)).placedAt span)

/-- The `if` with its current arm complete and another one begun. -/
def nextArm (b : Block) (what : String) (current : Option (Expr × Span)) (span : Span) :
    Result Block :=
  match b.kind with
  | .branch arms (some (cond, armSpan)) =>
    return { b with kind := .branch (arms ++ [(armSpan, cond, b.body)]) current, body := [] }
  | _ => refuse (.unexpected what) span

/-- The routine that a closed block is, or the statement. -/
def close (b : Block) (cond : Option Expr) (span : Span) : Result (Routine ⊕ Stmt) :=
  match b.kind, cond with
  | .doLoop, some cond => return .inr (.doWhile b.span b.label b.body cond)
  | .doLoop, none => refuse .missingWhile span
  | _, some _ => refuse (.unexpected "\"while\"") span
  | .routine kind, none => return .inl ⟨kind, b.span, b.body, 0⟩
  | .branch arms (some (cond, armSpan)), none =>
    return .inr (.branch b.span (.ofList (arms ++ [(armSpan, cond, b.body)]) none))
  | .branch arms none, none => return .inr (.branch b.span (.ofList arms (some b.body)))
  | .whenever cond, none => return .inr (.whenever b.span cond b.body)
  | .whileLoop cond, none => return .inr (.whileLoop b.span b.label (some cond) b.body)
  | .rangeFor var first last step, none =>
    return .inr (.rangeFor b.span b.label var first last step b.body)
  | .forLoop init cond step, none => return .inr (.forLoop b.span b.label init cond step b.body)
  | .switch subject, none => return .inr (.switch b.span b.label subject b.body)
  | .block, none => return .inr (.block b.span b.body)

end Block

/-- The routines so far and the blocks that are open. -/
structure Blocks where
  /-- The open blocks, innermost first. -/
  inner : List Block
  /-- The routine around them. -/
  current : Routine
  /-- The routines that are complete. -/
  done : List Routine
  deriving Repr, Inhabited

namespace Blocks

/-- Nothing read yet: the init code is empty. -/
def start : Blocks := ⟨[], ⟨.init, .single 0, [], 0⟩, []⟩

/-- The statements of the innermost block so far. -/
def body (s : Blocks) : List Stmt :=
  match s.inner with
  | b :: _ => b.body
  | [] => s.current.body

/-- One more statement for the innermost block. -/
def push (s : Blocks) (stmt : Stmt) : Blocks :=
  match s.inner with
  | b :: bs => { s with inner := { b with body := b.body ++ [stmt] } :: bs }
  | [] => { s with current := { s.current with body := s.current.body ++ [stmt] } }

/-- Whether the innermost block is a switch. -/
def inSwitch (s : Blocks) : Bool :=
  match s.inner with
  | ⟨.switch _, _, _, _⟩ :: _ => true
  | _ => false

/-- A whole statement; the marks of a switch stand directly in one. -/
def plain (s : Blocks) (stmt : Stmt) : Result Blocks :=
  if s.inSwitch then return s.push stmt
  else match stmt with
    | .case span _ => Block.refuse (.unexpected "\"case\"") span
    | .default span => Block.refuse (.unexpected "\"default\"") span
    | _ => return s.push stmt

/-- The label just behind which the next statement stands. -/
def lastLabel? (s : Blocks) : Option String :=
  match s.body.getLast? with
  | some (.label _ name) => some name
  | _ => none

/-- The start of a block; a routine stands at the top level only. -/
def opening (s : Blocks) (opener : Opener) (span : Span) : Result Blocks := do
  if !s.inner.isEmpty then
    match opener with
    | .onEvent _ => semantic (.nestedDefinition "onevent") span
    | .function _ => semantic (.nestedDefinition "function") span
    | _ => pure ()
  let kind := Block.Kind.ofOpener opener span
  let label := if kind.takesLabel then s.lastLabel? else none
  return { s with inner := ⟨kind, span, label, []⟩ :: s.inner }

/-- The next arm of the innermost block, which must be an `if`. -/
def nextArm (s : Blocks) (what : String) (current : Option (Expr × Span)) (span : Span) :
    Result Blocks :=
  match s.inner with
  | b :: bs => return { s with inner := (← b.nextArm what current span) :: bs }
  | [] => Block.refuse (.unexpected what) span

/-- The end of the innermost block. -/
def closing (s : Blocks) (what : String) (cond : Option Expr) (span : Span) : Result Blocks :=
  match s.inner with
  | [] => Block.refuse (.unexpected what) span
  | b :: bs => do
    let outer := { s with inner := bs }
    match ← b.close cond span with
    | .inl routine => return { outer with done := outer.done ++ [routine] }
    | .inr stmt => return outer.push stmt

/-- All routines, the init code first; every block must be closed. -/
def finish (s : Blocks) : Result (List Routine) :=
  match s.inner, s.current.kind with
  | b :: _, _ => Block.refuse (.unterminated b.kind.describe) b.span
  | [], .init => return s.current :: s.done
  | [], _ => return s.done ++ [s.current]

/-- The end of a routine and the start of the next. -/
def header (s : Blocks) (h : Header) (span : Span) : Result Blocks := do
  let kind : Routine.Kind := match h with
    | .onEvent name => .onEvent name
    | .sub name => .sub name
  return ⟨[], ⟨kind, span, [], 0⟩, ← s.finish⟩

/-- What closes a block in a language. -/
def closer : Language → String
  | .simple => "\"end\""
  | .l2 => "\"\x7d\""

/-- What starts another arm in a language. -/
def elseIf : Language → String
  | .simple => "\"elseif\""
  | .l2 => "\"else if\""

/-- One more line. -/
def line (language : Language) (s : Blocks) : Line → Result Blocks
  | .plain stmt => s.plain stmt
  | .opening opener span => s.opening opener span
  | .elseIf cond span => s.nextArm (elseIf language) (some (cond, span)) span
  | .otherwise span => s.nextArm "\"else\"" none span
  | .closing span => s.closing (closer language) none span
  | .closingWhile cond span => s.closing "\"while\"" (some cond) span
  | .header h span => s.header h span

end Blocks

/-- The routines that lines make up, the init code first and then the others
in the order they are complete. -/
def Routine.ofLines (language : Language) (lines : List Line) : Result (List Routine) := do
  (← lines.foldlM (Blocks.line language) .start).finish

end RobotScript
