/-
# Types in statements

`Stmt.typed` types the expressions of a statement. Conditions, counters and
subjects are single words. A statement that is nothing but a call of a
firmware function becomes a native call, whose arguments may be whole arrays.

Key definitions: `Stmt.typed`, `Stmt.typedBlock`.
-/
import RobotScript.Expr.Typing
import RobotScript.Stmt.Basic

namespace RobotScript.Stmt

/-- An optional single word with its type. -/
def typedWord? (c : Calls) : Option Expr → Result (Option Expr)
  | none => return none
  | some e => return some (← e.typedWord c)

/-- An expression statement. -/
def typedExpr (c : Calls) (span : Span) (e : Expr) : Result Stmt :=
  match e with
  | .call _ name none args => do
    if c.isNative name then return native span name (← Expr.typedAll c .value args)
    else return expr span (← e.typed c)
  | _ => do return expr span (← e.typed c)

/-- The counter of a loop over a range, which is written to. -/
def typedCounter (c : Calls) (e : Expr) : Result Expr := do
  let e ← e.typedWord c
  if e.isPlace then return e else semantic .invalidOperand e.span

mutual

/-- The statement with the types of its expressions. -/
def typed (c : Calls) : Stmt → Result Stmt
  | expr span e => typedExpr c span e
  | branch span arms => return branch span (← typedArms c arms)
  | whenever span cond body => return whenever span (← cond.typedWord c) (← typedBlock c body)
  | whileLoop span tag cond body =>
    return whileLoop span tag (← typedWord? c cond) (← typedBlock c body)
  | doWhile span tag body cond => do
    let body ← typedBlock c body
    return doWhile span tag body (← cond.typedWord c)
  | rangeFor span tag var first last step body => do
    let var ← typedCounter c var
    return rangeFor span tag var (← first.typedWord c) (← last.typedWord c)
      (← typedWord? c step) (← typedBlock c body)
  | forLoop span tag init cond step body => do
    let init ← typedBlock c init
    let cond ← typedWord? c cond
    let step ← match step with
      | some e => some <$> e.typed c
      | none => pure none
    return forLoop span tag init cond step (← typedBlock c body)
  | switch span tag subject body =>
    return switch span tag (← subject.typedWord c) (← typedBlock c body)
  | case span value => return case span (← value.typedWord c)
  | block span body => return block span (← typedBlock c body)
  | native span name args => return native span name (← Expr.typedAll c .value args)
  | emit span event value => do
    match value with
    | some e => return emit span event (some (← e.typedValue c))
    | none => return emit span event none
  | ret span value => return ret span (← typedWord? c value)
  | varDecl span decl => return varDecl span decl
  | constDecl span name value => return constDecl span name value
  | default span => return default span
  | label span name => return label span name
  | goto span name => return goto span name
  | exit span kind tag => return exit span kind tag
  | callSub span name => return callSub span name
  | empty span => return empty span

/-- The arms of an `if` with their types. -/
def typedArms (c : Calls) : Arms → Result Arms
  | .done => return .done
  | .otherwise body => return .otherwise (← typedBlock c body)
  | .arm span cond body rest =>
    return .arm span (← cond.typedWord c) (← typedBlock c body) (← typedArms c rest)

/-- Statements with their types, in turn. -/
def typedBlock (c : Calls) : List Stmt → Result (List Stmt)
  | [] => return []
  | s :: ss => return (← typed c s) :: (← typedBlock c ss)

end

end RobotScript.Stmt
