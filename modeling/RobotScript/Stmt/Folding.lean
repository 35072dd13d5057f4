/-
# Folding statements

`Stmt.fold` folds the expressions of a statement and drops what cannot run:
arms and loops whose condition is false, and arms behind one whose condition
is true. Blocks with a label in them are kept, as a jump may enter them. The
assignment of a whole array becomes one assignment for each element.

Key definitions: `Stmt.fold`, `Stmt.foldBlock`, `Stmt.foldArms`.
-/
import RobotScript.Expr.Folding
import RobotScript.Stmt.Basic

namespace RobotScript

mutual

/-- Whether a label stands somewhere in the statement. -/
def Stmt.hasLabel : Stmt → Bool
  | .label _ _ => true
  | .branch _ arms => arms.hasLabel
  | .whenever _ _ body | .whileLoop _ _ _ body | .doWhile _ _ body _ | .rangeFor _ _ _ _ _ _ body
  | .forLoop _ _ _ _ _ body | .switch _ _ _ body | .block _ body => Stmt.anyLabel body
  | .varDecl _ _ | .constDecl _ _ _ | .expr _ _ | .case _ _ | .default _ | .goto _ _ | .exit _ _ _
  | .native _ _ _ | .callSub _ _ | .emit _ _ _ | .ret _ _ | .empty _ => false

/-- Whether a label stands somewhere in the arms. -/
def Arms.hasLabel : Arms → Bool
  | .done => false
  | .otherwise body => Stmt.anyLabel body
  | .arm _ _ body rest => Stmt.anyLabel body || rest.hasLabel

/-- Whether a label stands somewhere in the statements. -/
def Stmt.anyLabel : List Stmt → Bool
  | [] => false
  | s :: ss => s.hasLabel || Stmt.anyLabel ss

end

namespace Stmt

/-- Whether an expression assigns something other than a single word. -/
def isArrayAssignment : Expr → Bool
  | .op _ .assign args => args.any (!·.isScalar)
  | _ => false

/-- The element of an array at a position in storage order. -/
def element (v : Variable) (k : Nat) (span : Span) (ty : Ty) : Expr :=
  .index (.scalar span ty) v [.int (Int16.ofNat k) span]

/-- The words of an array value that can be assigned, in storage order. -/
def arrayItems? (size : Nat) : Expr → Option (List Expr)
  | .array _ items => some items
  | .var info v => some ((List.range size).map fun k => element v k info.span info.ty)
  | _ => none

/-- The assignments of the items of an array from a position on. -/
def assignItems (span opSpan : Span) (target : Info) (v : Variable) :
    Nat → List Expr → Result (List Stmt)
  | _, [] => return []
  | k, item :: items => do
    let assign : Expr := .op (.scalar opSpan target.ty) .assign
      [element v k target.span target.ty, item]
    return expr span (← assign.fold) :: (← assignItems span opSpan target v (k + 1) items)

/-- The assignment of a whole array, element by element. -/
def assignArray (span : Span) (e : Expr) : Result (List Stmt) :=
  match e with
  | .op info _ [.var target v, value] =>
    if extent target.dims ≠ value.size then semantic .incompatibleSizes info.span
    else match arrayItems? (extent target.dims) value with
      | some items => assignItems span info.span target v 0 items
      | none => semantic .badArrayAssignment info.span
  | .op info _ [_, _] => semantic .badArrayAssignment info.span
  | .op _ _ _ => malformed .assign
  | _ => semantic .badArrayAssignment e.span

/-- An optional expression, folded. -/
def fold? : Option Expr → Result (Option Expr)
  | none => return none
  | some e => return some (← e.fold)

/-- An expression folded to a number, converted to `int`. -/
def foldInt (e : Expr) : Result Expr := return (← e.fold).cast .int

/-- The step of a loop over a range, which is constant. -/
def foldStep (step : Option Expr) : Result (Option Expr) := do
  match ← fold? step with
  | some e => if e.number?.isNone then semantic (.nonConstant "loop step") e.span else return some e
  | none => return none

/-- An `if` with folded arms; without a condition nothing is left but a block. -/
def ofArms (span : Span) : Arms → List Stmt
  | .done | .otherwise [] => []
  | .otherwise body => [block span body]
  | .arm s cond body rest => [branch span (.arm s cond body rest)]

mutual

/-- The statements that one statement of a routine with a given result type
comes to. -/
def fold (result : Option Ty) : Stmt → Result (List Stmt)
  | expr span e =>
    if isArrayAssignment e then assignArray span e else do return [expr span (← e.fold)]
  | branch span arms => return ofArms span (← foldArms result false arms)
  | whenever span cond body => do
    let cond ← cond.fold
    return [whenever span cond (← foldBlock result body)]
  | whileLoop span tag cond body => do
    let body ← foldBlock result body
    let cond ← fold? cond
    match cond.bind Expr.truth? with
    | some false => return if anyLabel body then [whileLoop span tag cond body] else []
    | some true => return [whileLoop span tag none body]
    | none => return [whileLoop span tag cond body]
  | doWhile span tag body cond => do
    let body ← foldBlock result body
    return [doWhile span tag body (← cond.fold)]
  | rangeFor span tag var first last step body => do
    let step ← foldStep step
    let first ← foldInt first
    let last ← foldInt last
    return [rangeFor span tag var first last step (← foldBlock result body)]
  | forLoop span tag init cond step body => do
    let cond ← fold? cond
    let init ← foldBlock result init
    let step ← fold? step
    let cond := cond.filter (·.truth? != some true)
    return [forLoop span tag init cond step (← foldBlock result body)]
  | switch span tag subject body => do
    let subject ← foldInt subject
    return [switch span tag subject (← foldBlock result body)]
  | case span value => do
    let value ← foldInt value
    if value.number?.isNone then semantic (.nonConstant "case") value.span
    else return [case span value]
  | block span body => return [block span (← foldBlock result body)]
  | native span name args => return [native span name (← Expr.foldAll args)]
  | emit span event value => return [emit span event (← fold? value)]
  | ret span value => do
    match value with
    | some e =>
      let e ← e.fold
      return [ret span (some (e.cast (result.getD e.ty)))]
    | none => return [ret span none]
  | varDecl span decl => return [varDecl span decl]
  | constDecl span name value => return [constDecl span name value]
  | default span => return [default span]
  | label span name => return [label span name]
  | goto span name => return [goto span name]
  | exit span kind tag => return [exit span kind tag]
  | callSub span name => return [callSub span name]
  | empty span => return [empty span]

/-- The arms of an `if` that can run; `kept` says whether there is one before
these. -/
def foldArms (result : Option Ty) (kept : Bool) : Arms → Result Arms
  | .done => return .done
  | .otherwise body => return .otherwise (← foldBlock result body)
  | .arm span cond body rest => do
    let cond ← cond.fold
    let body ← foldBlock result body
    match cond.truth?, anyLabel body with
    | some false, false => foldArms result kept rest
    | some true, false =>
      if kept then return .arm span cond body (← foldArms result true rest) else return .otherwise body
    | _, _ => return .arm span cond body (← foldArms result true rest)

/-- Statements folded in turn. -/
def foldBlock (result : Option Ty) : List Stmt → Result (List Stmt)
  | [] => return []
  | s :: ss => return (← fold result s) ++ (← foldBlock result ss)

end

end Stmt
end RobotScript
