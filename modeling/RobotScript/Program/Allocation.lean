/-
# Allocation

Every variable gets its storage, every name is bound to what it stands for
and every label becomes unique. The declaration of a variable with an initial
value is followed by its assignment; that of a constant leaves nothing behind.

Key definitions: `Stmt.lay`, `Routine.layAll`.
-/
import RobotScript.Expr.Folding
import RobotScript.Program.Scope
import RobotScript.Routine.Basic

namespace RobotScript

/-- What laying out a routine depends on. -/
structure Surroundings where
  /-- The node, the language and the functions known so far. -/
  calls : Calls
  /-- The result type, in a function. -/
  ret : Option Ty
  /-- Whether the routine has a scope of its own. -/
  ownScope : Bool
  deriving Repr, Inhabited

namespace Surroundings

def node (s : Surroundings) : Node := s.calls.node

/-- Whether blocks open scopes. -/
def blockScoping (s : Surroundings) : Bool := s.calls.language.blockScoping

end Surroundings

open Layout

/-- An expression with its names bound. -/
def Expr.lay (e : Expr) : Laying Expr := do e.bind (← get).lookup?

/-- An optional expression with its names bound. -/
def Expr.lay? : Option Expr → Laying (Option Expr)
  | none => return none
  | some e => return some (← e.lay)

/-- Expressions with their names bound, in turn. -/
def Expr.layAll (es : List Expr) : Laying (List Expr) := do Expr.bindAll (← get).lookup? es

namespace Surroundings

/-- The value of an expression that must be a constant number. -/
def constant (s : Surroundings) (what : String) (e : Expr) : Laying Cell := do
  let folded ← (← (← e.lay).typed s.calls).fold
  match folded.ty, folded.number? with
  | .int, some n | .bool, some n => return n
  | _, _ => semantic (.nonConstant what) e.span

/-- The value of an expression that must be a constant size. -/
def dimension (s : Surroundings) (what : String) (e : Expr) : Laying Nat := do
  let n ← s.constant what e
  if 0 < n then return n.toInt.toNat else semantic .arraySize e.span

/-- The dimensions of a variable, in turn; one that is left open gives way to
those of the initial value. -/
def dimensions (s : Surroundings) (init : Option Expr) (span : Span) :
    List (Option Expr) → Laying (List Nat)
  | [] => return []
  | some e :: dims => return (← s.dimension "array size" e) :: (← s.dimensions init span dims)
  | none :: dims => do
    match init with
    | none => semantic .arraySize span
    | some value =>
      let value ← value.typed s.calls
      let own := if value.dims.isEmpty then [1] else value.dims
      return own ++ (← s.dimensions init span dims)

/-- The declaration of a variable, and the assignment of its initial value.
That value still sees what the name meant before. -/
def varDecl (s : Surroundings) (span : Span) (d : VarDecl) : Laying (List Stmt) := do
  let init ← Expr.lay? d.init
  let dims ← s.dimensions init span d.dims
  let (offset, mode) ← reserve s.node (extent dims) span
  let storage : Storage := ⟨offset, dims, d.ty, mode⟩
  declare d.name (.variable storage) span
  let decl := Stmt.varDecl span ⟨d.name, d.ty, [], none, some storage⟩
  match init with
  | none => return [decl]
  | some value =>
    let target : Expr := .var ⟨span, d.ty, dims⟩ ⟨d.name, some storage⟩
    return [decl, .expr span (.op (.bare value.span) .assign [target, value])]

/-- Whether a `return` with or without a value may stand in the routine. -/
def checkReturn (s : Surroundings) (value : Option Expr) (span : Span) : Result Unit :=
  match s.ret, value with
  | none, some _ => semantic .returnOutsideFunction span
  | some .void, some _ => semantic .unexpectedReturnValue span
  | none, none | some .void, none | some _, some _ => return ()
  | some _, none => semantic .missingReturnValue span

end Surroundings

/-- Declare the labels of a block ahead of its statements. -/
def declareLabels : List Stmt → Laying Unit
  | [] => return ()
  | .label span name :: ss => do declareLabel name span; declareLabels ss
  | _ :: ss => declareLabels ss

/-- Lay out a block with the given statements. -/
def layBlock {α : Type} (s : Surroundings) (body : List Stmt) (x : Laying α) : Laying α :=
  enclosed s.blockScoping do declareLabels body; x

namespace Stmt

mutual

/-- The statements a statement comes to with its names bound. -/
def lay (s : Surroundings) : Stmt → Laying (List Stmt)
  | varDecl span decl => s.varDecl span decl
  | constDecl span name value => do
    let n ← s.constant "constant definition" value
    declare name (.constant n) span
    return []
  | expr span e => return [expr span (← e.lay)]
  | branch span arms => return [branch span (← layArms s arms)]
  | whenever span cond body => do
    let cond ← cond.lay
    return [whenever span cond (← layBlock s body (layAll s body))]
  | whileLoop span tag cond body => do
    let cond ← Expr.lay? cond
    return [whileLoop span tag cond (← layBlock s body (layAll s body))]
  | doWhile span tag body cond => do
    let body ← layBlock s body (layAll s body)
    return [doWhile span tag body (← cond.lay)]
  | rangeFor span tag var first last step body => do
    let var ← var.lay
    let first ← first.lay
    let last ← last.lay
    let step ← Expr.lay? step
    return [rangeFor span tag var first last step (← layBlock s body (layAll s body))]
  | forLoop span tag init cond step body =>
    enclosed s.blockScoping do
      let init ← layAll s init
      let cond ← Expr.lay? cond
      let step ← Expr.lay? step
      return [forLoop span tag init cond step (← layBlock s body (layAll s body))]
  | switch span tag subject body => do
    let subject ← subject.lay
    return [switch span tag subject (← layBlock s body (layAll s body))]
  | case span value => return [case span (← value.lay)]
  | block span body => return [block span (← layBlock s body (layAll s body))]
  | label span name => return [label span (← labelName s.ownScope name span)]
  | goto span name => return [goto span (← labelName s.ownScope name span)]
  | native span name args => return [native span name (← Expr.layAll args)]
  | emit span event value => return [emit span event (← Expr.lay? value)]
  | ret span value => do
    s.checkReturn value span
    return [ret span (← Expr.lay? value)]
  | default span => return [default span]
  | exit span kind tag => return [exit span kind tag]
  | callSub span name => return [callSub span name]
  | empty span => return [empty span]

/-- The arms of an `if` with their names bound. -/
def layArms (s : Surroundings) : Arms → Laying Arms
  | .done => return .done
  | .otherwise body => return .otherwise (← layBlock s body (layAll s body))
  | .arm span cond body rest => do
    let cond ← cond.lay
    let body ← layBlock s body (layAll s body)
    return .arm span cond body (← layArms s rest)

/-- The statements that statements come to, in turn. -/
def layAll (s : Surroundings) : List Stmt → Laying (List Stmt)
  | [] => return []
  | t :: ts => return (← lay s t) ++ (← layAll s ts)

end

end Stmt

/-- The parameters of a function, which take a word of its frame each. -/
def Surroundings.params (s : Surroundings) : List ParamDecl → Laying (List Param)
  | [] => return []
  | p :: ps => do
    let dims ← p.dims.mapM (s.dimension "argument dimension")
    let offset ← reserveFrame ((← get).frame.getD ⟨0, 0⟩) 1
    let mode := if p.byRef then Addressing.reference else .frame
    declare p.name (.variable ⟨offset, dims, p.ty, mode⟩) p.span
    return ⟨p.name, p.ty, dims, p.byRef, offset⟩ :: (← s.params ps)

/-- The routines laid out so far. -/
structure Allocation where
  layout : Layout
  functions : List Signature
  /-- The names of the subroutines. -/
  subs : List String
  deriving Repr, Inhabited

namespace Allocation

/-- The body of a routine. -/
def layBody (s : Surroundings) (body : List Stmt) : Laying (List Stmt) := do
  declareLabels body
  Stmt.layAll s body

/-- A function: it has a frame and a scope of its own, and is known in its own
body. -/
def layFunction (node : Node) (language : Language) (a : Allocation) (r : Routine)
    (decl : FunctionDecl) : Result (Routine × Allocation) := do
  if a.functions.any (·.name == decl.name) then semantic (.duplicateDefinition decl.name) r.span
  let s : Surroundings := ⟨⟨a.functions, language, node⟩, some decl.ret, true⟩
  let entry := { a.layout.pushScope with frame := some ⟨0, 0⟩ }
  let (params, layout) ← (s.params decl.params).run entry
  let signature : Signature := ⟨decl.name, decl.ret, params⟩
  let functions := a.functions ++ [signature]
  let inside := { s with calls := { s.calls with functions } }
  let (body, layout) ← (layBody inside r.body).run layout
  let size := (layout.frame.map (·.high)).getD 0
  let closed := { layout with scopes := a.layout.scopes, frame := none }
  return (⟨.function decl (some signature), r.span, body, size⟩, { a with layout := closed, functions })

/-- The init code, a handler or a subroutine; where blocks open scopes, all
but the init code have one of their own. -/
def layPlain (node : Node) (language : Language) (a : Allocation) (r : Routine) (own : Bool) :
    Result (Routine × Allocation) := do
  let own := own && language.blockScoping
  let s : Surroundings := ⟨⟨a.functions, language, node⟩, none, own⟩
  let entry := if own then a.layout.pushScope else a.layout
  let (body, layout) ← (layBody s r.body).run entry
  let closed := if own then { layout with scopes := a.layout.scopes } else layout
  return ({ r with body, frameSize := 0 }, { a with layout := closed })

/-- One more routine. -/
def layRoutine (node : Node) (language : Language) (a : Allocation) (r : Routine) :
    Result (Routine × Allocation) :=
  match r.kind with
  | .function decl _ => layFunction node language a r decl
  | .sub name => do
    if a.subs.contains name then semantic (.duplicateDefinition name) r.span
    layPlain node language { a with subs := name :: a.subs } r true
  | .onEvent _ => layPlain node language a r true
  | .init => layPlain node language a r false

/-- The routines of a program in turn. -/
def layAll (node : Node) (language : Language) (a : Allocation) :
    List Routine → Result (List Routine × Allocation)
  | [] => return ([], a)
  | r :: rs => do
    let (r, a) ← layRoutine node language a r
    let (rs, a) ← layAll node language a rs
    return (r :: rs, a)

end Allocation

/-- The routines with storage for all variables, the functions they define and
the memory they take. -/
def Routine.layAll (node : Node) (language : Language) (routines : List Routine) :
    Result (List Routine × Allocation) :=
  Allocation.layAll node language ⟨.start node, [], []⟩ routines

end RobotScript
