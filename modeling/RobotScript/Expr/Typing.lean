/-
# Types of expressions

`Expr.typed` computes the type and the dimensions of each expression from
those of its operands, and binds each call to the function it names. Operators
work on single words; whole arrays can be assigned, passed by reference and
asked for their size. Values of different types meet without complaint, the
conversions are for `Expr.fold` to insert.

Key definitions: `Calls`, `Expr.typed`, `binaryTy`, `Ty.join`.
-/
import RobotScript.Expr.Basic
import RobotScript.Fault

namespace RobotScript

open Machine (Binary)

/-- What calls can mean: the functions of the script, and the built-in ones of
the language on the node. -/
structure Calls where
  functions : List Signature
  language : Language
  node : Node
  deriving Repr, Inhabited

namespace Calls

def function? (c : Calls) (name : String) : Option Signature :=
  c.functions.find? (·.name == name)

def builtin? (c : Calls) (name : String) : Option Builtin :=
  Builtin.lookup? name c.language c.node

/-- Whether a name is that of a firmware function and of no other. -/
def isNative (c : Calls) (name : String) : Bool :=
  (c.function? name).isNone && (c.builtin? name).isNone && (c.node.native? name).isSome

end Calls

/-- The type of a sum, difference, product, quotient or remainder. -/
def arithmeticTy (a b : Ty) : Ty := if a = .fixed ∨ b = .fixed then .fixed else .int

/-- The type of the result of a binary operator. -/
def binaryTy (op : Binary) (a b : Ty) : Ty :=
  match op with
  | .eq | .ne | .gt | .ge | .lt | .le | .or | .and => .bool
  | .add | .sub | .mult | .div | .mod => arithmeticTy a b
  | .shl | .shr => if a = .fixed then .fixed else .int
  | .bitOr | .bitXor | .bitAnd => .int

/-- The common type of two alternatives. -/
def Ty.join (a b : Ty) : Ty :=
  if a = .fixed ∨ b = .fixed then .fixed
  else if a = .bool ∧ b = .bool then .bool
  else .int

/-- The common type of the items of an array. -/
def joinAll : List Ty → Ty
  | [] => .int
  | ty :: tys => tys.foldl Ty.join ty

namespace Op

/-- The number of operands. -/
def arity : Op → Nat
  | bool _ => 0
  | preIncrement | preDecrement | postIncrement | postDecrement | negate | bitNot | abs | not
  | cast _ | size => 1
  | _ => 2

/-- What an operand may be. -/
inductive Operand where
  /-- Anything, even without a value. -/
  | any
  /-- A value of any size. -/
  | value
  /-- A single word. -/
  | word
  deriving DecidableEq, Repr

/-- What the operands of an operator may be. -/
def operand : Op → Operand
  | comma => .any
  | size | assign => .value
  | _ => .word

end Op

/-- Fail for an operator with a wrong number of operands. -/
def malformed {α : Type} (op : Op) : Result α := internal (.malformedOperator op.symbol)

namespace Expr

/-- The expression, if it may stand for an operand. -/
def asOperand (kind : Op.Operand) (e : Expr) : Result Expr :=
  if kind ≠ .any ∧ e.ty = .void then semantic .voidValue e.span
  else if kind = .word ∧ !e.isScalar then semantic .arrayInExpression e.span
  else .ok e

/-- The expression, if it may be passed for a parameter. -/
def asArgument (p : Param) (function : String) (e : Expr) : Result Expr := do
  let e ← e.asOperand .value
  if p.byRef then
    if !e.isPlace then semantic .referenceExpected e.span
    else if e.ty ≠ p.ty then semantic .referenceTypeMismatch e.span
    else if e.size ≠ p.size then semantic (.argumentSize function) e.span
    else return e
  else if !e.isScalar then semantic (.argumentSize function) e.span
  else return e

/-- An operator on operands that have types. -/
def typedOp (o : Op) (span : Span) (args : List Expr) : Result Expr :=
  let word (ty : Ty) : Result Expr := .ok (op (.scalar span ty) o args)
  match o, args with
  | .comma, [_, b] => .ok (op ⟨span, b.ty, b.dims⟩ o args)
  | .size, [a] => .ok (int (Int16.ofNat a.size) span)
  | .assign, [target, _] =>
    if target.isPlace then .ok (op ⟨span, target.ty, target.dims⟩ o args)
    else semantic .invalidOperand span
  | .compound _, [target, _] | .preIncrement, [target] | .preDecrement, [target]
  | .postIncrement, [target] | .postDecrement, [target] =>
    if target.isPlace then word target.ty else semantic .invalidOperand span
  | .binary b, [x, y] => word (binaryTy b x.ty y.ty)
  | .logicAnd, _ | .logicOr, _ | .not, _ => word .bool
  | .negate, [x] | .abs, [x] => word (if x.ty = .fixed then .fixed else .int)
  | .bitNot, _ => word .int
  | .cast ty, _ => word ty
  | _, _ => malformed o

mutual

/-- The expression with its type and those of its parts. -/
def typed (c : Calls) : Expr → Result Expr
  | number info n => return number info n
  | fixed info f => return fixed info f
  | placeholder info => return placeholder info
  | var info v =>
    match v.storage with
    | none => internal (.unresolvedVariable v.name)
    | some s => return var ⟨info.span, s.ty, s.dims⟩ v
  | index info v indices =>
    match v.storage with
    | none => internal (.unresolvedVariable v.name)
    | some s =>
      if indices.length ≠ 1 ∧ indices.length ≠ s.dims.length then
        semantic .tooManyIndices info.span
      else return index (.scalar info.span s.ty) v (← typedAll c .word indices)
  | array info items => do
    let items ← typedAll c .word items
    let dims := if info.dims.isEmpty then [items.length] else info.dims
    return array ⟨info.span, joinAll (items.map (·.ty)), dims⟩ items
  | op info o args =>
    match o with
    | .bool b => return bool b info.span
    | .conditionalElse => semantic .unexpectedElse info.span
    | .conditional =>
      match args with
      | [cond, op branches .conditionalElse [a, b]] => do
        let cond ← (← typed c cond).asOperand .word
        let a ← (← typed c a).asOperand .word
        let b ← (← typed c b).asOperand .word
        let ty := a.ty.join b.ty
        return op (.scalar info.span ty) .conditional
          [cond, op (.scalar branches.span ty) .conditionalElse [a, b]]
      | [_, op _ .conditionalElse _] => malformed .conditionalElse
      | [_, rest] => semantic .missingElse rest.span
      | _ => malformed .conditional
    | o =>
      if args.length ≠ o.arity then malformed o
      else do typedOp o info.span (← typedAll c o.operand args)
  | call info name _ args =>
    match c.function? name with
    | some s =>
      if args.length ≠ s.params.length then semantic (.wrongArgumentCount name) info.span
      else
        return call (.scalar info.span s.ret) name (some (.function s))
          (← typedArgs c name s.params args)
    | none =>
      match c.builtin? name with
      | some b =>
        if args.length ≠ b.arity then semantic (.wrongArgumentCount name) info.span
        else do
          let args ← typedAll c .word args
          return call (.scalar info.span (b.resultTy (args.map (·.ty)))) name (some (.builtin b)) args
      | none => semantic (.unknownFunction name) info.span

/-- The operands of an operator with their types, in turn. -/
def typedAll (c : Calls) (kind : Op.Operand) : List Expr → Result (List Expr)
  | [] => return []
  | e :: es => return (← (← typed c e).asOperand kind) :: (← typedAll c kind es)

/-- The arguments of a call with their types, in turn. -/
def typedArgs (c : Calls) (function : String) : List Param → List Expr → Result (List Expr)
  | p :: ps, e :: es =>
    return (← (← typed c e).asArgument p function) :: (← typedArgs c function ps es)
  | _, _ => return []

end

/-- A single word with its type. -/
def typedWord (c : Calls) (e : Expr) : Result Expr := do (← e.typed c).asOperand .word

/-- A value of any size with its type. -/
def typedValue (c : Calls) (e : Expr) : Result Expr := do (← e.typed c).asOperand .value

end Expr
end RobotScript
