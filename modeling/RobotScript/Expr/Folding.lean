/-
# Folding expressions

`Expr.fold` works on typed expressions from the leaves up. It puts in the
conversions that values of different types need, computes what is constant,
flattens constant indices and writes an update as the assignment of a value
computed from the old one, for which a placeholder stands.

Key definitions: `Expr.cast`, `Expr.foldOp`, `Expr.fold`, `flatIndex?`.
-/
import RobotScript.Expr.Typing

namespace RobotScript

open Machine (Unary Binary)

/-- The position in storage order of the element with the given indices: the
first index counts single words, the next one whole columns, and so on. None if
an index is out of its bound. -/
def flatIndex? : List Nat → List Cell → Option Nat
  | bound :: bounds, k :: ks =>
    if 0 ≤ k ∧ k.toInt.toNat < bound then
      (flatIndex? bounds ks).map fun rest => k.toInt.toNat + bound * rest
    else none
  | _, _ => some 0

namespace Expr

/-- The value of a literal. -/
def literal? : Expr → Option Float
  | number _ n => some (Float.ofInt n.toInt)
  | fixed _ f => some f
  | _ => none

/-- The whole part of a fixed-point number, cut to a cell. -/
def wholePart (f : Float) : Cell := toCell f.toInt32

/-- The expression converted to a type. A literal is converted at once, and a
truth value already is a number. -/
def cast (ty : Ty) (e : Expr) : Expr :=
  if e.ty = ty ∨ ty = .undefined ∨ ty = .void ∨ e.ty = .void then e
  else match ty, e with
    | .fixed, number _ n => real (Float.ofInt n.toInt) e.span
    | .int, fixed _ f => int (wholePart f) e.span
    | .bool, number _ n => bool (n != 0) e.span
    | .bool, fixed _ f => bool (f != 0.0) e.span
    | _, _ =>
      if ty = .int ∧ e.ty = .bool then e.withTy .int
      else op (.scalar e.span ty) (.cast ty) [e]

/-- Whether `(e op k) op l` is `e op (k op l)`. -/
def reassociates : Binary → Bool
  | .add | .mult | .bitAnd | .bitOr | .bitXor => true
  | _ => false

/-- The operands of a binary operator with the conversions it needs. -/
def castOperands (b : Binary) (x y : Expr) : Expr × Expr :=
  let anyFixed := x.ty == .fixed || y.ty == .fixed
  match b with
  | .add | .sub | .mod | .eq | .ne | .gt | .ge | .lt | .le =>
    if anyFixed then (x.cast .fixed, y.cast .fixed) else (x, y)
  | .shl | .shr => (x, y.cast .int)
  | .bitAnd | .bitOr | .bitXor => (x.cast .int, y.cast .int)
  | .mult | .div | .or | .and => (x, y)

/-- The value of an operator on two literals, one of them a fixed-point number;
none if it is left to the machine. -/
def foldFixed (b : Binary) (p q : Float) (span : Span) : Result (Option Expr) :=
  match b with
  | .add => return some (real (p + q) span)
  | .sub => return some (real (p - q) span)
  | .mult => return some (real (p * q) span)
  | .div => if q == 0.0 then semantic .divisionByZero span else return some (real (p / q) span)
  | .mod =>
    if q == 0.0 then semantic .divisionByZero span
    else return some (real (Decimal.remainder p q) span)
  | .eq => return some (bool (p == q) span)
  | .ne => return some (bool (p != q) span)
  | .gt => return some (bool (p > q) span)
  | .ge => return some (bool (p >= q) span)
  | .lt => return some (bool (p < q) span)
  | .le => return some (bool (p <= q) span)
  | _ => return none

/-- The operand and the constant of `e op k`, where `e` is an `int`. -/
def splitConstant? (b : Binary) : Expr → Option (Expr × Cell)
  | op _ (.binary b') [e, number _ k] => if b' = b ∧ e.ty = .int then some (e, k) else none
  | _ => none

/-- A binary operator with a result of a given type. -/
def foldBinary (b : Binary) (x y : Expr) (span : Span) (ty : Ty) : Result Expr := do
  let anyFixed := x.ty == .fixed || y.ty == .fixed
  let (x, y) := castOperands b x y
  let plain := op (.scalar span ty) (.binary b) [x, y]
  match x, y with
  | number _ m, number _ n =>
    match b.eval m.toInt32 n.toInt32 with
    | none => semantic .divisionByZero span
    | some v =>
      if b.isComparison || b.isLogical then return bool (v != 0) span
      else return number (.scalar span ty) (toCell v)
  | _, _ =>
    if anyFixed then
      if let (some p, some q) := (x.literal?, y.literal?) then
        if let some e ← foldFixed b p q span then return e
    if reassociates b ∧ ty = .int then
      if let (some (e, k), some n) := (splitConstant? b x, y.number?) then
        if let some v := b.eval k.toInt32 n.toInt32 then
          return op (.scalar span ty) (.binary b) [e, int (toCell v) span]
    return plain

/-- The value that an update of a target stores. -/
def updateValue (b : Binary) (target y : Expr) (span : Span) : Result Expr := do
  let old := placeholder (.scalar target.span target.ty)
  return (← foldBinary b old y span (binaryTy b target.ty y.ty)).cast target.ty

/-- The update of a target by an operator. -/
def foldUpdate (o : Op) (b : Binary) (target y : Expr) (info : Info) : Result Expr := do
  let value ← updateValue b target y info.span
  return op (.scalar info.span info.ty) o [target, value]

/-- A unary operator of the machine. -/
def foldUnary (o : Op) (u : Unary) (x : Expr) (info : Info) : Expr :=
  match x, u with
  | number _ n, _ => number (.scalar info.span info.ty) (u.evalCell n)
  | fixed _ f, .neg => real (-f) info.span
  | fixed _ f, .abs => real f.abs info.span
  | _, _ => op (.scalar info.span info.ty) o [x]

/-- Conjunction or disjunction, decided by its first operand if that is a
literal. -/
def foldLogic (o : Op) (x y : Expr) (info : Info) : Expr :=
  let x := x.cast .bool
  let y := y.cast .bool
  let decisive := o != .logicAnd
  match x.truth?, y.truth? with
  | some p, some q => bool (if p = decisive then p else q) info.span
  | some p, none => if p = decisive then bool p info.span else y
  | none, _ => op (.scalar info.span info.ty) o [x, y]

/-- Negation of a truth value. -/
def foldNot (x : Expr) (info : Info) : Expr :=
  match x.truth? with
  | some p => bool (!p) info.span
  | none =>
    let plain := op (.scalar info.span info.ty) .not [x]
    match x with
    | op i (.binary b) args =>
      match b.negated? with
      | some b => op (.scalar i.span .bool) (.binary b) args
      | none => plain
    | _ => plain

/-- The choice between two alternatives. -/
def foldConditional (cond branches : Expr) (info : Info) : Result Expr :=
  match branches with
  | op i _ [a, b] =>
    let a := a.cast info.ty
    let b := b.cast info.ty
    match cond.truth? with
    | some true => return a
    | some false => return b
    | none =>
      return op (.scalar info.span info.ty) .conditional
        [cond, op (.scalar i.span info.ty) .conditionalElse [a, b]]
  | op _ _ _ => malformed .conditionalElse
  | _ => semantic .missingElse branches.span

/-- An operator on folded operands. -/
def foldOp (o : Op) (args : List Expr) (info : Info) : Result Expr :=
  match o, args with
  | .binary b, [x, y] => foldBinary b x y info.span info.ty
  | .logicAnd, [x, y] | .logicOr, [x, y] => return foldLogic o x y info
  | .assign, [target, value] =>
    if target.isScalar && value.isScalar then
      return op (.scalar info.span info.ty) .assign [target, value.cast target.ty]
    else semantic .badArrayAssignment info.span
  | .compound b, [target, y] => foldUpdate o b target y info
  | .preIncrement, [target] => foldUpdate (.compound .add) .add target (int 1 info.span) info
  | .preDecrement, [target] => foldUpdate (.compound .sub) .sub target (int 1 info.span) info
  | .postIncrement, [target] => foldUpdate o .add target (int 1 info.span) info
  | .postDecrement, [target] => foldUpdate o .sub target (int 1 info.span) info
  | .negate, [x] => return foldUnary o .neg x info
  | .abs, [x] => return foldUnary o .abs x info
  | .bitNot, [x] => return foldUnary o .bitNot (x.cast .int) info
  | .not, [x] => return foldNot x info
  | .cast ty, [x] => return x.cast ty
  | .conditional, [cond, branches] => foldConditional cond branches info
  | .comma, [a, b] =>
    match a with
    | number _ _ | fixed _ _ | var _ _ => return b
    | _ => return op info .comma [a, b]
  | .size, _ | .conditionalElse, _ | .bool _, _ => return op info o args
  | _, _ => malformed o

/-- An element with folded indices. Constant indices are checked and become one. -/
def foldIndex (v : Variable) (indices : List Expr) (info : Info) : Result Expr :=
  match v.storage with
  | none => internal (.unresolvedVariable v.name)
  | some s =>
    let element (indices : List Expr) := index (.scalar info.span info.ty) v indices
    match indices.mapM number? with
    | none => return element indices
    | some ks =>
      match flatIndex? (if ks.length = 1 then [max s.size 1] else s.dims) ks with
      | some k => return element [int (Int16.ofNat k) info.span]
      | none => semantic .indexOutOfRange info.span

/-- The arguments of a call, those passed by value converted. -/
def castArgs : List Param → List Expr → List Expr
  | p :: ps, e :: es => (if p.byRef then e else e.cast p.ty) :: castArgs ps es
  | _, _ => []

mutual

/-- The expression with its conversions, folded. -/
def fold : Expr → Result Expr
  | op info o args => do foldOp o (← foldAll args) info
  | index info v indices => do foldIndex v ((← foldAll indices).map (cast .int)) info
  | array info items => return array info ((← foldAll items).map (cast info.ty))
  | call info name callee args => do
    let args ← foldAll args
    match callee with
    | some (.function s) => return call info name callee (castArgs s.params args)
    | _ => return call info name callee args
  | number info n => return number info n
  | fixed info f => return fixed info f
  | var info v => return var info v
  | placeholder info => return placeholder info

/-- Expressions folded in turn. -/
def foldAll : List Expr → Result (List Expr)
  | [] => return []
  | e :: es => return (← fold e) :: (← foldAll es)

end

end Expr
end RobotScript
