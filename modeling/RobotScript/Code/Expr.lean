/-
# Code of expressions

The code of an expression pushes its value, or drops it, or prepares a test:
it pushes the two words that the branch behind it compares, so that a
comparison costs no more than it must. `&&`, `||` and `?:` jump over what is
not evaluated. An assignment computes its place, then the value, and reads the
place again if its own value is used.

Key definitions: `Goal`, `Expr.code`, `Expr.testOp`.
-/
import RobotScript.Code.Call
import RobotScript.Expr.Typing

namespace RobotScript

open Machine (Instr Unary Binary)

mutual

/-- Whether the expression can be evaluated twice without a visible effect. -/
def Expr.isPure : Expr → Bool
  | .number _ _ | .fixed _ _ | .var _ _ => true
  | .index _ _ indices => Expr.allPure indices
  | .op _ o args => !o.isAssignment && Expr.allPure args
  | .array _ _ | .call _ _ _ _ | .placeholder _ => false

/-- Whether all expressions can be evaluated twice without a visible effect. -/
def Expr.allPure : List Expr → Bool
  | [] => true
  | e :: es => e.isPure && Expr.allPure es

end

/-- What the code of an expression is for. -/
inductive Goal where
  /-- Push the value. -/
  | value
  /-- Leave the stack as it was. -/
  | effect
  /-- Push two words that compare as `Expr.testOp` says exactly if the value is
  not zero. -/
  | test
  deriving DecidableEq, Repr

namespace Coder

/-- Code that pushes a value, made to fit a goal. -/
def reach (c : Coder) (goal : Goal) (code : Code) : Coding Code :=
  match goal with
  | .value => return code
  | .effect => return code ++ (← c.drop)
  | .test => return code ++ .plain [.immediate 0]

/-- Code that pushes a value without an effect, made to fit a goal. -/
def reachPure (goal : Goal) (code : Code) : Code :=
  match goal with
  | .value => code
  | .effect => []
  | .test => code ++ .plain [.immediate 0]

/-- Code that has pushed a value unless only the effect is wanted. -/
def reachUsed (goal : Goal) (code : Code) : Code :=
  match goal with
  | .test => code ++ .plain [.immediate 0]
  | _ => code

/-- Convert the word on top of the stack. -/
def convert (c : Coder) (source target : Ty) : List Instr :=
  match source, target with
  | .fixed, .fixed | .bool, .bool => []
  | _, .fixed => [.immediate c.settings.factor, .binary .mult]
  | .fixed, .int => [.immediate c.settings.factor, .binary .div]
  | _, .bool => [.immediate 0, .binary .ne]
  | _, _ => []

/-- Multiply or divide two values whose code is given. Scaled products and
quotients need more than 16 bits on the way and are left to the firmware. -/
def arithmetic (c : Coder) (b : Binary) (xTy yTy : Ty) (x y : Code) (span : Span) : Coding Code :=
  let factor := c.settings.factor
  let muldiv (operands : Code) : Coding Code :=
    return operands ++ (← c.callOnValues "math.muldiv" 3 true span)
  match b, xTy == .fixed, yTy == .fixed with
  | .mult, true, true => muldiv (x ++ y ++ .plain [.immediate factor])
  | .div, true, true => muldiv (x ++ .plain [.immediate factor] ++ y)
  | .div, false, true =>
    muldiv (x ++ .plain [.immediate (toCell (factor.toInt32 * factor.toInt32))] ++ y)
  | _, _, _ => return x ++ y ++ .plain [.binary b]

/-- The place of an element. If it is used more than once, indices with an
effect are evaluated once and their position saved. -/
def elementPlace (c : Coder) (reused : Bool) (s : Storage) (indices : List Expr)
    (position : Coding Code) : Coding (Code × Place) := do
  let known : Option Nat := match indices with
    | [.number _ n] => if 0 ≤ n then some n.toInt.toNat else none
    | _ => none
  match known with
  | some k => return ([], ⟨s, .known k⟩)
  | none =>
    if reused && !Expr.allPure indices then
      let code ← position
      let temp ← c.address (← c.temps 1)
      return (code ++ .plain [.store temp], ⟨s, .saved temp⟩)
    else return ([], ⟨s, .computed position⟩)

/-- Assign the value that the given code pushes; the code of an update finds
the old value on the stack. -/
def assign (c : Coder) (op : Op) (used : Bool) (place : Place) (value : Coding Code) :
    Coding Code := do
  match op with
  | .assign =>
    let value ← value
    let store ← place.store c
    if used then return value ++ store ++ (← place.load c) else return value ++ store
  | .postIncrement | .postDecrement =>
    let kept ← if used then place.load c else pure []
    let old ← place.load c
    let value ← value
    return kept ++ old ++ value ++ (← place.store c)
  | _ =>
    let old ← place.load c
    let value ← value
    let store ← place.store c
    if used then return old ++ value ++ store ++ (← place.load c)
    else return old ++ value ++ store

/-- Conjunction or disjunction of two values: the second is evaluated only if
the first does not decide. -/
def logic (c : Coder) (op : Op) (x y : Coding Code) : Coding Code := do
  let slot := c.returnSlot
  let x ← x
  let decided := if op = .logicAnd then Binary.eq else .ne
  let first : Code := x ++ .plain [.store slot, .load slot, .immediate 0, .branch decided false 4,
    .load slot]
  let y ← y
  let skip ← Coding.inReach (jumpBy? (1 + Code.size y))
  return first ++ .plain [skip] ++ y

/-- The choice between two values, on a test with the given comparison. -/
def choice (test : Coding Code) (op : Binary) (a b : Coding Code) : Coding Code := do
  let test ← test
  let a ← a
  let branch ← Coding.inReach (branchBy? op false (2 + Code.size a + 1))
  let b ← b
  let skip ← Coding.inReach (jumpBy? (1 + Code.size b))
  return test ++ .plain [branch] ++ a ++ .plain [skip] ++ b

end Coder

namespace Expr

/-- The comparison of the branch behind a test. -/
def testOp : Expr → Binary
  | op _ (.binary b) _ => if b.isComparison then b else .ne
  | op _ .not _ => .eq
  | _ => .ne

mutual

/-- The code of an expression for a goal. -/
def code (c : Coder) (goal : Goal) : Expr → Coding Code
  | number _ n => return Coder.reachPure goal (.plain [.immediate n])
  | fixed _ f => return Coder.reachPure goal (.plain [.immediate (c.settings.scaled f)])
  | placeholder _ => return Coder.reachPure goal []
  | var info v =>
    if goal = .effect then return []
    else do
      let s ← v.stored
      if s.size ≠ 1 then semantic .arrayInExpression info.span
      else return Coder.reachUsed goal (← Place.load c ⟨s, .known 0⟩)
  | index _ v indices => do
    let s ← v.stored
    let (setup, place) ← c.elementPlace false s indices (positionCode c s.dims 0 1 indices)
    c.reach goal (setup ++ (← place.load c))
  | array info _ => semantic .arrayInExpression info.span
  | call info name callee args => do
    match callee with
    | some (.function s) =>
      if args.length ≠ s.params.length then semantic (.wrongArgumentCount s.name) info.span
      else
        let args ← argumentsCode c s.params args
        let call ← c.callFunction s (goal ≠ .effect) info.span
        return Coder.reachUsed goal (args ++ call)
    | some (.builtin b) =>
      match b.native? with
      | some native =>
        let values ← valuesCode c args
        let call ← c.callOnValues native args.length (goal ≠ .effect) info.span
        return Coder.reachUsed goal (values ++ call)
      | none =>
        match args with
        | [x] => c.reach goal ((← code c .value x) ++ .plain [.unary .abs])
        | _ => malformed .abs
    | none => semantic (.unknownFunction name) info.span
  | op info o args =>
    match o, args with
    | .binary b, [x, y] => do
      let first ← code c .value x
      let second ← code c .value y
      if goal = .test ∧ b.isComparison then return first ++ second
      else c.reach goal (← c.arithmetic b x.ty y.ty first second info.span)
    | .logicAnd, [x, y] | .logicOr, [x, y] => do
      c.reach goal (← c.logic o (code c .value x) (code c .value y))
    | .negate, [x] => do c.reach goal ((← code c .value x) ++ .plain [.unary .neg])
    | .abs, [x] => do c.reach goal ((← code c .value x) ++ .plain [.unary .abs])
    | .bitNot, [x] => do c.reach goal ((← code c .value x) ++ .plain [.unary .bitNot])
    | .not, [x] => do
      let value ← code c .value x
      if goal = .test then return value ++ .plain [.immediate 0]
      else c.reach goal (value ++ .plain [.immediate 0, .binary .eq])
    | .cast ty, [x] => do c.reach goal ((← code c .value x) ++ .plain (c.convert x.ty ty))
    | .conditional, [cond, op _ .conditionalElse [a, b]] => do
      c.reach goal
        (← Coder.choice (code c .test cond) cond.testOp (code c .value a) (code c .value b))
    | .conditional, [_, op _ .conditionalElse _] => malformed .conditionalElse
    | .conditional, [_, branches] => semantic .missingElse branches.span
    | .comma, [a, b] => do
      let first ← code c .effect a
      let second ← code c (if goal = .effect then .effect else .value) b
      return Coder.reachUsed goal (first ++ second)
    | o, [target, value] =>
      if o.isAssignment then do
        let (setup, place) ← placeOf c (goal ≠ .effect || o ≠ .assign) target
        let assigned ← c.assign o (goal ≠ .effect) place (code c .value value)
        return Coder.reachUsed goal (setup ++ assigned)
      else malformed o
    | o, _ => malformed o

/-- The place that an expression stands for, and the code that must come first. -/
def placeOf (c : Coder) (reused : Bool) : Expr → Coding (Code × Place)
  | var _ v => return ([], ⟨← v.stored, .known 0⟩)
  | index _ v indices => do
    let s ← v.stored
    c.elementPlace reused s indices (positionCode c s.dims 0 1 indices)
  | e => semantic .invalidOperand e.span

/-- Push the position in storage order of the element with the given indices:
the index number `k` counts strides of the size given. -/
def positionCode (c : Coder) (dims : List Nat) (k stride : Nat) : List Expr → Coding Code
  | [] => return []
  | e :: es => do
    let index ← code c .value e
    let scale := if stride = 1 then [] else [Coder.pushNat stride, .binary .mult]
    let sum := if k = 0 then [] else [.binary .add]
    let rest ← positionCode c dims (k + 1) (stride * dims[k]?.getD 1) es
    return index ++ .plain (scale ++ sum) ++ rest

/-- Push the values of expressions in turn. -/
def valuesCode (c : Coder) : List Expr → Coding Code
  | [] => return []
  | e :: es => return (← code c .value e) ++ (← valuesCode c es)

/-- Push the arguments of a function in turn, by value or by address. -/
def argumentsCode (c : Coder) : List Param → List Expr → Coding Code
  | p :: ps, e :: es => do
    let first ← if p.byRef then do
        let (setup, place) ← placeOf c false e
        pure (setup ++ (← place.push c))
      else code c .value e
    return first ++ (← argumentsCode c ps es)
  | _, _ => return []

end

end Expr
end RobotScript
