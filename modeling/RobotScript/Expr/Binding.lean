/-
# Binding names to storage

Each name in an expression is looked up in the scopes around it: a variable
gets its storage, with the type and the dimensions that go with it, and a
constant is replaced by its value.

Key definitions: `Binding`, `Expr.bind`.
-/
import RobotScript.Expr.Basic
import RobotScript.Fault

namespace RobotScript

/-- What a name stands for. -/
inductive Binding where
  | variable (storage : Storage)
  | constant (value : Cell)
  deriving DecidableEq, Repr, Inhabited

namespace Expr

/-- What a name used at a place stands for. -/
def lookup (scope : String → Option Binding) (name : String) (span : Span) : Result Binding :=
  match scope name with
  | some binding => .ok binding
  | none => semantic (.unknownVariable name) span

mutual

/-- Bind the names of an expression. -/
def bind (scope : String → Option Binding) : Expr → Result Expr
  | var info v => do
    match ← lookup scope v.name info.span with
    | .variable s => return var ⟨info.span, s.ty, s.dims⟩ ⟨v.name, some s⟩
    | .constant n => return int n info.span
  | index info v indices => do
    match ← lookup scope v.name info.span with
    | .variable s => return index info ⟨v.name, some s⟩ (← bindAll scope indices)
    | .constant _ => semantic .invalidOperand info.span
  | array info items => return array info (← bindAll scope items)
  | op info o args => return op info o (← bindAll scope args)
  | call info name callee args => return call info name callee (← bindAll scope args)
  | number info n => return number info n
  | fixed info f => return fixed info f
  | placeholder info => return placeholder info

/-- Bind the names of expressions in turn. -/
def bindAll (scope : String → Option Binding) : List Expr → Result (List Expr)
  | [] => return []
  | e :: es => return (← bind scope e) :: (← bindAll scope es)

end

end Expr
end RobotScript
