/-
# Statements

The statements of both languages, with their blocks paired up. The arms of an
`if` are a chain that ends with an `else` block or without one. A jump out of
a loop names what it leaves by a label, or else leaves the innermost.

Key definitions: `Stmt`, `Arms`, `VarDecl`, `FunctionDecl`.
-/
import RobotScript.Expr.Basic
import RobotScript.Fault

namespace RobotScript

/-- The declaration of a variable. -/
structure VarDecl where
  name : String
  ty : Ty
  /-- The dimensions of an array; one that is left open is that of the initial
  value. -/
  dims : List (Option Expr)
  init : Option Expr
  /-- Where it is kept, once that is known. -/
  storage : Option Storage
  deriving Repr, Inhabited

/-- The declaration of a parameter. -/
structure ParamDecl where
  name : String
  ty : Ty
  dims : List Expr
  byRef : Bool
  span : Span
  deriving Repr, Inhabited

/-- The head of a function definition. -/
structure FunctionDecl where
  name : String
  ret : Ty
  params : List ParamDecl
  deriving Repr, Inhabited

mutual

inductive Stmt where
  | varDecl (span : Span) (decl : VarDecl)
  | constDecl (span : Span) (name : String) (value : Expr)
  | expr (span : Span) (value : Expr)
  | branch (span : Span) (arms : Arms)
  /-- Runs its body each time the condition starts to hold. -/
  | whenever (span : Span) (cond : Expr) (body : List Stmt)
  /-- Loops forever without a condition. -/
  | whileLoop (span : Span) (label : Option String) (cond : Option Expr) (body : List Stmt)
  | doWhile (span : Span) (label : Option String) (body : List Stmt) (cond : Expr)
  | rangeFor (span : Span) (label : Option String) (var first last : Expr) (step : Option Expr)
    (body : List Stmt)
  | forLoop (span : Span) (label : Option String) (init : List Stmt) (cond step : Option Expr)
    (body : List Stmt)
  | switch (span : Span) (label : Option String) (subject : Expr) (body : List Stmt)
  | case (span : Span) (value : Expr)
  | default (span : Span)
  | block (span : Span) (body : List Stmt)
  | label (span : Span) (name : String)
  | goto (span : Span) (name : String)
  | exit (span : Span) (kind : LoopExit) (label : Option String)
  | native (span : Span) (name : String) (args : List Expr)
  | callSub (span : Span) (name : String)
  | emit (span : Span) (event : String) (value : Option Expr)
  | ret (span : Span) (value : Option Expr)
  | empty (span : Span)
  deriving Repr

/-- The arms of an `if`, in order. -/
inductive Arms where
  | done
  /-- The `else` block. -/
  | otherwise (body : List Stmt)
  | arm (span : Span) (cond : Expr) (body : List Stmt) (rest : Arms)
  deriving Repr

end

instance : Inhabited Stmt := ⟨.empty default⟩
instance : Inhabited Arms := ⟨.done⟩

namespace Stmt

/-- The place of the statement. -/
def span : Stmt → Span
  | varDecl s _ | constDecl s _ _ | expr s _ | branch s _ | whenever s _ _ | whileLoop s _ _ _
  | doWhile s _ _ _ | rangeFor s _ _ _ _ _ _ | forLoop s _ _ _ _ _ | switch s _ _ _ | case s _
  | default s | block s _ | label s _ | goto s _ | exit s _ _ | native s _ _ | callSub s _
  | emit s _ _ | ret s _ | empty s => s

end Stmt
end RobotScript
