/-
# Lines

A line is what is read at a time: a whole statement, or one of the parts that
a statement with blocks is made of. `Routine.ofLines` pairs those up.

Key definitions: `Line`, `Opener`.
-/
import RobotScript.Stmt.Basic

namespace RobotScript

/-- What starts a block. -/
inductive Opener where
  | branch (cond : Expr)
  | whenever (cond : Expr)
  | whileLoop (cond : Expr)
  | doLoop
  | rangeFor (var first last : Expr) (step : Option Expr)
  | forLoop (init : List Stmt) (cond step : Option Expr)
  | switch (subject : Expr)
  | block
  | onEvent (name : String)
  | function (decl : FunctionDecl)
  deriving Repr, Inhabited

/-- The opener as a message names it. -/
def Opener.describe : Opener → String
  | branch _ => "if"
  | whenever _ => "when"
  | whileLoop _ => "while"
  | doLoop => "do"
  | rangeFor _ _ _ _ | forLoop _ _ _ => "for"
  | switch _ => "switch"
  | block => "block"
  | onEvent _ => "onevent"
  | function _ => "function definition"

/-- A line that ends the routine before it and starts the next. -/
inductive Header where
  | onEvent (name : String)
  | sub (name : String)
  deriving DecidableEq, Repr, Inhabited

inductive Line where
  | plain (stmt : Stmt)
  | opening (opener : Opener) (span : Span)
  | elseIf (cond : Expr) (span : Span)
  | otherwise (span : Span)
  | closing (span : Span)
  /-- The end of a block with the condition of its loop. -/
  | closingWhile (cond : Expr) (span : Span)
  | header (header : Header) (span : Span)
  deriving Repr, Inhabited

end RobotScript
