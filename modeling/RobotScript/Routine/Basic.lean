/-
# Routines and programs

A routine is a piece of code with an entry of its own: the init code, the
handler of an event, a subroutine or a function. A program is its routines,
the init code first, and the memory its variables take.

Key definitions: `Routine`, `Program`.
-/
import RobotScript.Stmt.Basic

namespace RobotScript

inductive Routine.Kind where
  | init
  | onEvent (name : String)
  | sub (name : String)
  /-- A function; its signature is known once its parameters have storage. -/
  | function (decl : FunctionDecl) (signature : Option Signature)
  deriving Repr, Inhabited

/-- The name by which the routine is called. -/
def Routine.Kind.callName? : Routine.Kind → Option String
  | sub name => some name
  | function decl _ => some decl.name
  | init | onEvent _ => none

/-- The result type of a function. -/
def Routine.Kind.ret? : Routine.Kind → Option Ty
  | function decl _ => some decl.ret
  | _ => none

structure Routine where
  kind : Routine.Kind
  span : Span
  body : List Stmt
  /-- The words a function's frame takes. -/
  frameSize : Nat
  deriving Repr, Inhabited

structure Program where
  routines : List Routine
  /-- The words of variable memory behind which nothing is declared. -/
  moduleSize : Nat
  deriving Repr, Inhabited

end RobotScript
