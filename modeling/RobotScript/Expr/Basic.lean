/-
# Expressions

An expression tree as it is written, bound to storage, typed and folded: the
stages work on one type of tree and fill in what `Info` and `Variable` leave
open. The items of an array stand in storage order, column by column.

Key definitions: `Expr`, `Expr.size`, `Storage`, `Signature`.
-/
import RobotScript.Text.Span
import RobotScript.Expr.Builtin

namespace RobotScript

/-- How the word of a variable is found. -/
inductive Addressing where
  /-- At a fixed address of the variable memory. -/
  | absolute
  /-- At an offset from the frame of the current function. -/
  | frame
  /-- At the address that a slot of the current frame holds. -/
  | reference
  deriving DecidableEq, Repr, Inhabited

/-- Where a variable is kept. -/
structure Storage where
  offset : Nat
  /-- The dimensions of an array, none for a single word. -/
  dims : List Nat
  ty : Ty
  mode : Addressing
  deriving DecidableEq, Repr, Inhabited

/-- The number of words that dimensions span: one without any. -/
def volume (dims : List Nat) : Nat := dims.foldr (· * ·) 1

/-- The number of words that are counted for dimensions. -/
def extent (dims : List Nat) : Nat := counted (volume dims)

/-- The number of words of the variable. -/
def Storage.size (s : Storage) : Nat := extent s.dims

theorem Storage.size_eq {s : Storage} (h : volume s.dims < 0x10000000000000000) :
    s.size = volume s.dims := counted_of_lt h

/-- A name in an expression, with its storage once that is known. -/
structure Variable where
  name : String
  storage : Option Storage
  deriving DecidableEq, Repr, Inhabited

/-- A parameter of a function. -/
structure Param where
  name : String
  ty : Ty
  dims : List Nat
  /-- Whether the function gets the address of its argument. -/
  byRef : Bool
  /-- The frame slot of the function it is passed in. -/
  offset : Nat
  deriving DecidableEq, Repr, Inhabited

/-- The number of words of an argument. -/
def Param.size (p : Param) : Nat := extent p.dims

/-- What callers know about a function. -/
structure Signature where
  name : String
  ret : Ty
  params : List Param
  deriving DecidableEq, Repr, Inhabited

/-- What a call stands for. -/
inductive Callee where
  | function (signature : Signature)
  | builtin (b : Builtin)
  deriving DecidableEq, Repr, Inhabited

/-- What is known about the value of an expression, and its place. -/
structure Info where
  span : Span
  ty : Ty
  /-- The dimensions of an array value, none for a single word. -/
  dims : List Nat
  deriving DecidableEq, Repr, Inhabited

/-- What is known about a single word. -/
def Info.scalar (span : Span) (ty : Ty) : Info := ⟨span, ty, []⟩

/-- What is known about a value that is just read. -/
def Info.bare (span : Span) : Info := .scalar span .undefined

inductive Expr where
  | number (info : Info) (value : Cell)
  | fixed (info : Info) (value : Float)
  | var (info : Info) (v : Variable)
  | index (info : Info) (v : Variable) (indices : List Expr)
  | array (info : Info) (items : List Expr)
  | op (info : Info) (op : Op) (args : List Expr)
  | call (info : Info) (name : String) (callee : Option Callee) (args : List Expr)
  /-- The value the machine's stack already holds: the old value of the
  target of an update. -/
  | placeholder (info : Info)
  deriving Repr, Inhabited

namespace Expr

def info : Expr → Info
  | number i _ | fixed i _ | var i _ | index i _ _ | array i _ | op i _ _ | call i _ _ _
  | placeholder i => i

def withInfo (i : Info) : Expr → Expr
  | number _ n => number i n
  | fixed _ f => fixed i f
  | var _ v => var i v
  | index _ v indices => index i v indices
  | array _ items => array i items
  | op _ o args => op i o args
  | call _ name callee args => call i name callee args
  | placeholder _ => placeholder i

def span (e : Expr) : Span := e.info.span
def ty (e : Expr) : Ty := e.info.ty
def dims (e : Expr) : List Nat := e.info.dims

/-- The expression with another type. -/
def withTy (e : Expr) (ty : Ty) : Expr := e.withInfo { e.info with ty }

/-- A number of type `int`. -/
def int (n : Cell) (span : Span) : Expr := number (.scalar span .int) n

/-- A truth value. -/
def bool (b : Bool) (span : Span) : Expr := number (.scalar span .bool) (if b then 1 else 0)

/-- A fixed-point literal. -/
def real (f : Float) (span : Span) : Expr := fixed (.scalar span .fixed) f

/-- The number of words of the value. -/
def size (e : Expr) : Nat := if e.ty = .void then 0 else extent e.dims

/-- Whether the value is a single word. -/
def isScalar (e : Expr) : Bool := e.size == 1

def isLiteral : Expr → Bool
  | number _ _ | fixed _ _ => true
  | _ => false

/-- The value of a whole number. -/
def number? : Expr → Option Cell
  | number _ n => some n
  | _ => none

/-- The truth of a literal: whether it differs from zero. -/
def truth? : Expr → Option Bool
  | number _ n => some (n != 0)
  | fixed _ f => some (f != 0.0)
  | _ => none

/-- Whether the expression can be written to. -/
def isPlace : Expr → Bool
  | var _ _ | index _ _ _ => true
  | _ => false

end Expr
end RobotScript
