/-
# Scopes and the layout of memory

Names and labels are declared in nested scopes. A variable outside functions
takes the next free words of the variable memory and keeps them for good; one
in a function takes words of the function's frame, which are free again at the
end of its block.

Key definitions: `Scope`, `Layout`, `Layout.enclosed`, `Layout.reserve`.
-/
import RobotScript.Expr.Binding
import RobotScript.Stmt.Basic

namespace RobotScript

structure Scope where
  /-- Tells scopes apart for as long as the program is laid out. -/
  id : Nat
  names : List (String × Binding)
  labels : List String
  deriving Repr, Inhabited

/-- A function frame in the making. -/
structure Frame where
  /-- The words in use. -/
  top : Nat
  /-- The most words that were in use at a time. -/
  high : Nat
  deriving DecidableEq, Repr, Inhabited

/-- The scopes that are open and the memory that is taken. -/
structure Layout where
  /-- The open scopes, innermost first. -/
  scopes : List Scope
  /-- The id of the next scope. -/
  nextId : Nat
  /-- The words of variable memory in use. -/
  moduleTop : Nat
  /-- The frame of the function being laid out. -/
  frame : Option Frame
  deriving Repr, Inhabited

/-- A step of laying out a program. -/
abbrev Laying := StateT Layout Result

namespace Layout

/-- The variables of a node from an offset on, the last one first, as a later
one hides an earlier one of its name. -/
def nodeNames (offset : Nat) (names : List (String × Binding)) :
    List NodeVariable → List (String × Binding)
  | [] => names
  | v :: vs =>
    let storage : Storage := ⟨offset, if 1 < v.size then [v.size] else [], .int, .absolute⟩
    nodeNames (counted (offset + v.size)) ((v.name, .variable storage) :: names) vs

/-- The layout before any declaration: the variables of the node. -/
def start (node : Node) : Layout where
  scopes := [⟨0, nodeNames 0 [] node.predefined, []⟩]
  nextId := 1
  moduleTop := node.variablesSize
  frame := none

/-- What a name stands for in the innermost scope that declares it. -/
def lookup? (l : Layout) (name : String) : Option Binding :=
  l.scopes.findSome? fun s => s.names.lookup name

/-- The layout with another scope open. -/
def pushScope (l : Layout) : Layout :=
  { l with scopes := ⟨l.nextId, [], []⟩ :: l.scopes, nextId := l.nextId + 1 }

/-- Declare a name in the innermost scope. -/
def declare (name : String) (binding : Binding) (span : Span) : Laying Unit := do
  let l ← get
  match l.scopes with
  | [] => return ()
  | s :: ss =>
    if (s.names.lookup name).isSome then semantic (.duplicateVariable name) span
    else set { l with scopes := { s with names := (name, binding) :: s.names } :: ss }

/-- Declare a label in the innermost scope. -/
def declareLabel (name : String) (span : Span) : Laying Unit := do
  let l ← get
  match l.scopes with
  | [] => return ()
  | s :: ss =>
    if s.labels.contains name then semantic (.duplicateLabel name) span
    else set { l with scopes := { s with labels := name :: s.labels } :: ss }

/-- Take words of the function's frame. -/
def reserveFrame (f : Frame) (size : Nat) : Laying Nat := do
  let top := counted (f.top + size)
  modify fun l => { l with frame := some ⟨top, max f.high top⟩ }
  return f.top

/-- Take words for a variable declared at a place. -/
def reserve (node : Node) (size : Nat) (span : Span) : Laying (Nat × Addressing) := do
  let l ← get
  match l.frame with
  | some f => return (← reserveFrame f size, .frame)
  | none =>
    if node.returnSlot < counted (l.moduleTop + size) then semantic .outOfMemory span
    else
      set { l with moduleTop := counted (l.moduleTop + size) }
      return (l.moduleTop, .absolute)

/-- Close what was opened since an earlier layout: its scopes, if blocks have
any, are the open ones again, and the words of the frame taken since are
free. -/
def closeTo (before : Layout) (blockScoping : Bool) (l : Layout) : Layout :=
  { l with
    scopes := if blockScoping then before.scopes else l.scopes
    frame := match l.frame, before.frame with
      | some f, some b => some ⟨b.top, f.high⟩
      | f, _ => f }

/-- Lay out a block. -/
def enclosed {α : Type} (blockScoping : Bool) (x : Laying α) : Laying α := do
  let before ← get
  if blockScoping then modify pushScope
  let a ← x
  modify (closeTo before blockScoping)
  return a

/-- A label made unique by the scope it is declared in. -/
def mangle (name : String) (id : Nat) : String := name ++ "@" ++ toString id

/-- The label that a name means at a place; `own` says whether the routine has
a scope of its own, as labels of the outermost scope then belong to another. -/
def labelName (own : Bool) (name : String) (span : Span) : Laying String := do
  let l ← get
  let visible := if own then l.scopes.dropLast else l.scopes
  match visible.find? fun s => s.labels.contains name with
  | some s => return mangle name s.id
  | none => semantic (.unknownLabel name) span

end Layout
end RobotScript
