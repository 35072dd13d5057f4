/-
# Code in the making

The code of a statement is a list of items: instructions, and what is known
only later. Jumps are relative, so code means the same wherever it is put. A
jump out of a loop counts the loops and switches it leaves, and becomes a jump
when the code of its loop is complete; a jump to a label and a call wait for
the whole routine and the whole program. Marks take no words.

Key definitions: `Item`, `Code.size`, `Code.closeLoop`, `Code.resolveGotos`,
`Code.words`.
-/
import RobotScript.Fault
import RobotScript.Machine.Instruction

namespace RobotScript

open Machine (Instr Binary)

inductive Item where
  | instr (i : Instr)
  /-- A call of a routine, and the place of the call. -/
  | call (name : String) (span : Span)
  | goto (label : String) (span : Span)
  /-- A jump out of the loop or switch at a depth, the innermost one at `0`. -/
  | exit (kind : LoopExit) (depth : Nat)
  | label (name : String)
  /-- The start of the code of a statement. -/
  | mark (span : Span)
  deriving DecidableEq, Repr, Inhabited

abbrev Code := List Item

/-- The number of words of the item. -/
def Item.size : Item → Nat
  | instr i => i.length
  | call _ _ | goto _ _ | exit _ _ => 1
  | label _ | mark _ => 0

/-- A distance as the offset of a jump; none if it is too far. -/
def jumpOffset? (distance : Int) : Option Cell :=
  if -0x800 ≤ distance ∧ distance < 0x800 then some (Int16.ofInt distance) else none

/-- A distance as the offset of a branch; none if it is too far. -/
def branchOffset? (distance : Int) : Option Cell :=
  if -0x8000 ≤ distance ∧ distance < 0x8000 then some (Int16.ofInt distance) else none

/-- A jump to a distance from itself; none if that is too far. -/
def jumpBy? (distance : Int) : Option Instr := (jumpOffset? distance).map .jump

/-- A branch to a distance from itself; none if that is too far. -/
def branchBy? (op : Binary) (edge : Bool) (distance : Int) : Option Instr :=
  (branchOffset? distance).map (.branch op edge)

namespace Code

/-- Plain instructions. -/
def plain (is : List Instr) : Code := is.map .instr

/-- The number of words of the code. -/
def size (c : Code) : Nat := c.foldr (fun i n => i.size + n) 0

@[simp] theorem size_nil : size [] = 0 := rfl

@[simp] theorem size_cons (i : Item) (c : Code) : size (i :: c) = i.size + size c := rfl

@[simp] theorem size_append (c d : Code) : size (c ++ d) = size c + size d := by
  induction c with
  | nil => rw [List.nil_append, size_nil, Nat.zero_add]
  | cons i c ih => rw [List.cons_append, size_cons, size_cons, ih, Nat.add_assoc]

/-- The code of a loop from the address `here` on, with the jumps out of it
resolved: `leave` goes to `stop` and `again` to `next`. None if one of them is
too far. -/
def closeLoop (next stop : Nat) : Nat → Code → Option Code
  | _, [] => some []
  | here, .exit kind 0 :: c => do
    let target := match kind with
      | .leave => stop
      | .again => next
    let i ← jumpBy? ((target : Int) - here)
    return .instr i :: (← closeLoop next stop (here + 1) c)
  | here, .exit kind (d + 1) :: c => return .exit kind d :: (← closeLoop next stop (here + 1) c)
  | here, item :: c => return item :: (← closeLoop next stop (here + item.size) c)

/-- The items from the address `here` on, each with its address. -/
def addressed : Nat → Code → List (Nat × Item)
  | _, [] => []
  | here, item :: c => (here, item) :: addressed (here + item.size) c

/-- The address of a label in code from the address `here` on. -/
def labelAddress? (name : String) : Nat → Code → Option Nat
  | _, [] => none
  | here, item :: c => if item = .label name then some here else labelAddress? name (here + item.size) c

/-- The code from the address `here` on with its jumps to labels resolved, given
the addresses of the labels. -/
def resolveGotos (labels : String → Option Nat) : Nat → Code → Result Code
  | _, [] => return []
  | here, .goto name span :: c => do
    match labels name with
    | none => semantic (.unknownLabel (String.ofList (name.toList.takeWhile (· != '@')))) span
    | some target =>
      match jumpBy? ((target : Int) - here) with
      | none => semantic .codeTooLarge span
      | some i => return .instr i :: (← resolveGotos labels (here + 1) c)
  | here, item :: c => return item :: (← resolveGotos labels (here + item.size) c)

/-- The words of code whose jumps are resolved; a call has an empty operand
until the program is linked. -/
def words : Code → List Word
  | [] => []
  | .instr i :: c => i.encode ++ words c
  | .call _ _ :: c => (Instr.callSub 0).encode ++ words c
  | .goto _ _ :: c | .exit _ _ :: c => (Instr.jump 0).encode ++ words c
  | .label _ :: c | .mark _ :: c => words c

@[simp] theorem length_words (c : Code) : (words c).length = size c := by
  induction c with
  | nil => rfl
  | cons item c ih =>
    cases item <;> simp [words, Item.size, ih, Instr.length]

theorem words_append (c d : Code) : words (c ++ d) = words c ++ words d := by
  induction c with
  | nil => rfl
  | cons item c ih => cases item <;> simp [words, ih]

end Code
end RobotScript
