/-
# Calls

A function gets its arguments in its own frame, which starts behind the frame
of the calling function, or behind the module's variables if the caller is no
function. The temporaries in use are saved between the two, as the function
has the same ones at its disposal. A firmware function gets the sizes and the
addresses of its arguments on the stack.

Key definitions: `Coder.callFunction`, `Coder.callNative`, `nativeSizes?`.
-/
import RobotScript.Code.Place
import RobotScript.Machine.Native

namespace RobotScript

open Machine (Instr Binary)

/-- The sizes that a native call pushes for arguments with given size codes
and sizes: that of each group, in order, and those of the arguments with a
size of their own. None if a size does not fit its code. -/
def nativeSizes? (codes : List Int32) (sizes : List Nat) : Option (List Nat × List Nat) :=
  let args := codes.zip sizes
  let groupSize (code : Int32) : Nat := (args.lookup code).getD 0
  let fits (arg : Int32 × Nat) : Bool :=
    if 0 < arg.1 then arg.2 == arg.1.toNatClampNeg else arg.1 == 0 || arg.2 == groupSize arg.1
  if args.all fits then
    some ((Machine.groupsOf codes).map fun g => groupSize (-g),
      (args.filter (·.1 == 0)).map (·.2))
  else none

namespace Coder

/-- The code for each element of a list, one after another. -/
def concat {α : Type} (xs : List α) (f : α → Coding Code) : Coding Code :=
  return (← xs.mapM f).flatten

/-- The code of several steps taken from the last to the first. -/
def lastFirst : List (Coding Code) → Coding Code
  | [] => return []
  | x :: xs => return (← lastFirst xs) ++ (← x)

/-- Call a firmware function with arguments whose addresses the given code
pushes. -/
def callNative (c : Coder) (name : String) (args : List (Coding Code)) (sizes : List Nat)
    (span : Span) : Coding Code :=
  match c.node.native? name with
  | none => semantic (.nativeNotFound name) span
  | some (id, f) =>
    if f.args.length ≠ sizes.length then semantic (.nativeArgumentCount name) span
    else match nativeSizes? f.args sizes with
      | none => semantic (.nativeArgumentSize name) span
      | some (groups, free) => do
        let addresses ← lastFirst args
        return .plain (groups.map pushNat ++ free.reverse.map pushNat) ++ addresses ++
          .plain [.callNative id]

/-- Call a firmware function whose first argument gets the result and whose
other arguments are the `n` words on top of the stack. -/
def callOnValues (c : Coder) (name : String) (n : Nat) (used : Bool) (span : Span) :
    Coding Code := do
  let base ← c.temps (n + 1)
  let pops ← c.popInto base n
  let result := base + n
  let addresses := (result :: (List.range n).map (base + ·)).map fun addr =>
    (return .plain [pushNat addr] : Coding Code)
  let call ← c.callNative name addresses (List.replicate (n + 1) 1) span
  if used then return pops ++ call ++ .plain [.load (← c.address result)]
  else return pops ++ call

/-- The temporaries in use, each with its number from the first one on. -/
def liveTemps (c : Coder) : Coding (List (Nat × Nat)) := do
  let next := (← get).nextTemp
  return (List.range (c.tempTop - next)).map fun k => (k, next + k)

/-- Call a function from a function whose frame has the given size. -/
def callFromFunction (c : Coder) (frame : Nat) (s : Signature) (span : Span) : Coding Code := do
  let fp := c.frameSlot
  let live ← c.liveTemps
  let callee := frame + live.length
  let params ← concat s.params.reverse fun p => do
    let slot ← c.address (callee + p.offset)
    return .plain [.load fp, .storeIndirect slot c.memorySize]
  let save ← concat live fun (k, temp) => do
    let temp ← c.address temp
    let slot ← c.address (frame + k)
    return .plain [.load temp, .load fp, .storeIndirect slot c.memorySize]
  let restore ← concat live fun (k, temp) => do
    let temp ← c.address temp
    let slot ← c.address (frame + k)
    return .plain [.load fp, .loadIndirect slot c.memorySize, .store temp]
  return params ++ save ++ .plain [.load fp, pushNat callee, .binary .add, .store fp] ++
    [.call s.name span] ++ .plain [.load fp, pushNat callee, .binary .sub, .store fp] ++ restore

/-- Call a function from elsewhere. -/
def callFromModule (c : Coder) (s : Signature) (span : Span) : Coding Code := do
  let live ← c.liveTemps
  let callee := c.moduleSize + live.length
  let params ← concat s.params.reverse fun p => do
    return .plain [.store (← c.address (callee + p.offset))]
  let save ← concat live fun (k, temp) => do
    let temp ← c.address temp
    let slot ← c.address (c.moduleSize + k)
    return .plain [.load temp, .store slot]
  let restore ← concat live fun (k, temp) => do
    let temp ← c.address temp
    let slot ← c.address (c.moduleSize + k)
    return .plain [.load slot, .store temp]
  return params ++ save ++ .plain [pushNat callee, .store c.frameSlot] ++ [.call s.name span] ++
    restore

/-- Call a function with the arguments on top of the stack. -/
def callFunction (c : Coder) (s : Signature) (used : Bool) (span : Span) : Coding Code := do
  let call ← match c.frameSize with
    | some frame => c.callFromFunction frame s span
    | none => c.callFromModule s span
  return if used then call ++ .plain [.load c.returnSlot] else call

end Coder
end RobotScript
