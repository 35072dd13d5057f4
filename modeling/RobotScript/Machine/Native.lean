/-
# Functions of the firmware

A native call finds on the stack the addresses of its arguments, the first on
top, below them the size of each argument of code `0` in order, and below
those the size of each group, the last group on top. The machine knows nine
functions that work on whole arguments word by word; any other is a fault.

Key definitions: `popCall`, `callNative`.
-/
import RobotScript.Machine.State

namespace RobotScript.Machine

/-- Pop `n` words as unsigned numbers, first popped first. -/
def popNats : Nat → Exec (List Nat)
  | 0 => pure []
  | n + 1 => do
    let value ← Exec.pop
    let rest ← popNats n
    pure (value.toUInt16.toNat :: rest)

/-- The group among groups in ascending order, once. -/
def insertGroup (g : Int32) : List Int32 → List Int32
  | [] => [g]
  | h :: gs => if g < h then g :: h :: gs else if g = h then h :: gs else h :: insertGroup g gs

/-- The group numbers of a signature, each once, in ascending order. -/
def groupsOf (args : List Int32) : List Int32 :=
  (args.filter (· < 0)).foldr (fun code gs => insertGroup (-code) gs) []

/-- The size of each argument, given those of the groups and, in order, those
of the arguments that have one of their own. -/
def argumentSizes (groups : List (Int32 × Nat)) : List Int32 → List Nat → List Nat
  | [], _ => []
  | code :: codes, free =>
    if code = 0 then free.headD 0 :: argumentSizes groups codes free.tail
    else if 0 < code then code.toNatClampNeg :: argumentSizes groups codes free
    else (groups.lookup (-code)).getD 0 :: argumentSizes groups codes free

/-- Pop the addresses and the sizes of the arguments of a call. -/
def popCall (args : List Int32) : Exec (List Nat × List Nat) := do
  let addrs ← popNats args.length
  let free ← popNats (args.countP (· == 0))
  let groups := groupsOf args
  let sizes ← popNats groups.length
  pure (addrs, argumentSizes (groups.reverse.zip sizes) args free)

/-- The functions the machine knows. -/
inductive NativeKind where
  | copy
  | fill
  | add
  | sub
  | min
  | max
  | clamp
  | muldiv
  | rand
  deriving DecidableEq, Repr

def NativeKind.ofName? : String → Option NativeKind
  | "math.copy" => some copy
  | "math.fill" => some fill
  | "math.add" => some add
  | "math.sub" => some sub
  | "math.min" => some min
  | "math.max" => some max
  | "math.clamp" => some clamp
  | "math.muldiv" => some muldiv
  | "math.rand" => some rand
  | _ => none

/-- The random number after a given one. -/
def nextRandom (seed : Word) : Word := seed * 25173 + 13849

/-- The word `i` of argument `k` of a call. -/
def readArgument (name : String) (addrs : List Nat) (k i : Nat) : Exec Cell :=
  match addrs[k]? with
  | some addr => Exec.read (addr + i)
  | none => throw (.unknownNative name)

/-- The word that a function puts at position `i` of its first argument. -/
def nativeWord (name : String) (addrs : List Nat) (kind : NativeKind) (i : Nat) : Exec Cell := do
  let arg := readArgument name addrs
  match kind with
  | .copy => arg 1 i
  | .fill => arg 1 0
  | .add => do
    let a ← arg 1 i
    let b ← arg 2 i
    pure (a + b)
  | .sub => do
    let a ← arg 1 i
    let b ← arg 2 i
    pure (a - b)
  | .min => do
    let a ← arg 1 i
    let b ← arg 2 i
    pure (if a ≤ b then a else b)
  | .max => do
    let a ← arg 1 i
    let b ← arg 2 i
    pure (if a ≤ b then b else a)
  | .clamp => do
    let x ← arg 1 i
    let lo ← arg 2 i
    let hi ← arg 3 i
    let raised := if x ≤ lo then lo else x
    pure (if raised ≤ hi then raised else hi)
  | .muldiv => do
    let a ← arg 1 i
    let b ← arg 2 i
    let c ← arg 3 i
    let s ← get
    match Binary.div.eval (a.toInt32 * b.toInt32) c.toInt32 with
    | some value => pure (toCell value)
    | none => throw (.divisionByZero s.pc)
  | .rand => do
    modify fun s => { s with seed := nextRandom s.seed }
    let s ← get
    pure s.seed.toInt16

/-- Put the words `i`, `i + 1`, … of a result, `n` in all, from `dest + i` on. -/
def writeNative (word : Nat → Exec Cell) (dest i : Nat) : Nat → Exec Unit
  | 0 => pure ()
  | n + 1 => do
    let value ← word i
    Exec.write (dest + i) value
    writeNative word dest (i + 1) n

/-- Call the function with a given id. -/
def callNative (node : Node) (id : Nat) : Exec Unit := do
  match node.nativeFunctions[id]? with
  | none => throw (.unknownNative s!"#{id}")
  | some native => do
    let (addrs, sizes) ← popCall native.args
    match NativeKind.ofName? native.name with
    | none => throw (.unknownNative native.name)
    | some kind => do
      -- the word to fill with is read once, before the first write
      let word : Nat → Exec Cell ←
        if kind = .fill then do
          let value ← readArgument native.name addrs 1 0
          pure fun _ => pure value
        else pure (nativeWord native.name addrs kind)
      writeNative word (addrs.headD 0) 0 (sizes.headD 0)

end RobotScript.Machine
