/-
# Steps of the machine

What a step does at an instruction that stands at the program counter: the
state it leads to, or the fault and the state that this leaves. Between two
changes of the program counter the machine pushes and pops words and writes to
memory, so a relation that allows these holds along every such computation,
also along one that ends in a fault.

Key definitions: `Exec.Along`, `Frees`, `State.Past`.
Key theorems: `callNative_along`, `Instr.Stands.onward`,
`Instr.Stands.step_loadIndirect`, `Instr.Stands.step_storeIndirect`.
-/
import RobotScript.Proofs.Execution

namespace RobotScript
namespace Machine

variable {node : Node} {m : State} {held : Bool}

/-! ### From a state to a later one -/

namespace Exec

variable {α β : Type} {R : State → State → Prop}

/-- The state that a computation leaves, whether it ends in a fault or not. -/
def finish (x : Exec α) (s : State) : State :=
  match x.run s with
  | .ok _ s' | .error _ s' => s'

/-- From every state, the computation comes to one that is related to it. -/
def Along (R : State → State → Prop) (x : Exec α) : Prop := ∀ s : State, R s (x.finish s)

end Exec

/-- The relation allows what computations do without leaving an instruction;
they write to the words `W` only. -/
structure Frees (W : Nat → Prop) (R : State → State → Prop) : Prop where
  refl (s : State) : R s s
  trans {s s' s'' : State} (h : R s s') (h' : R s' s'') : R s s''
  pushed (s : State) (v : Cell) (hroom : s.stack.length < stackSize) : R s { s with stack := v :: s.stack }
  popped (s : State) {v : Cell} {rest : List Cell} (hs : s.stack = v :: rest) : R s { s with stack := rest }
  written (s : State) {a : Nat} (ha : W a) (v : Cell) : R s (s.setWord a v)
  seeded (s : State) (n : Word) : R s { s with seed := n }

namespace Frees

open Exec

variable {α β : Type} {W : Nat → Prop} {R : State → State → Prop}

section

variable (hR : Frees W R)

include hR

theorem along_pure (a : α) : Along R (pure a : Exec α) := hR.refl

theorem along_throw (e : RunFault) : Along R (throw e : Exec α) := hR.refl

theorem along_get : Along R (get : Exec State) := hR.refl

/-- What follows is looked at only from the states that the first part leaves. -/
theorem along_bind_from {x : Exec α} {f : α → Exec β} {s : State} (hx : R s (x.finish s))
    (hf : ∀ a s', x.run s = .ok a s' → R s' ((f a).finish s')) : R s ((x >>= f).finish s) := by
  unfold finish at hx ⊢
  rw [EStateM.run_bind]
  cases hrun : x.run s with
  | error e s' =>
    rw [hrun] at hx
    exact hx
  | ok a s' =>
    rw [hrun] at hx
    exact hR.trans hx (hf a s' hrun)

theorem along_bind {x : Exec α} {f : α → Exec β} (hx : Along R x) (hf : ∀ a, Along R (f a)) :
    Along R (x >>= f) :=
  fun s => hR.along_bind_from (hx s) fun a s' _ => hf a s'

/-- A computation that starts by looking at the state. -/
theorem along_get_bind {f : State → Exec β} (hf : ∀ s, R s ((f s).finish s)) : Along R (get >>= f) := by
  intro s
  refine hR.along_bind_from (hR.refl s) fun s0 s' hs => ?_
  cases hs
  exact hf _

theorem along_push (v : Cell) : Along R (push v) := by
  refine hR.along_get_bind fun s => ?_
  by_cases hfull : stackSize ≤ s.stack.length
  · rw [if_pos hfull]
    exact hR.refl s
  · rw [if_neg hfull]
    exact hR.pushed s v (Nat.lt_of_not_le hfull)

theorem along_pop : Along R pop := by
  intro s
  unfold finish
  rw [run_pop]
  cases hstack : s.stack with
  | nil => exact hR.refl s
  | cons v rest => exact hR.popped s hstack

theorem along_read (addr : Nat) : Along R (read addr) := by
  refine hR.along_bind hR.along_get fun s => ?_
  split
  · exact hR.along_pure _
  · exact hR.along_throw _

theorem along_write {addr : Nat} (ha : W addr) (v : Cell) : Along R (write addr v) := by
  refine hR.along_bind hR.along_get fun s => ?_
  split
  · exact fun s => hR.written s ha v
  · exact hR.along_bind hR.along_get fun _ => hR.along_throw _

theorem along_fetch (addr : Nat) : Along R (fetch addr) := by
  refine hR.along_bind hR.along_get fun s => ?_
  split
  · exact hR.along_pure _
  · exact hR.along_throw _

theorem along_popIndex (base : Nat) (size : Word) : Along R (popIndex base size) := by
  refine hR.along_bind hR.along_pop fun index => hR.along_bind hR.along_get fun s => ?_
  dsimp only
  split
  · exact hR.along_pure _
  · exact hR.along_throw _

theorem along_popBinary (op : Binary) : Along R (popBinary op) := by
  refine hR.along_bind hR.along_pop fun b => hR.along_bind hR.along_pop fun a => ?_
  refine hR.along_bind hR.along_get fun s => ?_
  split
  · exact hR.along_pure _
  · exact hR.along_throw _

theorem along_readMany : ∀ n addr, Along R (readMany addr n)
  | 0, _ => hR.along_pure _
  | n + 1, addr => hR.along_bind (hR.along_read addr) fun _ =>
    hR.along_bind (along_readMany n (addr + 1)) fun _ => hR.along_pure _

/-! ### Functions of the firmware -/

theorem along_popNats : ∀ n, Along R (popNats n)
  | 0 => hR.along_pure _
  | n + 1 => hR.along_bind hR.along_pop fun _ => hR.along_bind (along_popNats n) fun _ => hR.along_pure _

theorem along_popCall (args : List Int32) : Along R (popCall args) :=
  hR.along_bind (hR.along_popNats _) fun _ => hR.along_bind (hR.along_popNats _) fun _ =>
    hR.along_bind (hR.along_popNats _) fun _ => hR.along_pure _

theorem along_readArgument (name : String) (addrs : List Nat) (k i : Nat) :
    Along R (readArgument name addrs k i) := by
  unfold readArgument
  split
  · exact hR.along_read _
  · exact hR.along_throw _

theorem along_nativeWord (name : String) (addrs : List Nat) (kind : NativeKind) (i : Nat) :
    Along R (nativeWord name addrs kind i) := by
  have harg (j i : Nat) : Along R (readArgument name addrs j i) := hR.along_readArgument name addrs j i
  cases kind with
  | copy => exact harg 1 i
  | fill => exact harg 1 0
  | add | sub | min | max =>
    exact hR.along_bind (harg 1 i) fun _ => hR.along_bind (harg 2 i) fun _ => hR.along_pure _
  | clamp =>
    exact hR.along_bind (harg 1 i) fun _ => hR.along_bind (harg 2 i) fun _ =>
      hR.along_bind (harg 3 i) fun _ => hR.along_pure _
  | muldiv =>
    refine hR.along_bind (harg 1 i) fun a => hR.along_bind (harg 2 i) fun b => ?_
    refine hR.along_bind (harg 3 i) fun c => hR.along_bind hR.along_get fun s => ?_
    split
    · exact hR.along_pure _
    · exact hR.along_throw _
  | rand => exact hR.along_bind (fun s => hR.seeded s _) fun _ => hR.along_bind hR.along_get fun _ => hR.along_pure _

theorem along_writeNative {word : Nat → Exec Cell} (hword : ∀ i, Along R (word i)) {dest : Nat} :
    ∀ n i, (∀ j, i ≤ j → j < i + n → W (dest + j)) → Along R (writeNative word dest i n)
  | 0, _, _ => hR.along_pure _
  | n + 1, i, hdest => by
    refine hR.along_bind (hword i) fun v => ?_
    refine hR.along_bind (hR.along_write (hdest i (Nat.le_refl i) (by omega)) v) fun _ => ?_
    exact along_writeNative hword n (i + 1) fun j hj hlt => hdest j (by omega) (by omega)

/-- A function of the firmware writes to the words of its first argument. -/
theorem along_callNative (node : Node) {id : Nat} {s : State}
    (hdest : ∀ f addrs sizes s', node.nativeFunctions[id]? = some f →
      (popCall f.args).run s = .ok (addrs, sizes) s' →
      ∀ i < sizes.headD 0, W (addrs.headD 0 + i)) :
    R s ((callNative node id).finish s) := by
  unfold callNative
  split
  · exact hR.refl s
  · rename_i native hnative
    refine hR.along_bind_from (hR.along_popCall native.args s) fun call s' hcall => ?_
    have hwords := hdest native call.1 call.2 s' hnative hcall
    dsimp only
    split
    · exact hR.refl s'
    · rename_i kind _
      have hwrite {word : Nat → Exec Cell} (hword : ∀ i, Along R (word i)) :
          Along R (writeNative word (call.1.headD 0) 0 (call.2.headD 0)) :=
        hR.along_writeNative hword _ 0 fun j _ hj => hwords j (by omega)
      split
      · simp only [pure_bind]
        exact hR.along_bind (hR.along_readArgument _ _ _ _) (fun v => hwrite fun _ => hR.along_pure v) s'
      · simp only [pure_bind]
        exact hwrite (hR.along_nativeWord _ _ _) s'

end

end Frees

/-- The machine goes on `n` words further, with the image and the return
addresses as they were. -/
structure State.Past (n : Nat) (s s' : State) : Prop where
  image : s'.image = s.image
  pc : s'.pc = s.pc + n
  calls : s'.calls = s.calls

theorem State.Past.trans {n n' : Nat} {s s' s'' : State} (h : s.Past n s') (h' : s'.Past n' s'') :
    s.Past (n + n') s'' where
  image := h'.image.trans h.image
  pc := by rw [h'.pc, h.pc, Nat.add_assoc]
  calls := h'.calls.trans h.calls

theorem State.Past.frees : Frees (fun _ => True) (State.Past 0) where
  refl _ := ⟨rfl, rfl, rfl⟩
  trans h h' := h.trans h'
  pushed _ _ _ := ⟨rfl, rfl, rfl⟩
  popped _ _ _ _ := ⟨rfl, rfl, rfl⟩
  written _ _ _ _ := ⟨rfl, rfl, rfl⟩
  seeded _ _ := ⟨rfl, rfl, rfl⟩

namespace Exec

variable {α : Type}

/-- The computation leaves the image as it was, and if it ends well the handler
goes on `n` words further. -/
def Onward (n : Nat) (x : Exec Bool) : Prop := ∀ s : State, match x.run s with
  | .ok more s' => more = true ∧ s.Past n s'
  | .error _ s' => s'.image = s.image

theorem Onward.advance (n : Nat) : Onward n (do advance n; pure true) :=
  fun _ => ⟨rfl, rfl, rfl, rfl⟩

theorem Along.onward {x : Exec α} {f : α → Exec Bool} {n : Nat} (hx : Along (State.Past 0) x)
    (hf : ∀ a, Onward n (f a)) : Onward n (x >>= f) := by
  intro s
  have hxs := hx s
  unfold finish at hxs
  rw [EStateM.run_bind]
  cases hrun : x.run s with
  | error e s' =>
    rw [hrun] at hxs
    exact hxs.image
  | ok a s' =>
    rw [hrun] at hxs
    dsimp only
    have hfs := hf a s'
    cases hrest : (f a).run s' with
    | error e s'' =>
      rw [hrest] at hfs
      exact hfs.trans hxs.image
    | ok more s'' =>
      rw [hrest] at hfs
      exact ⟨hfs.1, Nat.zero_add n ▸ hxs.trans hfs.2⟩

end Exec

/-- Whether the instruction goes on behind itself. -/
def Instr.goesOn : Instr → Bool
  | stop | jump _ | branch _ _ _ | callSub _ | ret => false
  | _ => true

/-- An instruction that goes on behind itself does so wherever it is executed. -/
theorem Instr.run_onward {i : Instr} (hi : i.goesOn = true) : (i.run node held).Onward i.length := by
  have hF := State.Past.frees
  cases i with
  | stop | jump _ | branch _ _ _ | callSub _ | ret => cases hi
  | pushSmall n => exact (hF.along_push _).onward fun _ => .advance 1
  | push n => exact (hF.along_push n).onward fun _ => .advance 2
  | load a => exact (hF.along_read _).onward fun v => (hF.along_push v).onward fun _ => .advance 1
  | store a =>
    exact hF.along_pop.onward fun v => (hF.along_write trivial v).onward fun _ => .advance 1
  | loadIndirect a size =>
    exact (hF.along_popIndex _ size).onward fun addr => (hF.along_read addr).onward fun v =>
      (hF.along_push v).onward fun _ => .advance 2
  | storeIndirect a size =>
    exact (hF.along_popIndex _ size).onward fun addr => hF.along_pop.onward fun v =>
      (hF.along_write trivial v).onward fun _ => .advance 2
  | unary op => exact hF.along_pop.onward fun v => (hF.along_push _).onward fun _ => .advance 1
  | binary op => exact (hF.along_popBinary op).onward fun v => (hF.along_push v).onward fun _ => .advance 1
  | emit id a size =>
    refine (hF.along_readMany _ _).onward fun data => Exec.Along.onward ?_ fun _ => .advance 3
    exact fun s => ⟨rfl, rfl, rfl⟩
  | callNative id =>
    have hnative : Exec.Along (State.Past 0) (Machine.callNative node (id.toNat % 4096)) :=
      fun s => hF.along_callNative node fun _ _ _ _ _ _ _ _ => trivial
    exact hnative.onward fun _ => .advance 1

/-! ### Operations on the state -/

namespace Exec

theorem run_push_eq (v : Cell) (m : State) : (push v).run m =
    if stackSize ≤ m.stack.length then .error (.stackOverflow m.pc) m
    else .ok () { m with stack := v :: m.stack } := by
  rw [push, EStateM.run_bind, EStateM.run_get]
  dsimp only
  split <;> rfl

theorem run_read_eq (a : Nat) (m : State) : (read a).run m = match m.memory[a]? with
    | some w => .ok w m
    | none => .error (.badAddress m.pc a) m := by
  rw [read, EStateM.run_bind, EStateM.run_get]
  dsimp only
  cases m.memory[a]? <;> rfl

theorem run_write_eq (a : Nat) (v : Cell) (m : State) : (write a v).run m =
    if a < m.memory.size then .ok () (m.setWord a v) else .error (.badAddress m.pc a) m := by
  rw [write, EStateM.run_bind, EStateM.run_get]
  dsimp only
  split <;> rfl

/-- An index is taken for what it is without its sign. -/
theorem run_popIndex_cons {base : Nat} {size : Word} {i : Cell} {below : List Cell}
    (h : m.stack = i :: below) : (popIndex base size).run m =
      if i.toUInt16 < size then .ok (base + i.toUInt16.toNat) { m with stack := below }
      else .error (.indexOutOfRange m.pc i.toUInt16 size) { m with stack := below } := by
  rw [popIndex, EStateM.run_bind, run_pop, h]
  dsimp only
  rw [EStateM.run_bind, EStateM.run_get]
  dsimp only
  split <;> rfl

theorem run_popBinary_cons {op : Binary} {a b : Cell} {below : List Cell}
    (h : m.stack = b :: a :: below) : (popBinary op).run m = match op.evalCell a b with
      | some v => .ok v { m with stack := below }
      | none => .error (.divisionByZero m.pc) { m with stack := below } := by
  rw [popBinary, EStateM.run_bind, run_pop, h]
  dsimp only
  rw [EStateM.run_bind, run_pop]
  dsimp only
  rw [EStateM.run_bind, EStateM.run_get]
  dsimp only
  cases op.evalCell a b <;> rfl

end Exec

/-! ### Instructions -/

namespace Instr.Stands

theorem step_load {a : Word} (h : (load a).Stands held m.image m.pc) :
    (Machine.step node).run m = match m.memory[a.toNat % 4096]? with
      | some w =>
        if stackSize ≤ m.stack.length then .error (.stackOverflow m.pc) m
        else .ok true { m with stack := w :: m.stack, pc := m.pc + 1 }
      | none => .error (.badAddress m.pc (a.toNat % 4096)) m := by
  rw [h.step node, Instr.run, EStateM.run_bind, Exec.run_read_eq]
  cases m.memory[a.toNat % 4096]? with
  | none => rfl
  | some w =>
    dsimp only
    rw [EStateM.run_bind, Exec.run_push_eq]
    by_cases hfull : stackSize ≤ m.stack.length
    · simp only [hfull, if_true]
    · simp only [hfull, if_false]
      rfl

variable {below : List Cell}

theorem step_binary {op : Binary} {a b : Cell} (h : (binary op).Stands held m.image m.pc)
    (hstack : m.stack = b :: a :: below) :
    (Machine.step node).run m = match op.evalCell a b with
      | some v =>
        if stackSize ≤ below.length then .error (.stackOverflow m.pc) { m with stack := below }
        else .ok true { m with stack := v :: below, pc := m.pc + 1 }
      | none => .error (.divisionByZero m.pc) { m with stack := below } := by
  rw [h.step node, Instr.run, EStateM.run_bind, Exec.run_popBinary_cons hstack]
  cases op.evalCell a b with
  | none => rfl
  | some v =>
    dsimp only
    rw [EStateM.run_bind, Exec.run_push_eq]
    by_cases hfull : stackSize ≤ below.length
    · simp only [hfull, if_true]
    · simp only [hfull, if_false]
      rfl

/-- Nothing is read for an index that is out of range. -/
theorem step_loadIndirect {a size : Word} {i : Cell} (h : (loadIndirect a size).Stands held m.image m.pc)
    (hstack : m.stack = i :: below) :
    (Machine.step node).run m =
      if i.toUInt16 < size then
        match m.memory[a.toNat % 4096 + i.toUInt16.toNat]? with
        | some w =>
          if stackSize ≤ below.length then .error (.stackOverflow m.pc) { m with stack := below }
          else .ok true { m with stack := w :: below, pc := m.pc + 2 }
        | none =>
          .error (.badAddress m.pc (a.toNat % 4096 + i.toUInt16.toNat)) { m with stack := below }
      else .error (.indexOutOfRange m.pc i.toUInt16 size) { m with stack := below } := by
  rw [h.step node, Instr.run, EStateM.run_bind, Exec.run_popIndex_cons hstack]
  by_cases hi : i.toUInt16 < size
  · simp only [hi, if_true]
    rw [EStateM.run_bind, Exec.run_read_eq]
    dsimp only
    cases m.memory[a.toNat % 4096 + i.toUInt16.toNat]? with
    | none => rfl
    | some w =>
      dsimp only
      rw [EStateM.run_bind, Exec.run_push_eq]
      by_cases hfull : stackSize ≤ below.length
      · simp only [hfull, if_true]
      · simp only [hfull, if_false]
        rfl
  · simp only [hi, if_false]

/-- Nothing is written for an index that is out of range. -/
theorem step_storeIndirect {a size : Word} {i : Cell} (h : (storeIndirect a size).Stands held m.image m.pc)
    (hstack : m.stack = i :: below) :
    (Machine.step node).run m =
      if i.toUInt16 < size then
        match below.head? with
        | some v =>
          if a.toNat % 4096 + i.toUInt16.toNat < m.memory.size then
            .ok true { m.setWord (a.toNat % 4096 + i.toUInt16.toNat) v with
              stack := below.tail, pc := m.pc + 2 }
          else
            .error (.badAddress m.pc (a.toNat % 4096 + i.toUInt16.toNat)) { m with stack := below.tail }
        | none => .error (.stackUnderflow m.pc) { m with stack := below }
      else .error (.indexOutOfRange m.pc i.toUInt16 size) { m with stack := below } := by
  rw [h.step node, Instr.run, EStateM.run_bind, Exec.run_popIndex_cons hstack]
  by_cases hi : i.toUInt16 < size
  · simp only [hi, if_true]
    rw [EStateM.run_bind, Exec.run_pop]
    cases below with
    | nil => rfl
    | cons v rest =>
      simp only [List.head?_cons, List.tail_cons]
      rw [EStateM.run_bind, Exec.run_write_eq]
      by_cases ha : a.toNat % 4096 + i.toUInt16.toNat < m.memory.size
      · simp only [ha, if_true]
        rfl
      · simp only [ha, if_false]
  · simp only [hi, if_false]

/-- A branch goes on behind itself or where it goes to, and an edge branch is
marked. -/
theorem step_branch {op : Binary} {edge : Bool} {o : Cell} {q : Nat}
    (h : (branch op edge o).Stands held m.image m.pc) (hq : (m.pc : Int) + o.toInt = q) :
    match (Machine.step node).run m with
    | .ok more m' => more = true ∧ ∃ x y rest pc image, m.stack = y :: x :: rest ∧
        m' = { m with stack := rest, pc := pc, image := image } ∧ (pc = m.pc + 2 ∨ pc = q) ∧
        (edge = false ∧ image = m.image ∨ edge = true ∧ ∃ held',
          image = m.image.setIfInBounds m.pc
            (markHeld (Opcode.conditionalBranch.word (op.code + 256)) held'))
    | .error _ m' => m'.image = m.image := by
  rw [h.step node, Instr.run, EStateM.run_bind]
  cases hpop : (Exec.popBinary op).run m with
  | error e m' =>
    have hpast := State.Past.frees.along_popBinary op m
    unfold Exec.finish at hpast
    rw [hpop] at hpast
    exact hpast.image
  | ok v m' =>
    obtain ⟨x, y, rest, hstack, -, rfl⟩ := Exec.run_popBinary_ok hpop
    -- marked or not, the machine goes on behind the branch or at its target
    have hgo (image : Array Word) : ∃ pc, (pc = m.pc + 2 ∨ pc = q) ∧
        (if !(v != 0) || (edge && held) then do Exec.jumpBy o.toInt; pure true
          else do Exec.advance 2; pure true : Exec Bool).run { m with stack := rest, image := image } =
            .ok true { m with stack := rest, pc := pc, image := image } := by
      split
      · refine ⟨q, .inr rfl, ?_⟩
        rw [EStateM.run_bind, Exec.run_jumpBy (s := { m with stack := rest, image := image }) hq]
        rfl
      · exact ⟨m.pc + 2, .inl rfl, rfl⟩
    simp only [EStateM.run_bind, EStateM.run_get]
    cases edge with
    | false =>
      obtain ⟨pc, hpc, hrun⟩ := hgo m.image
      simp only [Bool.false_eq_true, if_false] at hrun ⊢
      rw [hrun]
      exact ⟨rfl, x, y, rest, pc, m.image, hstack, rfl, hpc, .inl ⟨trivial, rfl⟩⟩
    | true =>
      obtain ⟨pc, hpc, hrun⟩ := hgo (m.image.setIfInBounds m.pc
        (markHeld (Opcode.conditionalBranch.word (op.code + 256)) (v != 0)))
      simp only [if_true, EStateM.run_bind, EStateM.run_set]
      rw [hrun]
      exact ⟨rfl, x, y, rest, pc, _, hstack, rfl, hpc, .inr ⟨trivial, _, rfl⟩⟩

theorem step_jump {o : Cell} {q : Nat} (h : (jump o).Stands held m.image m.pc) (hlo : -2048 ≤ o.toInt)
    (hhi : o.toInt < 2048) (hq : (m.pc : Int) + o.toInt = q) :
    (Machine.step node).run m = .ok true { m with pc := q } := by
  rw [h.step node, Instr.run, signed12_word _ hlo hhi, EStateM.run_bind, Exec.run_jumpBy hq]
  rfl

theorem step_callSub {a : Word} (h : (callSub a).Stands held m.image m.pc) :
    (Machine.step node).run m = if callDepth ≤ m.calls.length then .error (.stackOverflow m.pc) m
      else .ok true { m with calls := (m.pc + 1) :: m.calls, pc := a.toNat % 4096 } := by
  rw [h.step node, Instr.run, EStateM.run_bind, EStateM.run_get]
  dsimp only
  split <;> rfl

theorem step_ret (h : ret.Stands held m.image m.pc) : (Machine.step node).run m = match m.calls with
    | [] => .ok false m
    | caller :: rest => .ok true { m with calls := rest, pc := caller } := by
  rw [h.step node, Instr.run, EStateM.run_bind, EStateM.run_get]
  dsimp only
  cases m.calls <;> rfl

theorem step_stop (h : stop.Stands held m.image m.pc) : (Machine.step node).run m = .ok false m :=
  h.step node

end Instr.Stands

/-! ### Words that are added -/

theorem Binary.evalCell_add (a b : Cell) : Binary.add.evalCell a b = some (a + b) := by
  show some (toCell (a.toInt32 + b.toInt32)) = some (a + b)
  rw [toCell, Int32.toInt16_add, Int16.toInt16_toInt32, Int16.toInt16_toInt32]

theorem toNat_add_cell (a b : Cell) :
    (a + b).toUInt16.toNat = (a.toUInt16.toNat + b.toUInt16.toNat) % 65536 := by
  rw [Int16.toUInt16_add, UInt16.toNat_add]

end Machine
end RobotScript
