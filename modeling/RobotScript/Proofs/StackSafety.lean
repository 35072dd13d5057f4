/-
# Compiled programs run safely

A machine that runs a compiled program stands at an instruction of its code,
the stack holds the words that the grading of the code says, above those that
each caller left, and every return address is that of an instruction. A step
keeps this or ends in a fault that a program may run into: no instruction
finds too few words, and the program counter never leaves the code. It holds
again at every start of a handler, whatever happened before.

Key definitions: `RunFault.Expected`, `Exec.Takes`, `Code.Charted`, `Running`.
Key theorems: `Running.step`, `Running.runSteps`, `compiled_runs_safely`.
-/
import RobotScript.Proofs.Execution
import RobotScript.Proofs.Linking

namespace RobotScript
namespace Machine

/-- The faults that a compiled program may run into. -/
def RunFault.Expected : RunFault → Prop
  | stepLimit _ | stackOverflow _ | badAddress _ _ | divisionByZero _ | indexOutOfRange _ _ _
  | unknownNative _ => True
  | stackUnderflow _ | unknownInstruction _ _ | badJump _ => False

/-! ### The depth of the stack in a run -/

/-- The state `s'` comes from `s` by going on `n` words, with `k` words on the
stack. -/
structure State.Onward (s : State) (k n : Nat) (s' : State) : Prop where
  depth : s'.stack.length = k
  image : s'.image = s.image
  pc : s'.pc = s.pc + n
  calls : s'.calls = s.calls

theorem State.Onward.trans {s s' s'' : State} {k k' n n' : Nat} (h : s.Onward k n s')
    (h' : s'.Onward k' n' s'') : s.Onward k' (n + n') s'' where
  depth := h'.depth
  image := h'.image.trans h.image
  pc := by rw [h'.pc, h.pc, Nat.add_assoc]
  calls := h'.calls.trans h.calls

namespace Exec

variable {α β : Type} {k k' m n : Nat}

/-- From `s`, the computation ends as in `post` or in an expected fault, which
leaves the image as it was. -/
def Safely (x : Exec α) (s : State) (post : α → State → Prop) : Prop :=
  match x.run s with
  | .ok a s' => post a s'
  | .error e s' => e.Expected ∧ s'.image = s.image

theorem Safely.bind {x : Exec α} {f : α → Exec β} {s : State} {mid : α → State → Prop}
    {post : β → State → Prop} (hx : x.Safely s mid)
    (hf : ∀ a s', mid a s' → s'.image = s.image ∧ (f a).Safely s' post) : (x >>= f).Safely s post := by
  unfold Safely at hx ⊢
  rw [EStateM.run_bind]
  cases hrun : x.run s with
  | error e s' =>
    rw [hrun] at hx
    exact hx
  | ok a s' =>
    rw [hrun] at hx
    obtain ⟨himage, hfa⟩ := hf a s' hx
    unfold Safely at hfa
    rw [himage] at hfa
    exact hfa

/-- The computation finds `k` words on the stack and leaves `k'`. It moves
neither the program counter nor the return addresses. -/
def Takes (k k' : Nat) (x : Exec α) : Prop :=
  ∀ s : State, s.stack.length = k → x.Safely s fun _ s' => s.Onward k' 0 s'

theorem Takes.pure (a : α) : Takes k k (pure a : Exec α) := fun _ hs => ⟨hs, rfl, rfl, rfl⟩

theorem Takes.throw {e : RunFault} (h : e.Expected) : Takes k k' (throw e : Exec α) :=
  fun _ _ => ⟨h, rfl⟩

theorem Takes.get : Takes k k (get : Exec State) := fun _ hs => ⟨hs, rfl, rfl, rfl⟩

theorem Takes.bind {x : Exec α} {f : α → Exec β} (hx : Takes k m x) (hf : ∀ a, Takes m k' (f a)) :
    Takes k k' (x >>= f) := by
  intro s hs
  refine (hx s hs).bind fun a s' hs' => ⟨hs'.image, ?_⟩
  have hfa := hf a s' hs'.depth
  unfold Safely at hfa ⊢
  split at hfa
  · exact hs'.trans hfa
  · exact hfa

/-- A change of what is neither on the stack nor part of the program. -/
theorem Takes.modify {f : State → State} (h : ∀ s : State, s.Onward s.stack.length 0 (f s)) :
    Takes k k (modify f : Exec PUnit) := by
  intro s hs
  unfold Safely
  rw [EStateM.run_modify]
  exact hs ▸ h s

/-- The computation finds `k` words on the stack and leaves `k'`, and the
handler goes on `n` words further. -/
def Proceeds (n k k' : Nat) (x : Exec Bool) : Prop :=
  ∀ s : State, s.stack.length = k → x.Safely s fun more s' => more = true ∧ s.Onward k' n s'

theorem Proceeds.advance (n : Nat) : Proceeds n k k (do advance n; pure true) :=
  fun _ hs => ⟨rfl, hs, rfl, rfl, rfl⟩

theorem Takes.proceed {x : Exec α} {f : α → Exec Bool} (hx : Takes k m x)
    (hf : ∀ a, Proceeds n m k' (f a)) : Proceeds n k k' (x >>= f) := by
  intro s hs
  refine (hx s hs).bind fun a s' hs' => ⟨hs'.image, ?_⟩
  have hfa := hf a s' hs'.depth
  unfold Safely at hfa ⊢
  split at hfa
  · exact ⟨hfa.1, Nat.zero_add n ▸ hs'.trans hfa.2⟩
  · exact hfa

theorem push_takes (v : Cell) : Takes k (k + 1) (push v) := by
  intro s hs
  unfold Safely
  simp only [push, EStateM.run_bind, EStateM.run_get]
  by_cases hfull : stackSize ≤ s.stack.length
  · rw [if_pos hfull]
    exact ⟨trivial, rfl⟩
  · rw [if_neg hfull]
    exact ⟨by rw [List.length_cons, hs], rfl, rfl, rfl⟩

theorem pop_takes : Takes (k + 1) k pop := by
  intro s hs
  unfold Safely
  rw [run_pop]
  cases hstack : s.stack with
  | nil => simp [hstack] at hs
  | cons v rest =>
    rw [hstack, List.length_cons] at hs
    exact ⟨Nat.succ.inj hs, rfl, rfl, rfl⟩

theorem read_takes (addr : Nat) : Takes k k (read addr) := by
  refine Takes.get.bind fun s => ?_
  split
  · exact .pure _
  · exact .throw trivial

theorem write_takes (addr : Nat) (v : Cell) : Takes k k (write addr v) := by
  refine Takes.get.bind fun s => ?_
  split
  · exact .modify fun _ => ⟨rfl, rfl, rfl, rfl⟩
  · exact Takes.get.bind fun _ => .throw trivial

theorem popIndex_takes (base : Nat) (size : Word) : Takes (k + 1) k (popIndex base size) := by
  refine pop_takes.bind fun index => Takes.get.bind fun s => ?_
  dsimp only
  split
  · exact .pure _
  · exact .throw trivial

theorem popBinary_takes (op : Binary) : Takes (k + 2) k (popBinary op) := by
  refine pop_takes.bind fun b => pop_takes.bind fun a => Takes.get.bind fun s => ?_
  split
  · exact .pure _
  · exact .throw trivial

theorem readMany_takes : ∀ n addr, Takes k k (readMany addr n)
  | 0, _ => .pure _
  | n + 1, addr =>
    (read_takes addr).bind fun _ => (readMany_takes n (addr + 1)).bind fun _ => .pure _

end Exec

/-! ### Functions of the firmware -/

section Native

open Exec

variable {k : Nat}

theorem popNats_takes : ∀ n, Takes (n + k) k (popNats n)
  | 0 => by
    rw [Nat.zero_add]
    exact .pure _
  | n + 1 => by
    rw [Nat.add_right_comm]
    exact pop_takes.bind fun _ => (popNats_takes n).bind fun _ => .pure _

/-- What a call finds on the stack is what it takes. -/
theorem popCall_takes (f : NativeFunction) : Takes (f.words + k) k (popCall f.args) := by
  rw [NativeFunction.words, Nat.add_assoc, Nat.add_assoc]
  exact (popNats_takes _).bind fun _ => (popNats_takes _).bind fun _ =>
    (popNats_takes _).bind fun _ => .pure _

theorem readArgument_takes (name : String) (addrs : List Nat) (j i : Nat) :
    Takes k k (readArgument name addrs j i) := by
  unfold readArgument
  split
  · exact read_takes _
  · exact .throw trivial

theorem nativeWord_takes (name : String) (addrs : List Nat) (kind : NativeKind) (i : Nat) :
    Takes k k (nativeWord name addrs kind i) := by
  have harg (j i : Nat) : Takes k k (readArgument name addrs j i) :=
    readArgument_takes name addrs j i
  cases kind with
  | copy => exact harg 1 i
  | fill => exact harg 1 0
  | add | sub | min | max => exact (harg 1 i).bind fun _ => (harg 2 i).bind fun _ => .pure _
  | clamp =>
    exact (harg 1 i).bind fun _ => (harg 2 i).bind fun _ => (harg 3 i).bind fun _ => .pure _
  | muldiv =>
    refine (harg 1 i).bind fun a => (harg 2 i).bind fun b => (harg 3 i).bind fun c => ?_
    refine Takes.get.bind fun s => ?_
    split
    · exact .pure _
    · exact .throw trivial
  | rand =>
    unfold nativeWord
    refine Takes.bind ?_ fun _ => Takes.get.bind fun _ => .pure _
    exact .modify fun _ => ⟨rfl, rfl, rfl, rfl⟩

theorem writeNative_takes {word : Nat → Exec Cell} (hword : ∀ i, Takes k k (word i)) (dest : Nat) :
    ∀ n i, Takes k k (writeNative word dest i n)
  | 0, _ => .pure _
  | n + 1, i =>
    (hword i).bind fun v => (write_takes _ v).bind fun _ => writeNative_takes hword dest n (i + 1)

theorem callNative_takes {node : Node} {id : Nat} {f : NativeFunction}
    (h : node.nativeFunctions[id]? = some f) : Takes (f.words + k) k (callNative node id) := by
  unfold callNative
  rw [h]
  refine (popCall_takes f).bind fun call => ?_
  dsimp only
  split
  · exact .throw trivial
  · rename_i kind _
    have hwrite {word : Nat → Exec Cell} (hword : ∀ i, Takes k k (word i)) :
        Takes k k (writeNative word (call.1.headD 0) 0 (call.2.headD 0)) :=
      writeNative_takes hword _ _ _
    split
    · simp only [pure_bind]
      exact (readArgument_takes _ _ _ _).bind fun v => hwrite fun _ => .pure v
    · simp only [pure_bind]
      exact hwrite (nativeWord_takes _ _ _)

end Native

/-! ### Instructions -/

namespace Instr

open Exec

variable {node : Node} {held : Bool} {i : Instr} {m : Nat}

/-- An instruction that goes on behind itself. -/
theorem run_straight (h : i.isStraight = true) :
    Proceeds i.length (m + i.takes) (m + i.leaves) (i.run node held) := by
  cases i with
  | pushSmall n => exact (push_takes _).proceed fun _ => .advance 1
  | push n => exact (push_takes n).proceed fun _ => .advance 2
  | load a => exact (read_takes _).proceed fun v => (push_takes v).proceed fun _ => .advance 1
  | store a => exact pop_takes.proceed fun v => (write_takes _ v).proceed fun _ => .advance 1
  | loadIndirect a size =>
    exact (popIndex_takes _ size).proceed fun addr => (read_takes addr).proceed fun v =>
      (push_takes v).proceed fun _ => .advance 2
  | storeIndirect a size =>
    exact (popIndex_takes _ size).proceed fun addr => pop_takes.proceed fun v =>
      (write_takes addr v).proceed fun _ => .advance 2
  | unary op => exact pop_takes.proceed fun v => (push_takes _).proceed fun _ => .advance 1
  | binary op => exact (popBinary_takes op).proceed fun v => (push_takes v).proceed fun _ => .advance 1
  | emit id a size =>
    refine (readMany_takes _ _).proceed fun data => Takes.proceed ?_ fun _ => .advance 3
    exact .modify fun _ => ⟨rfl, rfl, rfl, rfl⟩
  | stop | jump _ | branch _ _ _ | callNative _ | callSub _ | ret => simp [isStraight] at h

theorem run_callNative {id : Word} {f : NativeFunction}
    (h : node.nativeFunctions[id.toNat % 4096]? = some f) :
    Proceeds 1 (m + f.words) m ((callNative id).run node held) := by
  rw [Nat.add_comm]
  exact (callNative_takes h).proceed fun _ => .advance 1

end Instr
end Machine

/-! ### Complete code -/

open Machine (Instr)

namespace Code

/-- The depths `D` fit complete code that stands at `base`: each jump goes to an
instruction where the stack has the depth it leaves, and each call to one where
it is empty. -/
structure Charted (G : Ground) (base : Nat) (D : Nat → Nat) (c : Code) : Prop where
  graded : ∀ p i, At c p i → i.Graded G (fun t n => ∃ q : Nat, t = q ∧ Start c q ∧ D q = n) D p
  onward : ∀ p i, At c p i → i ≠ .stop → i ≠ .ret → (∀ o, i ≠ .jump o) → Start c (p + i.length)
  calls : ∀ a, G.sub a → ∃ q, a.toNat % 4096 = base + q ∧ Start c q ∧ D q = 0

/-- Code that fits depths, completed by an instruction that ends it. -/
theorem Graded.charted {G : Ground} {base : Nat} {D : Nat → Nat} {c : Code} {i : Instr}
    (hg : Graded G 0 nowhere D c) (hc : Settled c) (hi : i = .ret ∨ i = .stop) (hend : D (size c) = 0)
    (hcalls : ∀ a, G.sub a → ∃ q, a.toNat % 4096 = base + q ∧ Boundary c q ∧ D q = 0) :
    Charted G base D (c ++ plain [i]) := by
  refine ⟨fun p j hj => ?_, fun p j hj hstop hret _ => ?_, fun a ha => ?_⟩
  · rcases hj.append_plain with ⟨pre, post, rfl, rfl⟩ | ⟨rfl, rfl⟩
    · have hj : j.Graded G _ D (size pre) := hg pre _ post rfl
      refine hj.lands ?_
      rintro t n (⟨q, hq, hb, hn⟩ | hx)
      · exact ⟨q, hq, hb.start hc i, hn⟩
      · exact hx.elim
    · rcases hi with rfl | rfl <;> exact hend
  · rcases hj.append_plain with ⟨pre, post, rfl, rfl⟩ | ⟨rfl, rfl⟩
    · refine Boundary.start ⟨pre ++ [.instr j], post, by simp, ?_⟩ hc i
      rw [size_append, size_cons, size_nil]
      rfl
    · rcases hi with rfl | rfl
      · exact absurd rfl hret
      · exact absurd rfl hstop
  · obtain ⟨q, hq, hb, hD⟩ := hcalls a ha
    exact ⟨q, hq, hb.start hc i, hD⟩

end Code

/-! ### Machines that run complete code -/

/-- The firmware functions of a node as a ground for gradings. -/
def Node.ground (node : Node) : Ground where
  native id k := ∃ f, node.nativeFunctions[id.toNat % 4096]? = some f ∧ k = f.words
  sub _ := False
  place _ := True

namespace Machine

open Code (Start Charted)

/-- The machine stands at the address `p` of the code behind the table and
returns to the addresses `qs`. The stack holds `d` words, and below them those
that the code finds there when it is returned to. -/
structure Running (table : List Word) (D : Nat → Nat) (c : Code) (p d : Nat) (qs : List Nat)
    (s : State) : Prop where
  loaded : Loaded table c s.image
  pc : s.pc = table.length + p
  start : Start c p
  calls : s.calls = qs.map (table.length + ·)
  returns : ∀ q ∈ qs, Start c q
  depth : s.stack.length = d + (qs.map D).sum

/-- The machine goes on at an instruction that finds the words it takes, or the
handler is done. -/
def Running.Next (table : List Word) (D : Nat → Nat) (c : Code) : Bool → State → Prop
  | true, s => ∃ p qs, Running table D c p (D p) qs s
  | false, s => Loaded table c s.image

namespace Running

variable {node : Node} {table : List Word} {D : Nat → Nat} {c : Code} {p d : Nat} {qs : List Nat}
  {s : State}

/-- The machine goes on behind what it has executed. -/
theorem onward {s' : State} {d' n : Nat} (h : Running table D c p d qs s) (hstart : Start c (p + n))
    (hs' : s.Onward (d' + (qs.map D).sum) n s') : Running table D c (p + n) d' qs s' where
  loaded := hs'.image ▸ h.loaded
  pc := by rw [hs'.pc, h.pc, Nat.add_assoc]
  start := hstart
  calls := hs'.calls.trans h.calls
  returns := h.returns
  depth := hs'.depth

/-- An instruction that takes `k` words and leaves `k'`. -/
theorem proceed {x : Exec Bool} {m k k' n : Nat} (h : Running table D c p (m + k) qs s)
    (hm : D (p + n) = m + k') (hstart : Start c (p + n))
    (hx : x.Proceeds n (m + (qs.map D).sum + k) (m + (qs.map D).sum + k')) : x.Safely s (Next table D c) := by
  have hdepth : s.stack.length = m + (qs.map D).sum + k := by
    rw [h.depth]
    omega
  have hxs := hx s hdepth
  unfold Exec.Safely at hxs ⊢
  split at hxs
  · obtain ⟨rfl, hs'⟩ := hxs
    refine ⟨p + n, qs, h.onward hstart ?_⟩
    rw [hm, Nat.add_right_comm]
    exact hs'
  · exact hxs

/-- A jump to an instruction that finds the words that are there. -/
theorem jumpBy {o : Int} {q : Nat} (h : Running table D c p d qs s) (hq : (p : Int) + o = q)
    (hstart : Start c q) (hD : D q = d) :
    ∃ s', (do Exec.jumpBy o; pure true : Exec Bool).run s = .ok true s' ∧
      Running table D c q (D q) qs s' := by
  have htarget : (s.pc : Int) + o = (table.length + q : Nat) := by
    rw [h.pc]
    push_cast
    omega
  refine ⟨{ s with pc := table.length + q }, ?_, ?_⟩
  · rw [EStateM.run_bind, Exec.run_jumpBy htarget]
    rfl
  · exact ⟨h.loaded, rfl, hstart, h.calls, h.returns, by rw [hD]; exact h.depth⟩

/-- Marking the edge branch that the machine stands at. -/
theorem mark {op : Binary} {o : Cell} (h : Running table D c p d qs s)
    (hat : c.At p (.branch op true o)) (held : Bool) :
    let word := markHeld (Opcode.conditionalBranch.word (op.code + 256)) held
    Running table D c p d qs { s with image := s.image.setIfInBounds s.pc word } where
  loaded := h.pc ▸ h.loaded.mark held hat
  pc := h.pc
  start := h.start
  calls := h.calls
  returns := h.returns
  depth := h.depth

theorem branch {op : Binary} {edge held : Bool} {o : Cell} {q : Nat} (h : Running table D c p (d + 2) qs s)
    (hat : c.At p (.branch op edge o)) (hnext : Start c (p + 2)) (hD : D (p + 2) = d)
    (hq : (p : Int) + o.toInt = q) (hstart : Start c q) (hDq : D q = d) :
    ((Instr.branch op edge o).run node held).Safely s (Next table D c) := by
  have hlength : s.stack.length = d + (qs.map D).sum + 2 := by
    rw [h.depth]
    omega
  refine (Exec.popBinary_takes op s hlength).bind fun v s' hs' => ⟨hs'.image, ?_⟩
  have hrun : Running table D c p d qs s' := h.onward (n := 0) h.start hs'
  -- marked or not, the machine goes on behind the branch or at its target
  have hgo {s'' : State} (hrun : Running table D c p d qs s'') : ∃ s1,
      (if !(v != 0) || (edge && held) then do Exec.jumpBy o.toInt; pure true
        else do Exec.advance 2; pure true : Exec Bool).run s'' = .ok true s1 ∧
      ∃ q', Running table D c q' (D q') qs s1 := by
    split
    · obtain ⟨s1, hs1, hrun1⟩ := hrun.jumpBy hq hstart hDq
      exact ⟨s1, hs1, q, hrun1⟩
    · refine ⟨_, rfl, p + 2, hrun.onward hnext ?_⟩
      exact ⟨by rw [hD, hrun.depth], rfl, rfl, rfl⟩
  unfold Exec.Safely
  simp only [EStateM.run_bind, EStateM.run_get]
  cases edge with
  | false =>
    obtain ⟨s1, hs1, q', hrun1⟩ := hgo hrun
    simp only [Bool.false_eq_true, if_false] at hs1 ⊢
    rw [hs1]
    exact ⟨q', qs, hrun1⟩
  | true =>
    obtain ⟨s1, hs1, q', hrun1⟩ := hgo (hrun.mark hat (v != 0))
    simp only [if_true, EStateM.run_bind, EStateM.run_set]
    rw [hs1]
    exact ⟨q', qs, hrun1⟩

/-- A step of a machine that runs complete code. -/
theorem step {G : Ground} (hG : G.native = node.ground.native) (hc : Charted G table.length D c)
    (h : Running table D c p (D p) qs s) : (step node).Safely s (Next table D c) := by
  obtain ⟨i, hat⟩ := h.start
  obtain ⟨held, hstands⟩ := h.loaded.code p i hat
  rw [← h.pc] at hstands
  have hgraded := hc.graded p i hat
  have honward := hc.onward p i hat
  unfold Exec.Safely
  rw [hstands.step node]
  change (i.run node held).Safely s (Next table D c)
  cases i with
  | stop => exact h.loaded
  | jump o =>
    obtain ⟨hlo, hhi, q, hq, hstart, hD⟩ := hgraded
    obtain ⟨s', hs', hrun⟩ := h.jumpBy hq hstart hD
    unfold Exec.Safely
    rw [Instr.run, signed12_word _ hlo hhi, hs']
    exact ⟨q, qs, hrun⟩
  | branch op edge o =>
    obtain ⟨-, hdepth, q, hq, hstart, hD⟩ := hgraded
    rw [hdepth] at h
    exact h.branch hat (honward (by simp) (by simp) (by simp)) rfl hq hstart hD
  | callNative id =>
    obtain ⟨k, hk, hdepth⟩ := hgraded
    rw [hG] at hk
    obtain ⟨f, hf, rfl⟩ := hk
    rw [hdepth] at h
    exact h.proceed (Nat.add_zero _).symm (honward (by simp) (by simp) (by simp)) (Instr.run_callNative hf)
  | callSub a =>
    obtain ⟨hsub, hlevel⟩ := hgraded
    obtain ⟨q, hq, hstart, hD⟩ := hc.calls a hsub
    have hreturn : Start c (p + 1) := honward (by simp) (by simp) (by simp)
    unfold Exec.Safely
    simp only [Instr.run, EStateM.run_bind, EStateM.run_get]
    by_cases hfull : callDepth ≤ s.calls.length
    · rw [if_pos hfull]
      exact ⟨trivial, rfl⟩
    · rw [if_neg hfull]
      refine ⟨q, (p + 1) :: qs, h.loaded, hq, hstart, ?_, ?_, ?_⟩
      · rw [List.map_cons, h.calls, h.pc, Nat.add_assoc]
      · intro q' hq'
        rcases List.mem_cons.mp hq' with rfl | hq'
        · exact hreturn
        · exact h.returns q' hq'
      · rw [List.map_cons, List.sum_cons, hD, hlevel, Nat.zero_add]
        exact h.depth
  | ret =>
    unfold Exec.Safely
    simp only [Instr.run, EStateM.run_bind, EStateM.run_get]
    have hcalls := h.calls
    have hdepth := h.depth
    cases qs with
    | nil =>
      rw [List.map_nil] at hcalls
      rw [hcalls]
      exact h.loaded
    | cons q qs =>
      rw [List.map_cons] at hcalls hdepth
      rw [hcalls]
      refine ⟨q, qs, h.loaded, rfl, h.returns q List.mem_cons_self, rfl, ?_, ?_⟩
      · exact fun q' hq' => h.returns q' (List.mem_cons_of_mem _ hq')
      · rw [hdepth, hgraded, List.sum_cons, Nat.zero_add]
  | _ =>
    obtain ⟨hstraight, m, htakes, hleaves⟩ := hgraded
    rw [htakes] at h
    exact h.proceed hleaves (honward (by simp) (by simp) (by simp)) (Instr.run_straight hstraight)

end Running

/-! ### Handlers -/

/-- The computation ends or runs into an expected fault, and the image is as in
`I` either way. -/
def Exec.Keeps {α : Type} (I : Array Word → Prop) (x : Exec α) (s : State) : Prop :=
  match x.run s with
  | .ok _ s' => I s'.image
  | .error e s' => e.Expected ∧ I s'.image

namespace Running

variable {node : Node} {G : Ground} {table : List Word} {D : Nat → Nat} {c : Code} {p : Nat}
  {qs : List Nat} {s : State}

theorem step_bind {f : Bool → Exec Unit} (h : Running table D c p (D p) qs s)
    (hG : G.native = node.ground.native) (hc : Charted G table.length D c)
    (hf : ∀ more s', Next table D c more s' → (f more).Keeps (Loaded table c) s') :
    (Machine.step node >>= f).Keeps (Loaded table c) s := by
  have hstep := h.step hG hc
  unfold Exec.Safely at hstep
  unfold Exec.Keeps
  rw [EStateM.run_bind]
  split at hstep
  · rename_i more s' hrun
    rw [hrun]
    exact hf more s' hstep
  · rename_i e s' hrun
    rw [hrun]
    exact ⟨hstep.1, hstep.2 ▸ h.loaded⟩

/-- Stepping until the handler is done. -/
theorem runSteps (hG : G.native = node.ground.native) (hc : Charted G table.length D c) (limit : Nat) :
    ∀ (left : Nat) {p : Nat} {qs : List Nat} {s : State}, Running table D c p (D p) qs s →
      (runSteps node limit left).Keeps (Loaded table c) s
  | 0, _, _, _, h => h.step_bind hG hc fun
    | true, _, ⟨_, _, hnext⟩ => ⟨trivial, hnext.loaded⟩
    | false, _, hdone => hdone
  | left + 1, _, _, _, h => h.step_bind hG hc fun
    | true, _, ⟨_, _, hnext⟩ => runSteps hG hc limit left hnext
    | false, _, hdone => hdone

end Running

/-- The address paired with an id in the words of a table. -/
theorem handlerIn_flatMap (id : Word) : ∀ handlers : List (Word × Nat),
    handlerIn id (handlers.flatMap fun h => [h.1, UInt16.ofNat h.2]) =
      (handlers.lookup id).map fun addr => (UInt16.ofNat addr).toNat
  | [] => rfl
  | (key, addr) :: handlers => by
    rw [List.flatMap_cons, List.cons_append, List.cons_append, List.nil_append, handlerIn,
      List.lookup_cons]
    by_cases hkey : key = id
    · rw [hkey, beq_self_eq_true]
      rfl
    · rw [beq_eq_false_iff_ne.mpr hkey, beq_eq_false_iff_ne.mpr (Ne.symm hkey)]
      exact handlerIn_flatMap id handlers

/-- A machine whose image starts with a table looks its handlers up there. -/
theorem State.handler?_header {handlers : List (Word × Nat)} {size : Nat} {s : State}
    (htable : s.image.toList.take size = Image.header size handlers)
    (hsize : (Image.header size handlers).length = size) (hlt : size < 65536) (id : Word) :
    s.handler? id = (handlers.lookup id).map fun addr => (UInt16.ofNat addr).toNat := by
  have hpos : 0 < size := by
    rw [← hsize, Image.header_length]
    omega
  have hfirst : s.image[0]? = some (UInt16.ofNat size) := by
    rw [← Array.getElem?_toList, ← List.getElem?_take_of_lt hpos, htable]
    rfl
  have hlen : (UInt16.ofNat size).toNat = size := by
    rw [UInt16.toNat_ofNat']
    omega
  have hfits : size ≤ s.image.size := by
    have hlength := congrArg List.length htable
    rw [List.length_take, hsize, Array.length_toList] at hlength
    omega
  have hrest : (s.image.extract 1 size).toList =
      handlers.flatMap fun h => [h.1, UInt16.ofNat h.2] := by
    rw [Array.toList_extract, List.extract_eq_take_drop, ← List.drop_take, htable]
    rfl
  unfold State.handler?
  rw [hfirst]
  dsimp only
  rw [hlen, if_neg (by omega), hrest, handlerIn_flatMap]

/-- A machine that holds a table and code finds its handlers in the table. -/
theorem Loaded.handler? {handlers : List (Word × Nat)} {size : Nat} {c : Code} {s : State} {id : Word}
    {addr : Nat} (h : Loaded (Image.header size handlers) c s.image)
    (hsize : (Image.header size handlers).length = size) (hlt : size < 65536)
    (hid : s.handler? id = some addr) : ∃ h ∈ handlers, addr = (UInt16.ofNat h.2).toNat := by
  have htable : s.image.toList.take size = Image.header size handlers := by
    refine List.ext_getElem? fun j => ?_
    by_cases hj : j < size
    · have hw := List.getElem?_eq_getElem (hsize.symm ▸ hj : j < (Image.header size handlers).length)
      rw [List.getElem?_take_of_lt hj, Array.getElem?_toList, h.front j _ hw, hw]
    · rw [List.getElem?_eq_none (by simp; omega), List.getElem?_eq_none (by omega)]
  rw [State.handler?_header htable hsize hlt] at hid
  obtain ⟨a, hlookup, rfl⟩ := Option.map_eq_some_iff.mp hid
  obtain ⟨before, after, rfl, -⟩ := List.lookup_eq_some_iff.mp hlookup
  exact ⟨(id, a), List.mem_append_right _ List.mem_cons_self, rfl⟩

end Machine

/-! ### Compiled programs -/

theorem Node.provides_ground {node : Node} (h : node.nativeFunctions.length ≤ 4096) :
    node.Provides node.ground := by
  intro name id f hnative
  obtain ⟨⟨g, i⟩, hfind, heq⟩ := Option.map_eq_some_iff.mp hnative
  obtain ⟨rfl, rfl⟩ : UInt16.ofNat i = id ∧ g = f := by simpa using heq
  have hi : node.nativeFunctions[i]? = some g :=
    List.mem_zipIdx_iff_getElem?.mp (List.mem_of_find?_eq_some hfind)
  have hlt : i < node.nativeFunctions.length := (List.getElem?_eq_some_iff.mp hi).1
  have hid : (UInt16.ofNat i).toNat % 4096 = i := Machine.operand_eq (Nat.lt_of_lt_of_le hlt h)
  exact ⟨g, by rw [hid, hi], rfl⟩

namespace Image.Linked

open Code (Start Charted)

variable {G : Ground} {units : List ObjectCode} {image : Image} {table : List (Word × Nat)}
  {callable : List (String × Nat)} {parts : List Code}

/-- The code of a linked program fits depths that are zero where a handler
starts. -/
theorem charted (h : Linked G units image table callable parts) (hsub : ∀ a, ¬ G.sub a) (hne : units ≠ []) :
    ∃ D, Charted (grounded G callable) (headerSize units) D parts.flatten ∧
      ∀ handler ∈ table, ∃ q, handler.2 = headerSize units + q ∧ Start parts.flatten q ∧ D q = 0 := by
  obtain ⟨c, i, D, hc, hi, hg, hend, hstarts⟩ := h.laid.graded hsub hne
  have hsettled : Code.Settled c := fun item hmem =>
    h.laid.settled item (by rw [hc]; exact List.mem_append_left _ hmem)
  have hstart {entry : Entry → Prop} {addr : Nat} (hs : Starts (headerSize units) units entry addr) :
      ∃ q, addr = headerSize units + q ∧ Code.Boundary c q ∧ D q = 0 := by
    obtain ⟨before, u, after, hunits, -, rfl⟩ := hs
    obtain ⟨parts1, parts2, block, linked, rfl, hsize, -, -⟩ := h.laid.split hunits
    refine ⟨extent before, rfl, ?_, hstarts before u after hunits⟩
    rw [List.flatten_append, List.flatten_cons] at hc
    rcases List.append_eq_append_iff.mp hc with ⟨mid, rfl, -⟩ | ⟨mid, hmid, hlast⟩
    · exact ⟨parts1.flatten, mid, rfl, hsize⟩
    · have hlength := congrArg List.length hlast
      simp only [Code.plain, List.length_append, List.length_map, List.length_singleton] at hlength
      obtain rfl : mid = [] := List.eq_nil_of_length_eq_zero (by omega)
      exact ⟨c, [], (List.append_nil c).symm, by rw [← hsize, hmid, List.append_nil]⟩
  refine ⟨D, hc ▸ hg.charted hsettled hi hend ?_, fun handler hmem => ?_⟩
  · rintro a ⟨name, addr, hlookup, rfl⟩
    have hs := h.calls name addr hlookup
    obtain ⟨q, hq, hb, hD⟩ := hstart hs
    refine ⟨q, ?_, hb, hD⟩
    have hlt := Nat.lt_of_lt_of_le (h.start_bounds hs).2 h.fits
    rw [UInt16.toNat_ofNat', ← hq]
    unfold maxSize at hlt
    omega
  · obtain ⟨q, hq, hb, hD⟩ := hstart (h.handlers handler hmem)
    exact ⟨q, hq, hc ▸ hb.start hsettled i, hD⟩

end Image.Linked

namespace Machine

/-- What is done to a machine from outside. -/
inductive Action where
  | init (limit : Nat)
  | event (id : Word) (limit : Nat)
  | write (addr : Nat) (value : Cell)
  deriving DecidableEq, Repr, Inhabited

/-- Run the handler that the action asks for, or write to memory. -/
def Action.perform (node : Node) : Action → Exec Bool
  | init limit => runInit node limit
  | event id limit => runEvent node id limit
  | write addr value => do
    modify (·.setWord addr value)
    pure true

/-- The machine after an action, whether it ended in a fault or not. -/
def State.after (node : Node) (s : State) (action : Action) : State :=
  match (action.perform node).run s with
  | .ok _ s' | .error _ s' => s'

/-- The fault that an action ends in, if any. -/
def Action.fault? (node : Node) (s : State) (action : Action) : Option RunFault :=
  match (action.perform node).run s with
  | .ok _ _ => none
  | .error fault _ => some fault

/-- A table of `size` words and complete code behind it that fits the depths `D`;
the stack is empty where a handler starts. -/
structure Installed (node : Node) (size : Nat) (handlers : List (Word × Nat)) (D : Nat → Nat)
    (c : Code) : Prop where
  length : (Image.header size handlers).length = size
  size_lt : size < 65536
  charted : ∃ G : Ground, G.native = node.ground.native ∧ Code.Charted G size D c
  starts : ∀ h ∈ handlers, h.2 < 65536 ∧ ∃ q, h.2 = size + q ∧ Code.Start c q ∧ D q = 0

namespace Installed

variable {node : Node} {size : Nat} {handlers : List (Word × Nat)} {D : Nat → Nat} {c : Code}
  {s : State}

theorem runEvent (hi : Installed node size handlers D c) (h : Loaded (Image.header size handlers) c s.image)
    (id : Word) (limit : Nat) : (runEvent node id limit).Keeps (Loaded (Image.header size handlers) c) s := by
  unfold Exec.Keeps Machine.runEvent
  rw [EStateM.run_bind, EStateM.run_get]
  dsimp only
  cases hid : s.handler? id with
  | none => exact h
  | some start =>
    obtain ⟨handler, hmem, rfl⟩ := h.handler? hi.length hi.size_lt hid
    obtain ⟨hbound, q, hq, hstart, hD⟩ := hi.starts handler hmem
    have haddr : (UInt16.ofNat handler.2).toNat = size + q := by
      rw [UInt16.toNat_ofNat', ← hq]
      omega
    have hrun : Running (Image.header size handlers) D c q (D q) []
        { s with pc := (UInt16.ofNat handler.2).toNat, stack := [], calls := [] } := by
      refine ⟨h, ?_, hstart, rfl, nofun, ?_⟩
      · rw [haddr, hi.length]
      · rw [hD]
        rfl
    obtain ⟨G, hG, hc⟩ := hi.charted
    have hkeeps := Running.runSteps hG (hi.length.symm ▸ hc) limit limit hrun
    unfold Exec.Keeps at hkeeps
    dsimp only
    rw [EStateM.run_bind, EStateM.run_set]
    dsimp only
    rw [EStateM.run_bind]
    split at hkeeps
    · rename_i hrun
      rw [hrun]
      exact hkeeps
    · rename_i hrun
      rw [hrun]
      exact hkeeps

/-- Whatever is done to the machine keeps the program in its image. -/
theorem perform (hi : Installed node size handlers D c) (h : Loaded (Image.header size handlers) c s.image)
    (action : Action) : (action.perform node).Keeps (Loaded (Image.header size handlers) c) s := by
  cases action with
  | init limit => exact hi.runEvent h Node.initEventId limit
  | event id limit => exact hi.runEvent h id limit
  | write addr value => exact h

theorem history (hi : Installed node size handlers D c)
    (h : Loaded (Image.header size handlers) c s.image) (actions : List Action) :
    Loaded (Image.header size handlers) c (actions.foldl (State.after node) s).image := by
  induction actions generalizing s with
  | nil => exact h
  | cons action actions ih =>
    refine ih ?_
    have hkeeps := hi.perform h action
    unfold Exec.Keeps at hkeeps
    unfold State.after
    split at hkeeps
    · rename_i hrun
      rw [hrun]
      exact hkeeps
    · rename_i hrun
      rw [hrun]
      exact hkeeps.2

end Installed
end Machine

/-- A compiled program is installed in its image. -/
theorem compile_installed {node : Node} {settings : Settings} {source : Source} {compiled : Compiled}
    (hnative : node.nativeFunctions.length ≤ 4096) (h : compile node settings source = .ok compiled) :
    ∃ size handlers D c, Machine.Installed node size handlers D c ∧
      Machine.Loaded (Image.header size handlers) c compiled.image.toArray := by
  obtain ⟨_, _, units, image, table, callable, parts, -, -, -, hne, hlinked, rfl⟩ :=
    compile_linked (Node.provides_ground hnative) (fun _ => trivial) h
  obtain ⟨D, hcharted, hstarts⟩ := hlinked.charted (fun _ => not_false) hne
  have hsize : Image.headerSize units ≤ Image.maxSize := Nat.le_trans (Nat.le_add_right _ _) hlinked.fits
  refine ⟨Image.headerSize units, table, D, parts.flatten, ⟨?_, ?_, ?_, ?_⟩, ?_⟩
  · exact hlinked.length_header
  · exact Nat.lt_of_le_of_lt hsize (by decide)
  · exact ⟨Image.grounded node.ground callable, rfl, hcharted⟩
  · intro handler hmem
    have hlt := Nat.lt_of_lt_of_le (hlinked.start_bounds (hlinked.handlers handler hmem)).2 hlinked.fits
    exact ⟨Nat.lt_trans hlt (by decide), hstarts handler hmem⟩
  · rw [hlinked.words]
    exact .of_words _ _

/-- Compiled code never goes wrong: whatever events are run on a machine that
holds a compiled program, with any budgets, any writes to memory in between and
any earlier runs that ended in faults, no instruction finds too few words, is
unknown or lies outside the program. -/
theorem compiled_runs_safely (node : Node) (settings : Settings) (source : Source)
    (compiled : Compiled) (hnative : node.nativeFunctions.length ≤ 4096)
    (hcompile : compile node settings source = .ok compiled) (history : List Machine.Action)
    (action : Machine.Action) (fault : Machine.RunFault)
    (hfault : action.fault? node (history.foldl (Machine.State.after node)
      (Machine.State.start node compiled.image)) = some fault) :
    fault.Expected := by
  obtain ⟨size, handlers, D, c, hinstalled, hloaded⟩ := compile_installed hnative hcompile
  have hstart : Machine.Loaded (Image.header size handlers) c
      (Machine.State.start node compiled.image).image := hloaded
  have hkeeps := hinstalled.perform (hinstalled.history hstart history) action
  unfold Machine.Exec.Keeps at hkeeps
  unfold Machine.Action.fault? at hfault
  split at hfault
  · cases hfault
  · rename_i hrun
    rw [hrun] at hkeeps
    obtain rfl := Option.some.inj hfault
    exact hkeeps.1

/-- A quotient that exists until its divisor is cleared from outside. -/
theorem compiled_runs_safely_quotient :
    ∃ (node : Node) (settings : Settings) (source : Source) (compiled : Compiled)
      (history : List Machine.Action),
      compile node settings source = .ok compiled ∧
      (Machine.Action.init 9).fault? node (history.foldl (Machine.State.after node)
        (Machine.State.start node compiled.image)) = some (.divisionByZero 5) ∧
      (Machine.RunFault.divisionByZero 5).Expected := by
  have hcompile : (compile ⟨"", 8, [⟨"a", 1⟩], [], []⟩ ⟨.simple, 1, []⟩ ⟨"a = 6/a", none⟩).toOption =
      some ⟨[3, 65535, 3, 4102, 12288, 32773, 16384, 0], [⟨0, 1, 1, 3⟩]⟩ := by
    decide +kernel
  have hok := eq_ok_of_toOption hcompile
  have hfault : (Machine.Action.init 9).fault? ⟨"", 8, [⟨"a", 1⟩], [], []⟩
      ([Machine.Action.write 0 3, .init 9, .write 0 0].foldl
        (Machine.State.after ⟨"", 8, [⟨"a", 1⟩], [], []⟩)
        (Machine.State.start ⟨"", 8, [⟨"a", 1⟩], [], []⟩
          [3, 65535, 3, 4102, 12288, 32773, 16384, 0])) = some (.divisionByZero 5) := by
    decide +kernel
  exact ⟨_, _, _, _, _, hok, hfault, compiled_runs_safely _ _ _ _ (by decide) hok _ _ _ hfault⟩

end RobotScript
