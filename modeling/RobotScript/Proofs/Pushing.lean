/-
# Pushing values

Code that pushes a value may call functions on the way, and these may do what
they like to memory. What matters to the code behind it is that the machine
comes back, with the value on the stack and the code as before. From there the
machine goes on through instructions that cannot fail: it pops the values into
temporaries and finds them there.

Key definitions: `Stacks`, `StacksEach`.
Key theorems: `StacksEach.pushes`, `steps_pops`.
-/
import RobotScript.Proofs.PlaceUses
import RobotScript.Proofs.Visits

namespace RobotScript

open Machine (Instr Binary State)
open Code (plain size)
open Coder (pops)

/-- The machine has run the piece `k` of the code `W` at `base` to its end and
has pushed the words `ws`, the last one on top. -/
structure Stacks (node : Node) (base : Nat) (W k : Code) (ws : List Cell) (m m' : State) : Prop
    extends Passes node base W (size k) m m' where
  stack : m'.stack = ws.reverse ++ m.stack

/-- The machine has run pieces of code in turn, and each has pushed a word. -/
inductive StacksEach (node : Node) (base : Nat) (W : Code) : List Code → List Cell → State → State → Prop
  | nil {m : State} (hW : W.Stands m.image base) : StacksEach node base W [] [] m m
  | cons {k : Code} {ks : List Code} {v : Cell} {vs : List Cell} {m m1 m' : State}
    (h : Stacks node base W k [v] m m1) (hs : StacksEach node base W ks vs m1 m') :
    StacksEach node base W (k :: ks) (v :: vs) m m'

variable {node : Node} {base : Nat} {W : Code} {m m' : State}

/-- The words of the pieces stand on the stack one above the other. -/
theorem StacksEach.pushes {ks : List Code} {vs : List Cell} (h : StacksEach node base W ks vs m m') :
    Stacks node base W ks.flatten vs m m' := by
  induction h with
  | nil hW => exact ⟨⟨.refl _, rfl, hW⟩, rfl⟩
  | @cons k ks v vs m m1 m' h _ ih =>
    refine ⟨⟨h.steps.trans ih.steps, ?_, ih.code⟩, ?_⟩
    · rw [ih.pc, h.pc, List.flatten_cons, Code.size_append, Nat.add_assoc]
    · simp [ih.stack, h.stack]

theorem StacksEach.length {ks : List Code} {vs : List Cell} (h : StacksEach node base W ks vs m m') :
    ks.length = vs.length := by
  induction h with
  | nil => rfl
  | cons _ _ ih => rw [List.length_cons, List.length_cons, ih]

/-- A word of memory is pushed. -/
theorem Stacks.load {p : Nat} {a : Word} {v : Cell} (hW : W.Stands m.image base) (hat : W.At p (.load a))
    (hpc : m.pc = base + p) (hmem : m.memory[a.toNat % 4096]? = some v)
    (hroom : m.stack.length < Machine.stackSize) :
    Stacks node base W (plain [.load a]) [v] m { m with stack := v :: m.stack, pc := m.pc + 1 } := by
  refine ⟨⟨.head (hW.step_load hat hpc hmem hroom) ?_, rfl, hW⟩, rfl⟩
  rw [← hpc]
  exact .refl _

/-- A constant is pushed. -/
theorem Stacks.immediate {p : Nat} {n : Cell} (hW : W.Stands m.image base) (hat : W.At p (.immediate n))
    (hpc : m.pc = base + p) (hroom : m.stack.length < Machine.stackSize) :
    Stacks node base W (plain [.immediate n]) [n] m
      { m with stack := n :: m.stack, pc := m.pc + (Instr.immediate n).length } := by
  refine ⟨⟨.head (hW.step_immediate hat hpc hroom) ?_, rfl, hW⟩, rfl⟩
  rw [← hpc]
  exact .refl _

theorem Steps.memory_size (h : Steps node m m') : m'.memory.size = m.memory.size :=
  (h.evolves (.refl m)).keeps.memory

/-! ### Temporaries -/

theorem Coder.pops_succ (a n : Nat) :
    plain (pops a (n + 1)) = plain [.store (UInt16.ofNat (a + n))] ++ plain (pops a n) := by
  unfold pops
  rw [List.range_succ, List.reverse_append]
  rfl

theorem Coder.popInto_eq_ok {c : Coder} {a n : Nat} {k : Code} {st st' : Coding.State}
    (h : c.popInto a n st = .ok (k, st')) : k = plain (pops a n) ∧ st' = st ∧ ∀ j < n, c.Fits (a + j) := by
  induction n generalizing k st' with
  | zero =>
    cases h
    exact ⟨rfl, rfl, nofun⟩
  | succ n ih =>
    obtain ⟨w, st1, haddr, hmore⟩ := Coding.bind_eq_ok h
    obtain ⟨hw, hst1, hfits⟩ := Coder.address_eq_ok haddr
    obtain ⟨k', st2, hpops, hlast⟩ := Coding.bind_eq_ok hmore
    rw [hst1] at hpops
    obtain ⟨rfl, rfl, hrest⟩ := ih hpops
    cases hlast
    refine ⟨?_, rfl, fun j hj => ?_⟩
    · rw [pops_succ, hw]
      rfl
    · rcases Nat.lt_succ_iff_lt_or_eq.mp hj with hj | rfl
      · exact hrest j hj
      · exact hfits

theorem size_pops (a n : Nat) : size (plain (pops a n)) = n := by
  induction n with
  | zero => rfl
  | succ n ih =>
    rw [Coder.pops_succ, Code.size_append, ih]
    exact Nat.add_comm 1 n

/-- The words on top of the stack are popped into the words from `a` on, the
last one first, and stand there in order. -/
theorem steps_pops (node : Node) {a n : Nat} {ws rest : List Cell}
    (hcode : (plain (pops a n)).Stands m.image m.pc) (hws : ws.length = n) (hstack : m.stack = ws.reverse ++ rest)
    (hfits : ∀ j < n, a + j < 4096 ∧ a + j < m.memory.size) :
    ∃ memory, Steps node m { m with memory, stack := rest, pc := m.pc + n } ∧
      (∀ j < n, memory[a + j]? = ws[j]?) ∧
      ∀ j, j < a ∨ a + n ≤ j → memory[j]? = m.memory[j]? := by
  induction n generalizing m ws with
  | zero =>
    obtain rfl := List.eq_nil_of_length_eq_zero hws
    have hrest : m.stack = rest := hstack
    refine ⟨m.memory, ?_, nofun, fun _ _ => rfl⟩
    rw [← hrest]
    exact .refl m
  | succ n ih =>
    obtain ⟨ws, w, rfl⟩ : ∃ us u, ws = us ++ [u] :=
      ⟨_, _, (List.dropLast_concat_getLast (List.ne_nil_of_length_eq_add_one hws)).symm⟩
    have hlen : ws.length = n := by simpa using hws
    rw [Coder.pops_succ] at hcode
    have hlast := hfits n (Nat.lt_succ_self n)
    have haddr : (UInt16.ofNat (a + n)).toNat % 4096 = a + n := Machine.operand_eq hlast.1
    have htop : m.stack = w :: (ws.reverse ++ rest) := by rw [hstack]; simp
    have hstep : (Machine.step node).run m = _ := hcode.left.step_store (p := 0) ⟨[], [], rfl, rfl⟩ rfl htop
      (by rw [haddr]; exact hlast.2)
    rw [haddr] at hstep
    obtain ⟨memory, hsteps, hwords, hother⟩ := ih
      (m := { m.setWord (a + n) w with stack := ws.reverse ++ rest, pc := m.pc + 0 + 1 })
      hcode.right hlen rfl fun j hj => by
        refine ⟨(hfits j (Nat.lt_succ_of_lt hj)).1, ?_⟩
        show a + j < (m.memory.setIfInBounds (a + n) w).size
        rw [Array.size_setIfInBounds]
        exact (hfits j (Nat.lt_succ_of_lt hj)).2
    refine ⟨memory, .head hstep ?_, fun j hj => ?_, fun j hj => ?_⟩
    · have hend : m.pc + (n + 1) = m.pc + 0 + 1 + n := by omega
      rw [hend]
      exact hsteps
    · rcases Nat.lt_succ_iff_lt_or_eq.mp hj with hj | rfl
      · rw [hwords j hj, List.getElem?_append_left (hlen ▸ hj)]
      · have hset : (m.memory.setIfInBounds (a + j) w)[a + j]? = some w :=
          Array.getElem?_setIfInBounds_self_of_lt hlast.2
        rw [hother (a + j) (.inr (Nat.le_refl _)), ← hlen, List.getElem?_concat_length, hlen]
        exact hset
    · have hset : (m.memory.setIfInBounds (a + n) w)[j]? = m.memory[j]? :=
        Array.getElem?_setIfInBounds_ne (by omega)
      rw [hother j (by omega)]
      exact hset

/-! ### Statements -/

/-- A statement has all temporaries at its disposal, and a mark of its place in
front of its code. -/
theorem Coder.statement_eq_ok {c : Coder} {span : Span} {marked : Bool} {code : Coding Code} {k : Code}
    {st st' : Coding.State} (h : c.statement span marked code st = .ok (k, st')) :
    ∃ k', code ⟨c.tempTop, span⟩ = .ok (k', st') ∧ k = if marked then .mark span :: k' else k' := by
  unfold Coder.statement Coding.placedAt at h
  cases hrun : (do
      set (⟨c.tempTop, span⟩ : Coding.State)
      let code ← code
      return if marked then .mark span :: code else code : Coding Code) st with
  | error e =>
    rw [hrun] at h
    cases h
  | ok r =>
    rw [hrun] at h
    cases h
    obtain ⟨_, st1, hset, h1⟩ := Coding.bind_eq_ok hrun
    cases hset
    obtain ⟨k', st2, hk', h2⟩ := Coding.bind_eq_ok h1
    cases h2
    exact ⟨k', hk', rfl⟩

theorem Code.Stands.unmarked {image : Array Word} {a : Nat} {span : Span} {k : Code}
    (h : Code.Stands image a (.mark span :: k)) : k.Stands image a := by
  have hright : Code.Stands image (a + size [.mark span]) k := Code.Stands.right (k := [.mark span]) h
  exact hright

end RobotScript
