/-
# What code computes

A piece of code takes words from the top of the stack and leaves others there,
or ends in a fault. Memory is left as it was but for one word, the slot that
conjunction and disjunction keep a value in, so what is read below the slot is
the same at any time. Pieces that are put one behind the other compute what
their results are bound to.

Key definitions: `Outcome`, `OutcomeWithin`, `Computes`.
Key theorems: `OutcomeWithin.bind`, `Computes.append`, `Computes.under`, `Computes.of_crosses`.
-/
import RobotScript.Proofs.ConstantFolding
import RobotScript.Proofs.Fragments

namespace RobotScript

open Machine (Instr Binary Unary State RunFault Exec)
open Code (plain size)

/-- The fault of the machine that says why there is no value. -/
def ValueFault.Means : ValueFault → RunFault → Prop
  | .divisionByZero, .divisionByZero _ => True
  | .indexOutOfRange, .indexOutOfRange _ _ _ => True
  | _, _ => False

/-- The machine with a word in the slot, another stack and at another address. -/
def Machine.State.arrived (m : State) (slot : Nat) (w : Cell) (stack : List Cell) (pc : Nat) : State :=
  { m.setWord slot w with stack, pc }

/-- Below the slot, which is a word of memory, memory holds the words given. -/
structure Machine.State.Shows (words : Nat → Cell) (slot : Nat) (m : State) : Prop where
  below : ∀ a < slot, m.memory[a]? = some (words a)
  inside : slot < m.memory.size

/-- What comes of a computation: the machine comes to the address `q` with the
words that are computed on the stack, above the `rest`, or it stops with the
fault. Of memory only the slot has changed. -/
def Outcome (node : Node) (slot : Nat) (rest : List Cell) (q : Nat) (m : State) :
    Except ValueFault (List Cell) → Prop
  | .ok vs => ∃ w, Steps node m (m.arrived slot w (vs ++ rest) q)
  | .error f => ∃ m' fault m'' w, Steps node m m' ∧ (Machine.step node).run m' = .error fault m'' ∧
      f.Means fault ∧ m''.memory = (m.setWord slot w).memory

/-- The same, by steps between the addresses `lo` and `hi`. -/
def OutcomeWithin (node : Node) (slot : Nat) (rest : List Cell) (lo hi q : Nat) (m : State) :
    Except ValueFault (List Cell) → Prop
  | .ok vs => ∃ w, Between node lo hi m (m.arrived slot w (vs ++ rest) q)
  | .error f => ∃ m' fault m'' w, Between node lo hi m m' ∧ (lo ≤ m'.pc ∧ m'.pc < hi) ∧
      (Machine.step node).run m' = .error fault m'' ∧ f.Means fault ∧ m''.memory = (m.setWord slot w).memory

/-- From the words `ins` on top of the stack, with room for `room` words in
their place, the code comes to the result. -/
def Computes (node : Node) (slot : Nat) (words : Nat → Cell) (room : Nat) (ins : List Cell) (k : Code)
    (r : Except ValueFault (List Cell)) : Prop :=
  ∀ (m : State) (base : Nat) (rest : List Cell), k.Stands m.image base → m.pc = base →
    m.Shows words slot → m.stack = ins ++ rest → rest.length + room ≤ Machine.stackSize →
    OutcomeWithin node slot rest base (base + size k) (base + size k) m r

variable {node : Node} {slot : Nat} {words : Nat → Cell}

/-! ### Memory -/

namespace Machine.State

variable {m : State}

@[simp] theorem arrived_arrived (m : State) (slot : Nat) (v w : Cell) (st st' : List Cell) (p q : Nat) :
    (m.arrived slot v st p).arrived slot w st' q = m.arrived slot w st' q := by
  simp only [arrived, setWord, Array.setIfInBounds_setIfInBounds]

@[simp] theorem arrived_image (m : State) (slot : Nat) (w : Cell) (st : List Cell) (p : Nat) :
    (m.arrived slot w st p).image = m.image := rfl

@[simp] theorem arrived_stack (m : State) (slot : Nat) (w : Cell) (st : List Cell) (p : Nat) :
    (m.arrived slot w st p).stack = st := rfl

@[simp] theorem arrived_pc (m : State) (slot : Nat) (w : Cell) (st : List Cell) (p : Nat) :
    (m.arrived slot w st p).pc = p := rfl

theorem Shows.arrived (h : m.Shows words slot) (w : Cell) (st : List Cell) (p : Nat) :
    (m.arrived slot w st p).Shows words slot where
  below a ha := by
    rw [← h.below a ha]
    exact Array.getElem?_setIfInBounds_ne (by omega)
  inside := by
    have hsize : (m.arrived slot w st p).memory.size = m.memory.size := Array.size_setIfInBounds
    rw [hsize]
    exact h.inside

/-- The slot holds what has been put there. -/
theorem Shows.slot_arrived (h : m.Shows words slot) (w : Cell) (st : List Cell) (p : Nat) :
    (m.arrived slot w st p).memory[slot]? = some w :=
  Array.getElem?_setIfInBounds_self_of_lt h.inside

/-- The slot holds some word, so nothing changes if that is put there. -/
theorem Shows.exists_arrived (h : m.Shows words slot) :
    ∃ w, ∀ st p, m.arrived slot w st p = { m with stack := st, pc := p } := by
  have hin := h.inside
  refine ⟨m.memory[slot], fun st p => ?_⟩
  simp [State.arrived, setWord, Array.setIfInBounds, hin]

end Machine.State

/-! ### Outcomes -/

namespace OutcomeWithin

variable {m : State} {rest : List Cell} {lo hi lo' hi' q q' : Nat} {r : Except ValueFault (List Cell)}

theorem outcome (h : OutcomeWithin node slot rest lo hi q m r) : Outcome node slot rest q m r := by
  cases r with
  | ok vs =>
    obtain ⟨w, hsteps⟩ := h
    exact ⟨w, hsteps.steps⟩
  | error f =>
    obtain ⟨m', fault, m'', w, hsteps, -, hstop⟩ := h
    exact ⟨m', fault, m'', w, hsteps.steps, hstop⟩

theorem widen (h : OutcomeWithin node slot rest lo hi q m r) (hlo : lo' ≤ lo) (hhi : hi ≤ hi') :
    OutcomeWithin node slot rest lo' hi' q m r := by
  cases r with
  | ok vs =>
    obtain ⟨w, hsteps⟩ := h
    exact ⟨w, hsteps.widen hlo hhi⟩
  | error f =>
    obtain ⟨m', fault, m'', w, hsteps, hpc, hstop⟩ := h
    exact ⟨m', fault, m'', w, hsteps.widen hlo hhi, by omega, hstop⟩

/-- What comes of going on from where the machine has come to. -/
theorem from_arrived {w : Cell} {st : List Cell} {p : Nat}
    (hsteps : Between node lo hi m (m.arrived slot w st p))
    (h : OutcomeWithin node slot rest lo hi q (m.arrived slot w st p) r) :
    OutcomeWithin node slot rest lo hi q m r := by
  cases r with
  | ok vs =>
    obtain ⟨w', hsteps'⟩ := h
    rw [State.arrived_arrived] at hsteps'
    exact ⟨w', hsteps.trans hsteps'⟩
  | error f =>
    obtain ⟨m', fault, m'', w', hsteps', hpc, hstop, hmeans, hmemory⟩ := h
    have hset := congrArg State.memory (m.arrived_arrived slot w w' st [] p 0)
    exact ⟨m', fault, m'', w', hsteps.trans hsteps', hpc, hstop, hmeans, hmemory.trans hset⟩

theorem bind {f : List Cell → Except ValueFault (List Cell)} (h : OutcomeWithin node slot rest lo hi q m r)
    (hf : ∀ vs w, r = .ok vs → OutcomeWithin node slot rest lo hi q' (m.arrived slot w (vs ++ rest) q) (f vs)) :
    OutcomeWithin node slot rest lo hi q' m (r >>= f) := by
  cases r with
  | error fault => exact h
  | ok vs =>
    obtain ⟨w, hsteps⟩ := h
    exact (hf vs w rfl).from_arrived hsteps

end OutcomeWithin

/-! ### Code -/

theorem Code.inside_instr {i : Instr} {base pc : Nat} (hpc : pc = base) : pc < base + size (plain [i]) := by
  have hpos : 0 < size (plain [i]) := i.length_pos
  omega

/-- A jump leads over the code behind it. -/
theorem Machine.State.Shows.skip {m : State} {k : Code} {skip : Instr} {base : Nat} {vs rest : List Cell}
    (hshows : m.Shows words slot) (hskip : jumpBy? (1 + size k) = some skip)
    (hk : Code.Stands m.image base (plain [skip] ++ k)) (hpc : m.pc = base) (hstack : m.stack = vs ++ rest) :
    OutcomeWithin node slot rest base (base + size (plain [skip] ++ k)) (base + size (plain [skip] ++ k)) m
      (.ok vs) := by
  have hsize := Code.size_jump hskip
  have hjump : Code.Jumps (plain [skip] ++ k) 0 (1 + size k) :=
    ⟨1 + size k, skip, hskip, ⟨[], k, rfl, rfl⟩, by omega⟩
  obtain ⟨w, hw⟩ := hshows.exists_arrived
  refine ⟨w, .head (Nat.le_of_eq hpc.symm) (by rw [Code.size_append]; omega) (hjump.step hk hpc) ?_⟩
  rw [hw, Code.size_append, hsize, hstack]
  exact .refl _

namespace Computes

variable {room room' : Nat} {ins : List Cell} {k k' : Code} {r : Except ValueFault (List Cell)}

theorem mono (h : Computes node slot words room ins k r) (hroom : room ≤ room') :
    Computes node slot words room' ins k r := by
  intro m base rest hk hpc hshows hstack hfits
  exact h m base rest hk hpc hshows hstack (by omega)

/-- A run to the end of the code comes there with what is computed. -/
theorem of_crosses {m n : State} (h : Computes node slot words room [] k r) (hrun : k.Crosses node m n)
    (hshows : m.Shows words slot) (hroom : m.stack.length + room ≤ Machine.stackSize) :
    ∃ vs w, r = .ok vs ∧ n = m.arrived slot w (vs ++ m.stack) (m.pc + size k) := by
  have hout := h m m.pc m.stack hrun.stands rfl hshows rfl hroom
  cases r with
  | ok vs =>
    obtain ⟨w, hsteps⟩ := hout
    let P (m1 : State) : Prop := m1 = m.arrived slot w (vs ++ m.stack) (m.pc + size k)
    have hcomes : Comes node m.pc (m.pc + size k) m P := ⟨_, hsteps, .inl rfl⟩
    have hend : P n := hcomes.of_crosses hrun fun m1 hm1 => by
      rw [show m1 = _ from hm1]
      exact Nat.le_refl _
    exact ⟨vs, w, rfl, hend⟩
  | error f =>
    obtain ⟨m', fault, m'', _, hsteps, hpc, hstop, -⟩ := hout
    have hcomes : Comes node m.pc (m.pc + size k) m fun _ => False :=
      ⟨m', hsteps, .inr ⟨hpc.1, hpc.2, fault, m'', hstop⟩⟩
    exact (hcomes.of_crosses hrun fun _ h => h.elim).elim

/-- No code leaves the stack as it is. -/
theorem nil (room : Nat) (ins : List Cell) : Computes node slot words room ins [] (.ok ins) := by
  intro m base rest _ hpc hshows hstack _
  obtain ⟨w, hw⟩ := hshows.exists_arrived
  refine ⟨w, ?_⟩
  have hm : m.arrived slot w (ins ++ rest) (base + size []) = m := by
    rw [hw, ← hstack, Code.size_nil, Nat.add_zero, ← hpc]
  rw [hm]
  exact .refl m

/-- Code behind code goes on with what that has computed. -/
theorem append {f : List Cell → Except ValueFault (List Cell)} (h : Computes node slot words room ins k r)
    (h' : ∀ vs, r = .ok vs → Computes node slot words room vs k' (f vs)) :
    Computes node slot words room ins (k ++ k') (r >>= f) := by
  intro m base rest hk hpc hshows hstack hfits
  rw [Code.size_append, ← Nat.add_assoc]
  refine ((h m base rest hk.left hpc hshows hstack hfits).widen (Nat.le_refl _) (by omega)).bind fun vs w hr => ?_
  have hout := h' vs hr (m.arrived slot w (vs ++ rest) (base + size k)) _ rest hk.right rfl
    (hshows.arrived w _ _) rfl hfits
  exact hout.widen (Nat.le_add_right ..) (Nat.le_refl _)

/-- Code behind code that does not fail. -/
theorem seq {outs : List Cell} {r' : Except ValueFault (List Cell)}
    (h : Computes node slot words room ins k (.ok outs))
    (h' : Computes node slot words room outs k' r') : Computes node slot words room ins (k ++ k') r' := by
  refine append h (f := fun _ => r') fun vs hvs => ?_
  obtain rfl := Except.ok.inj hvs
  exact h'

/-- Code behind code that pushes a value goes on with that. -/
theorem andThen {v? : Except ValueFault Cell} {f : Cell → Except ValueFault (List Cell)} {below : List Cell}
    (h : Computes node slot words room ins k ((· :: below) <$> v?))
    (h' : ∀ v, v? = .ok v → Computes node slot words room (v :: below) k' (f v)) :
    Computes node slot words room ins (k ++ k') (v? >>= f) := by
  cases v? with
  | error fault =>
    intro m base rest hk hpc hshows hstack hfits
    have hend : base + size k ≤ base + size (k ++ k') := by
      rw [Code.size_append]
      omega
    exact (h m base rest hk.left hpc hshows hstack hfits).widen (Nat.le_refl _) hend
  | ok v =>
    refine append h (f := fun _ => f v) fun vs hvs => ?_
    obtain rfl : v :: below = vs := Except.ok.inj hvs
    exact h' v rfl

/-- Words that lie below stay where they are. -/
theorem under (h : Computes node slot words room ins k r) (below : List Cell) :
    Computes node slot words (room + below.length) (ins ++ below) k ((· ++ below) <$> r) := by
  intro m base rest hk hpc hshows hstack hfits
  have hout := h m base (below ++ rest) hk hpc hshows (by rw [hstack, List.append_assoc])
    (by rw [List.length_append]; omega)
  cases r with
  | error f => exact hout
  | ok vs =>
    obtain ⟨w, hsteps⟩ := hout
    rw [← List.append_assoc] at hsteps
    exact ⟨w, hsteps⟩

theorem under_value {v? : Except ValueFault Cell} (h : Computes node slot words room [] k ((fun v => [v]) <$> v?))
    (below : List Cell) : Computes node slot words (room + below.length) below k ((· :: below) <$> v?) := by
  have hunder := h.under below
  cases v? <;> exact hunder

/-! ### Instructions -/

/-- An instruction that does not fail. -/
theorem of_step {i : Instr} {outs : List Cell}
    (h : ∀ (m : State) (held : Bool) (rest : List Cell), i.Stands held m.image m.pc →
      m.Shows words slot → m.stack = ins ++ rest → rest.length + room ≤ Machine.stackSize →
      (Machine.step node).run m = .ok true { m with stack := outs ++ rest, pc := m.pc + i.length }) :
    Computes node slot words room ins (plain [i]) (.ok outs) := by
  intro m base rest hk hpc hshows hstack hfits
  obtain ⟨held, hi⟩ := hk.instr
  rw [← hpc] at hi
  obtain ⟨w, hw⟩ := hshows.exists_arrived
  refine ⟨w, .head (Nat.le_of_eq hpc.symm) (Code.inside_instr hpc) (h m held rest hi hshows hstack hfits) ?_⟩
  rw [hw, ← hpc]
  exact .refl _

theorem immediate (n : Cell) : Computes node slot words (ins.length + 1) ins (plain [.immediate n])
    (.ok (n :: ins)) := by
  intro m base rest hk hpc hshows hstack hfits
  obtain ⟨w, hw⟩ := hshows.exists_arrived
  have hroom : m.stack.length < Machine.stackSize := by
    rw [hstack, List.length_append]
    omega
  refine ⟨w, .head (Nat.le_of_eq hpc.symm) (Code.inside_instr hpc)
    (hk.step_immediate ⟨[], [], rfl, rfl⟩ hpc hroom) ?_⟩
  rw [hw, hstack]
  exact .refl _

theorem load {a : Nat} (ha : a < slot) (hslot : slot < 4096) :
    Computes node slot words (ins.length + 1) ins (plain [.load (UInt16.ofNat a)]) (.ok (words a :: ins)) := by
  refine of_step fun m held rest hi hshows hstack hfits => ?_
  have hroom : ¬Machine.stackSize ≤ m.stack.length := by
    rw [hstack, List.length_append]
    omega
  have haddr : (UInt16.ofNat a).toNat % 4096 = a := Machine.operand_eq (by omega)
  rw [hi.step_load, haddr, hshows.below a ha]
  dsimp only
  rw [if_neg hroom, hstack]
  rfl

theorem unary (u : Unary) (v : Cell) :
    Computes node slot words (ins.length + 1) (v :: ins) (plain [.unary u]) (.ok (u.evalCell v :: ins)) := by
  refine of_step fun m held rest hi hshows hstack hfits => ?_
  have hroom : ¬Machine.stackSize ≤ (ins ++ rest).length := by
    rw [List.length_append]
    omega
  rw [hi.step node, Instr.run, EStateM.run_bind, Exec.run_pop, hstack]
  dsimp only [List.cons_append]
  rw [EStateM.run_bind, Exec.run_push_eq]
  simp only [hroom, if_false]
  rfl

theorem binary (b : Binary) (p q : Cell) :
    Computes node slot words (ins.length + 1) (q :: p :: ins) (plain [.binary b])
      ((· :: ins) <$> applyBinary b p q) := by
  intro m base rest hk hpc hshows hstack hfits
  obtain ⟨held, hi⟩ := hk.instr
  rw [← hpc] at hi
  obtain ⟨w, hw⟩ := hshows.exists_arrived
  have hroom : ¬Machine.stackSize ≤ (ins ++ rest).length := by
    rw [List.length_append]
    omega
  have hstack' : m.stack = q :: p :: (ins ++ rest) := hstack
  have hstep : (Machine.step node).run m = _ := hi.step_binary hstack'
  unfold applyBinary
  cases hv : b.evalCell p q with
  | some v =>
    rw [hv] at hstep
    dsimp only at hstep
    rw [if_neg hroom] at hstep
    refine ⟨w, .head (Nat.le_of_eq hpc.symm) (Code.inside_instr hpc) hstep ?_⟩
    rw [hw, ← hpc]
    exact .refl _
  | none =>
    rw [hv] at hstep
    refine ⟨m, _, _, w, .refl m, ⟨Nat.le_of_eq hpc.symm, Code.inside_instr hpc⟩, hstep, trivial, ?_⟩
    exact (congrArg State.memory (hw m.stack m.pc)).symm

theorem binary_ok {b : Binary} {p q v : Cell} (hv : b.evalCell p q = some v) :
    Computes node slot words (ins.length + 1) (q :: p :: ins) (plain [.binary b]) (.ok (v :: ins)) := by
  have hvalue : (· :: ins) <$> applyBinary b p q = .ok (v :: ins) := by
    rw [applyBinary, hv]
    rfl
  rw [← hvalue]
  exact binary b p q

/-- An index is checked against the size of the array that is read. -/
theorem loadIndirect {a n : Nat} (hn : a + n ≤ slot) (hslot : slot < 4096) (i : Cell) :
    Computes node slot words (ins.length + 1) (i :: ins)
      (plain [.loadIndirect (UInt16.ofNat a) (UInt16.ofNat n)])
      (if i.toUInt16 < UInt16.ofNat n then .ok (words (a + i.toUInt16.toNat) :: ins)
        else .error .indexOutOfRange) := by
  intro m base rest hk hpc hshows hstack hfits
  obtain ⟨held, hi⟩ := hk.instr
  rw [← hpc] at hi
  obtain ⟨w, hw⟩ := hshows.exists_arrived
  have hroom : ¬Machine.stackSize ≤ (ins ++ rest).length := by
    rw [List.length_append]
    omega
  have haddr : (UInt16.ofNat a).toNat % 4096 = a := Machine.operand_eq (by omega)
  have hstack' : m.stack = i :: (ins ++ rest) := hstack
  have hstep : (Machine.step node).run m = _ := hi.step_loadIndirect hstack'
  rw [haddr] at hstep
  by_cases hi : i.toUInt16 < UInt16.ofNat n
  · have hlt : i.toUInt16.toNat < n := by
      have h := UInt16.lt_iff_toNat_lt.mp hi
      rw [UInt16.toNat_ofNat'] at h
      omega
    rw [if_pos hi, hshows.below _ (by omega)] at hstep
    dsimp only at hstep
    rw [if_neg hroom] at hstep
    rw [if_pos hi]
    refine ⟨w, .head (Nat.le_of_eq hpc.symm) (Code.inside_instr hpc) hstep ?_⟩
    rw [hw, ← hpc]
    exact .refl _
  · rw [if_neg hi] at hstep ⊢
    refine ⟨m, _, _, w, .refl m, ⟨Nat.le_of_eq hpc.symm, Code.inside_instr hpc⟩, hstep, trivial, ?_⟩
    exact (congrArg State.memory (hw m.stack m.pc)).symm

/-- A value is multiplied by a stride, unless that is one. -/
theorem scale (stride : Nat) (v : Cell) : Computes node slot words (ins.length + 2) (v :: ins)
    (plain (if stride = 1 then [] else [Coder.pushNat stride, .binary .mult]))
    (.ok (v * Int16.ofNat stride :: ins)) := by
  by_cases hone : stride = 1
  · rw [if_pos hone, hone]
    show Computes node slot words _ (v :: ins) [] (.ok (v * 1 :: ins))
    rw [Int16.mul_one]
    exact nil _ _
  · rw [if_neg hone]
    show Computes node slot words _ (v :: ins) (plain [Coder.pushNat stride] ++ plain [.binary .mult]) _
    refine (immediate (Int16.ofNat stride)).seq ?_
    exact (binary_ok (Binary.evalCell_mult v (Int16.ofNat stride))).mono (by simp)

/-! ### Jumps -/

/-- A branch goes on with the code behind it if its comparison holds, and else
with the code behind that. -/
theorem branch {op : Binary} {x y v : Cell} {a b : Code} {br skip : Instr} (hv : op.evalCell x y = some v)
    (hbr : branchBy? op false (2 + size a + 1) = some br) (hskip : jumpBy? (1 + size b) = some skip)
    (ha : v ≠ 0 → Computes node slot words room [] a r) (hb : v = 0 → Computes node slot words room [] b r) :
    Computes node slot words room [y, x] (plain [br] ++ (a ++ (plain [skip] ++ b))) r := by
  intro m base rest hk hpc hshows hstack hfits
  obtain ⟨w, hw⟩ := hshows.exists_arrived
  have hsize := Code.size_branch hbr
  have hskipped := Code.size_jump hskip
  have hbranch : Code.Branches (plain [br] ++ (a ++ (plain [skip] ++ b))) op 0 (2 + size a + 1) :=
    ⟨_, br, hbr, ⟨[], _, rfl, rfl⟩, by omega⟩
  have hstep : (Machine.step node).run m = _ := hbranch.step hk hpc hstack hv
  have harms := hk.right
  rw [hsize] at harms
  have hin : m.pc < base + size (plain [br] ++ (a ++ (plain [skip] ++ b))) := by
    rw [Code.size_append]
    omega
  by_cases h0 : v = 0
  · rw [if_pos h0, ← hw] at hstep
    refine OutcomeWithin.from_arrived (.head (Nat.le_of_eq hpc.symm) hin hstep (.refl _)) ?_
    have hstands := harms.right.right
    rw [hskipped] at hstands
    have hout := hb h0 (m.arrived slot w rest (base + (2 + size a + 1))) _ rest hstands
      (by rw [State.arrived_pc]; omega) (hshows.arrived w _ _) rfl hfits
    have hend : base + 2 + size a + 1 + size b = base + size (plain [br] ++ (a ++ (plain [skip] ++ b))) := by
      simp only [Code.size_append, hsize, hskipped]
      omega
    rw [hend] at hout
    exact hout.widen (by omega) (Nat.le_refl _)
  · rw [if_neg h0, ← hw] at hstep
    refine OutcomeWithin.from_arrived (.head (Nat.le_of_eq hpc.symm) hin hstep (.refl _)) ?_
    have hout := ha h0 (m.arrived slot w rest (base + (0 + 2))) _ rest harms.left
      (by rw [State.arrived_pc, Nat.zero_add]) (hshows.arrived w _ _) rfl hfits
    have hend : base + 2 + size a + size (plain [skip] ++ b) =
        base + size (plain [br] ++ (a ++ (plain [skip] ++ b))) := by
      simp only [Code.size_append, hsize]
      omega
    rw [← hend, ← bind_pure r]
    refine (hout.widen (by omega) (by omega)).bind fun vs w' _ => ?_
    have hshows' := (hshows.arrived w rest (base + (0 + 2))).arrived w' (vs ++ rest) (base + 2 + size a)
    exact (hshows'.skip hskip harms.right rfl rfl).widen (by omega) (Nat.le_refl _)

/-- The value on the stack is kept if it decides; else the code behind has the
value. -/
theorem decide {a : Word} {op : Binary} {p v : Cell} {b : Code} {skip : Instr} (ha : a.toNat % 4096 = slot)
    (hv : op.evalCell p 0 = some v) (hskip : jumpBy? (1 + size b) = some skip) (hroom : 2 ≤ room)
    (hb : v = 0 → Computes node slot words room [] b r) (hkept : v ≠ 0 → r = .ok [p]) :
    Computes node slot words room [p]
      (plain [.store a, .load a, .immediate 0, .branch op false 4, .load a] ++ (plain [skip] ++ b)) r := by
  intro m base rest hk hpc hshows hstack hfits
  have hrest : rest.length + 2 ≤ Machine.stackSize := by omega
  have hskips := hk.right
  generalize hW : plain [.store a, .load a, .immediate 0, .branch op false 4, .load a] ++
    (plain [skip] ++ b) = W at hk ⊢
  have hat (pre : Code) {i : Instr} {post : Code} (h : W = pre ++ .instr i :: post) : W.At (size pre) i :=
    ⟨pre, post, h, rfl⟩
  let state (st : List Cell) (n : Nat) : State := m.arrived slot p st (base + n)
  have hslot (st : List Cell) (n : Nat) : (state st n).memory[a.toNat % 4096]? = some p := by
    rw [ha]
    exact hshows.slot_arrived p st _
  -- the value is put into the slot and taken out again, to be compared with zero
  have hstore : (Machine.step node).run m = .ok true (state rest 1) := by
    rw [hk.step_store (hat [] hW.symm) hpc hstack (ha.symm ▸ hshows.inside), ha]
    rfl
  have hload : (Machine.step node).run (state rest 1) = .ok true (state (p :: rest) 2) :=
    Code.Stands.step_load hk (hat [_] hW.symm) rfl (hslot rest 1) (by show rest.length < _; omega)
  have hzero : (Machine.step node).run (state (p :: rest) 2) = .ok true (state (0 :: p :: rest) 3) :=
    Code.Stands.step_immediate hk (hat [_, _] hW.symm) rfl (by show rest.length + 1 < _; omega)
  have hbranch : W.Branches op 3 7 := ⟨4, .branch op false 4, rfl, hat [_, _, _] hW.symm, rfl⟩
  have hbranched : (Machine.step node).run (state (0 :: p :: rest) 3) =
      .ok true (state rest (if v = 0 then 7 else 5)) :=
    Code.Branches.step hk hbranch rfl rfl hv
  have hend : base + 6 < base + size W := by
    rw [← hW, Code.size_append, Code.size_append, Code.size_jump hskip]
    show base + 6 < base + (6 + _)
    omega
  have hfront : Between node base (base + size W) m (state rest (if v = 0 then 7 else 5)) :=
    .head (by omega) (by omega) hstore (.head (by show base ≤ base + 1; omega) (by show base + 1 < _; omega) hload
      (.head (by show base ≤ base + 2; omega) (by show base + 2 < _; omega) hzero
        (.head (by show base ≤ base + 3; omega) (by show base + 3 < _; omega) hbranched (.refl _))))
  by_cases h0 : v = 0
  · rw [if_pos h0] at hfront
    refine OutcomeWithin.from_arrived hfront ?_
    have hseven : (state rest 7).pc = base + 6 + size (plain [skip]) := by
      rw [Code.size_jump hskip]
      rfl
    have hout := hb h0 (state rest 7) _ rest hskips.right hseven (hshows.arrived p _ _) rfl hfits
    have hstop : base + 6 + size (plain [skip]) + size b = base + size W := by
      rw [← hW, Code.size_append, Code.size_append]
      show _ = base + (6 + _)
      omega
    exact hstop ▸ hout.widen (by omega) (Nat.le_refl _)
  · rw [if_neg h0] at hfront
    rw [hkept h0]
    have hagain : (Machine.step node).run (state rest 5) = .ok true (state (p :: rest) 6) :=
      Code.Stands.step_load hk (hat [_, _, _, _] hW.symm) rfl (hslot rest 5) (by show rest.length < _; omega)
    refine OutcomeWithin.from_arrived (hfront.trans
      (.head (by show base ≤ base + 5; omega) (by show base + 5 < _; omega) hagain (.refl _))) ?_
    have hout : OutcomeWithin node slot rest _ _ _ (state (p :: rest) 6) (.ok [p]) :=
      (hshows.arrived p (p :: rest) (base + 6)).skip hskip hskips rfl rfl
    rw [Nat.add_assoc, ← Code.size_append, hW] at hout
    exact hout.widen (by omega) (Nat.le_refl _)

end Computes

end RobotScript
