/-
# Words of variables

Where a variable lies is known to the code, for one at a fixed address, or is
found in memory: behind the frame pointer for one in a frame, and where a slot
of the frame points to for one that is passed by reference. Whatever the mode,
the code for a word of the variable uses the word that lies that far behind the
start.

Key definitions: `Storage.Begins`, `Uses`.
Key theorems: `Storage.Begins.uses_found`, `Place.uses_known`.
-/
import RobotScript.Proofs.ArrayAccess
import RobotScript.Proofs.Pushing

namespace RobotScript

open Machine (Instr State)
open Code (plain size)
open Coder (pushNat)

/-- The words of the variable lie in memory from the address `a` on. -/
def Storage.Begins (s : Storage) (node : Node) (memory : Array Cell) (a : Nat) : Prop :=
  match s.mode with
  | .absolute => a = s.offset
  | .frame => ∃ fp, memory[node.frameSlot]? = some fp ∧ a = fp.toUInt16.toNat + s.offset
  | .reference => ∃ fp p, memory[node.frameSlot]? = some fp ∧
      memory[fp.toUInt16.toNat + s.offset]? = some p ∧ a = p.toUInt16.toNat

theorem Variable.stored_eq_ok {v : Variable} {s : Storage} {st st' : Coding.State}
    (h : (liftM v.stored : Coding Storage) st = .ok (s, st')) : v.storage = some s ∧ st' = st := by
  unfold Variable.stored at h
  split at h
  · rename_i hs
    cases h
    exact ⟨hs, rfl⟩
  · cases h

/-- The machine comes to the address `q` with the word at `a` pushed on the `rest`
of the stack, or with the word on top of the rest stored there. -/
structure Uses (node : Node) (use : Use) (a : Nat) (rest : List Cell) (q : Nat) (m : State) : Prop where
  load : use = .load → Steps node m { m with stack := m.word a :: rest, pc := q }
  store : use = .store → ∀ v below, rest = v :: below →
    Steps node m { m.setWord a v with stack := below, pc := q }

namespace Uses

variable {node : Node} {use : Use} {a q : Nat} {rest : List Cell} {m : State}

/-- A check that is passed is no hindrance. -/
theorem of_checked {sum limit : Word} (h : Checked node use a sum limit rest q m) (hsum : sum < limit)
    (ha : a < m.memory.size) : Uses node use a rest q m :=
  ⟨h.load hsum ha, h.store hsum ha⟩

theorem of_steps {p : Nat} {stack : List Cell} (hsteps : Steps node m { m with stack, pc := p })
    (h : Uses node use a rest q { m with stack, pc := p }) : Uses node use a rest q m :=
  ⟨fun huse => hsteps.trans (h.load huse),
    fun huse v below hrest => hsteps.trans (h.store huse v below hrest)⟩

/-- The word at an address that the instruction holds. -/
theorem direct (huse : use ≠ .address) (haddr : a < 4096) (hcode : (plain [use.direct a]).Stands m.image m.pc)
    (ha : a < m.memory.size) (hroom : m.stack.length < Machine.stackSize) :
    Uses node use a m.stack (m.pc + 1) m := by
  have hoperand : (UInt16.ofNat a).toNat % 4096 = a := Machine.operand_eq haddr
  refine ⟨?_, ?_⟩
  · rintro rfl
    have hstep : (Machine.step node).run m = _ := Code.Stands.step_load (p := 0) hcode ⟨[], [], rfl, rfl⟩ rfl
      (by rw [hoperand]; exact State.getElem?_memory ha) hroom
    exact .head hstep (.refl _)
  · rintro rfl v below hstack
    have hstep : (Machine.step node).run m = _ :=
      Code.Stands.step_store (p := 0) hcode ⟨[], [], rfl, rfl⟩ rfl hstack
        (by rw [hoperand]; exact ha)
    rw [hoperand] at hstep
    exact .head hstep (.refl _)

end Uses

/-! ### Positions that are on the stack -/

section

variable {c : Coder} {s : Storage} {use : Use} {m : State} {a : Nat}

/-- A number that a word can hold is the same without its sign. -/
theorem toNat_ofNat_add {p : Cell} {f : Nat} (h : p.toUInt16.toNat + f < 65536) :
    (p + Int16.ofNat f).toUInt16.toNat = p.toUInt16.toNat + f := by
  rw [Machine.toNat_add_cell, toNat_ofNat_cell (by omega), Nat.mod_eq_of_lt h]

/-- The code behind a position uses the word that lies so far behind the start of
the variable. -/
theorem Storage.Begins.uses_computed {f : Nat} {address : Cell} {rest : List Cell} (huse : use ≠ .address)
    (hs : s.Usable c use 0) (hsize : s.size < 65536) (hwords : s.mode ≠ .absolute → c.node.maxVarSize ≤ 4096)
    (hmemory : m.memory.size = c.node.maxVarSize) (hbegins : s.mode ≠ .reference → s.Begins c.node m.memory a)
    (haddress : s.mode = .reference → address.toUInt16.toNat = a) (hf : f < s.size)
    (hlies : a + s.size ≤ m.memory.size) (hcode : (plain (s.back c use)).Stands m.image m.pc)
    (hstack : m.stack = s.operands (Int16.ofNat f) address ++ rest)
    (hroom : rest.length + 2 ≤ Machine.stackSize) :
    Uses c.node use (a + f) rest (m.pc + Code.size (plain (s.back c use))) m := by
  have hchecked := Checked.of_back huse hs hcode hmemory hstack hroom
  have hlimit (n : Nat) (hn : n < 65536) : (UInt16.ofNat n).toNat = n := by
    rw [UInt16.toNat_ofNat', Nat.mod_eq_of_lt hn]
  unfold Storage.target Storage.origin Storage.limit at hchecked
  unfold Storage.Begins at hbegins
  cases hmode : s.mode with
  | absolute =>
    simp only [hmode] at hchecked hbegins
    obtain rfl : a = s.offset := hbegins (by rintro ⟨⟩)
    rw [Int16.zero_add, toNat_ofNat_cell (by omega)] at hchecked
    refine .of_checked hchecked ?_ (by omega)
    rw [UInt16.lt_iff_toNat_lt, toNat_ofNat_cell (by omega), hlimit _ hsize]
    exact hf
  | frame =>
    simp only [hmode] at hchecked hbegins
    obtain ⟨fp, hfp, rfl⟩ := hbegins (by rintro ⟨⟩)
    have hwords := hwords (by rw [hmode]; rintro ⟨⟩)
    have hslot : c.node.frameSlot < m.memory.size := (Array.getElem?_eq_some_iff.mp hfp).1
    have hword : m.word (c.node.frameSlot % 4096) = fp := by
      rw [Nat.mod_eq_of_lt (by omega)]
      exact Option.some.inj ((State.getElem?_memory hslot).symm.trans hfp)
    rw [hword, toNat_ofNat_add (by omega)] at hchecked
    have htarget : s.offset + (fp.toUInt16.toNat + f) = fp.toUInt16.toNat + s.offset + f := by omega
    rw [htarget] at hchecked
    refine .of_checked hchecked ?_ (by omega)
    rw [UInt16.lt_iff_toNat_lt, toNat_ofNat_add (by omega), hlimit _ (by omega)]
    omega
  | reference =>
    simp only [hmode] at hchecked
    have haddress := haddress hmode
    have hwords := hwords (by rw [hmode]; rintro ⟨⟩)
    rw [toNat_ofNat_add (by omega), haddress] at hchecked
    refine .of_checked hchecked ?_ (by omega)
    rw [UInt16.lt_iff_toNat_lt, toNat_ofNat_add (by omega), hlimit _ (by omega)]
    omega

/-! ### Positions that are known -/

theorem Storage.Usable.fits {k : Nat} (h : s.Usable c use k) (huse : use ≠ .address) :
    c.Fits (if s.mode = .reference then s.offset else s.offset + k) := by
  unfold Storage.Usable at h
  cases hmode : s.mode <;> cases use <;> simp_all

section

variable (hwords : c.node.maxVarSize ≤ 4096)

include hwords

theorem Coder.lt_memorySize {w : Word} (h : w.toNat < c.node.maxVarSize) : w < c.memorySize := by
  rw [UInt16.lt_iff_toNat_lt]
  show _ < (UInt16.ofNat c.node.maxVarSize).toNat
  rwa [UInt16.toNat_ofNat', Nat.mod_eq_of_lt (by omega)]

/-- The frame pointer is pushed. -/
theorem Coder.steps_frameSlot {fp : Cell} (hfp : m.memory[c.node.frameSlot]? = some fp)
    (hcode : (plain [.load c.frameSlot]).Stands m.image m.pc) (hroom : m.stack.length < Machine.stackSize) :
    Steps c.node m { m with stack := fp :: m.stack, pc := m.pc + 1 } := by
  have hstep : (Machine.step c.node).run m = _ :=
    Code.Stands.step_load (p := 0) (v := fp) hcode ⟨[], [], rfl, rfl⟩ rfl
      (by rw [Coder.frameSlot_toNat hwords]; exact hfp) hroom
  exact .head hstep (.refl _)

variable (hmemory : m.memory.size = c.node.maxVarSize)

include hmemory

/-- The address that a reference parameter holds is pushed. -/
theorem Coder.steps_held {fp p : Cell} (hfits : c.Fits s.offset)
    (hfp : m.memory[c.node.frameSlot]? = some fp) (hp : m.memory[fp.toUInt16.toNat + s.offset]? = some p)
    (hcode : (plain (s.held c)).Stands m.image m.pc) (hroom : m.stack.length < Machine.stackSize) :
    Steps c.node m { m with stack := p :: m.stack, pc := m.pc + 3 } := by
  have hcode : (plain [.load c.frameSlot] ++ plain (Use.load.indirect s.offset c.memorySize)).Stands
      m.image m.pc := hcode
  have hin : fp.toUInt16.toNat + s.offset < m.memory.size := (Array.getElem?_eq_some_iff.mp hp).1
  have hframe := Coder.steps_frameSlot hwords hfp hcode.left hroom
  have hchecked : Checked c.node .load (s.offset + fp.toUInt16.toNat) fp.toUInt16 c.memorySize m.stack
      (m.pc + 3) { m with stack := fp :: m.stack, pc := m.pc + 1 } :=
    .indirect nofun hfits.1 hcode.right rfl hroom rfl
  have hload := hchecked.load (Coder.lt_memorySize hwords (by omega)) (by show _ < m.memory.size; omega) rfl
  have hword : m.word (s.offset + fp.toUInt16.toNat) = p := by
    rw [Nat.add_comm]
    exact Option.some.inj ((State.getElem?_memory hin).symm.trans hp)
  rw [← hword]
  exact hframe.trans hload

/-- The word so far behind an address that is pushed first. -/
theorem Uses.behind {pre : Code} {p : Cell} {offset : Nat} (huse : use ≠ .address)
    (hsteps : Steps c.node m { m with stack := p :: m.stack, pc := m.pc + size pre })
    (hcode : (pre ++ plain (use.indirect offset c.memorySize)).Stands m.image m.pc) (hoffset : offset < 4096)
    (hin : p.toUInt16.toNat + offset < m.memory.size) (hroom : m.stack.length < Machine.stackSize) :
    Uses c.node use (p.toUInt16.toNat + offset) m.stack
      (m.pc + size (pre ++ plain (use.indirect offset c.memorySize))) m := by
  have hsize : size (plain (use.indirect offset c.memorySize)) = 2 := by
    cases use with
    | address => exact absurd rfl huse
    | load | store => rfl
  have hchecked : Checked c.node use (offset + p.toUInt16.toNat) p.toUInt16 c.memorySize m.stack
      (m.pc + size pre + 2) { m with stack := p :: m.stack, pc := m.pc + size pre } :=
    .indirect huse hoffset hcode.right rfl hroom rfl
  rw [Code.size_append, hsize, ← Nat.add_assoc, Nat.add_comm p.toUInt16.toNat]
  exact .of_steps hsteps (.of_checked hchecked (Coder.lt_memorySize hwords (by omega))
    (by show _ < m.memory.size; omega))

end

/-- What lies below the position on the stack: the address of a variable that is
passed by reference. -/
def Storage.below (s : Storage) (a : Nat) : List Cell :=
  match s.mode with
  | .reference => [Int16.ofNat a]
  | .absolute | .frame => []

theorem Storage.operands_ofNat (s : Storage) (i : Cell) (a : Nat) :
    s.operands i (Int16.ofNat a) = i :: s.below a := by
  unfold operands below
  cases s.mode <;> rfl

theorem Storage.length_below (s : Storage) (a : Nat) : (s.below a).length ≤ 1 := by
  unfold below
  split <;> simp

/-- The machine before a position is computed: a reference has been pushed. -/
def Storage.ready (s : Storage) (c : Coder) (a : Nat) (m : State) : State :=
  { m with stack := s.below a ++ m.stack, pc := m.pc + Code.size (plain (s.front c .load)) }

theorem Storage.front_eq (huse : use ≠ .address) : s.front c use = s.front c .load := by
  cases use with
  | address => exact absurd rfl huse
  | load => rfl
  | store =>
    unfold Storage.front
    cases s.mode <;> rfl

theorem Storage.Usable.load (h : s.Usable c use 0) (huse : use ≠ .address) : s.Usable c .load 0 := by
  cases use with
  | address => exact absurd rfl huse
  | load => exact h
  | store =>
    unfold Storage.Usable at h ⊢
    cases hmode : s.mode <;> simpa only [hmode] using h

/-- A reference is pushed before the indices are computed. -/
theorem Storage.Begins.steps_front (hwords : s.mode ≠ .absolute → c.node.maxVarSize ≤ 4096)
    (hmemory : m.memory.size = c.node.maxVarSize) (hbegins : s.Begins c.node m.memory a)
    (hs : s.Usable c .load 0) (hcode : (plain (s.front c .load)).Stands m.image m.pc)
    (hroom : m.stack.length < Machine.stackSize) : Steps c.node m (s.ready c a m) := by
  unfold Storage.Begins at hbegins
  unfold Storage.Usable at hs
  unfold Storage.ready Storage.below
  unfold Storage.front at hcode ⊢
  cases hmode : s.mode with
  | absolute | frame => exact .refl m
  | reference =>
    simp only [hmode] at hbegins hs hcode ⊢
    obtain ⟨fp, p, hfp, hp, rfl⟩ := hbegins
    have haddress : Int16.ofNat p.toUInt16.toNat = p := (eq_ofNat_of_toNat rfl).symm
    rw [haddress]
    exact Coder.steps_held (hwords (by rw [hmode]; nofun)) hmemory hs hfp hp hcode hroom

/-- The code of a position is run behind what comes before it, and the word at the
position is used. -/
theorem Storage.Begins.uses_found {base f : Nat} {W kp : Code} {n : State} (huse : use ≠ .address)
    (hs : s.Usable c use 0) (hsize : s.size < 65536) (hwords : s.mode ≠ .absolute → c.node.maxVarSize ≤ 4096)
    (hmemory : m.memory.size = c.node.maxVarSize) (hbefore : s.Begins c.node m.memory a)
    (hbehind : s.Begins c.node n.memory a) (hf : f < s.size) (hlies : a + s.size ≤ m.memory.size)
    (hpart : ∀ image, W.Stands image base →
      (plain (s.front c use) ++ kp ++ plain (s.back c use)).Stands image m.pc)
    (hW : W.Stands m.image base) (hrun : Stacks c.node base W kp [Int16.ofNat f] (s.ready c a m) n)
    (hroom : m.stack.length + 2 ≤ Machine.stackSize) :
    Steps c.node m n ∧ Uses c.node use (a + f) m.stack
      (m.pc + Code.size (plain (s.front c use) ++ kp ++ plain (s.back c use))) n := by
  rw [Storage.front_eq huse] at hpart ⊢
  have hfront := hbefore.steps_front hwords hmemory (hs.load huse) (hpart _ hW).left.left (by omega)
  have hreached := hfront.trans hrun.steps
  have hkept := hreached.memory_size
  have hstack : n.stack = s.operands (Int16.ofNat f) (Int16.ofNat a) ++ m.stack := by
    rw [hrun.stack, s.operands_ofNat]
    rfl
  have hpc : n.pc = m.pc + Code.size (plain (s.front c .load)) + Code.size kp := hrun.pc
  have hback := (hpart _ hrun.code).right
  rw [Code.size_append, ← Nat.add_assoc, ← hpc] at hback
  refine ⟨hreached, ?_⟩
  rw [Code.size_append, Code.size_append, ← Nat.add_assoc, ← Nat.add_assoc, ← hpc]
  exact Storage.Begins.uses_computed huse hs hsize hwords (hkept.trans hmemory) (fun _ => hbehind)
    (fun hmode => by
      have hwords := hwords (by rw [hmode]; nofun)
      exact toNat_ofNat_cell (by omega))
    hf (hkept ▸ hlies) hback hstack hroom

/-- The code for a word whose position is known uses the word that lies so far
behind the start of the variable. A reference is on the stack together with the
position, unless that is zero. -/
theorem Place.uses_known {k : Nat} {st st1 : Coding.State} {kc : Code}
    (h : Place.use c ⟨s, .known k⟩ use st = .ok (kc, st1)) (huse : use ≠ .address)
    (hwords : s.mode ≠ .absolute → c.node.maxVarSize ≤ 4096) (hmemory : m.memory.size = c.node.maxVarSize)
    (hbegins : s.Begins c.node m.memory a) (hk : k < s.size) (hlies : a + s.size ≤ m.memory.size)
    (hcode : kc.Stands m.image m.pc)
    (hroom : m.stack.length + (if s.mode = .reference ∧ k ≠ 0 then 2 else 1) ≤ Machine.stackSize) :
    st1 = st ∧ Uses c.node use (a + k) m.stack (m.pc + Code.size kc) m := by
  have hnext : m.stack.length < Machine.stackSize := by
    split at hroom <;> omega
  by_cases hindexed : s.mode = .reference ∧ k ≠ 0
  · rw [if_pos hindexed] at hroom
    have hwords' := hwords (by rw [hindexed.1]; nofun)
    have hnone : Place.direct? c ⟨s, .known k⟩ use = none := by
      unfold Place.direct? Storage.fixed?
      rw [hindexed.1]
      cases k with
      | zero => exact absurd rfl hindexed.2
      | succ k => rfl
    obtain ⟨husable, kp, hkp, rfl⟩ := Place.use_indexed hnone h
    cases hkp
    rw [Storage.front_eq huse, List.append_assoc] at hcode ⊢
    have hstacked : (s.below a ++ m.stack).length < Machine.stackSize := by
      have hbelow := s.length_below a
      rw [List.length_append]
      omega
    have hpushed : Stacks c.node _ _ _ _ (s.ready c a m) _ :=
      .immediate hcode ⟨plain (s.front c .load), _, rfl, rfl⟩ rfl hstacked
    obtain ⟨hsteps, huses⟩ := hbegins.uses_found huse husable (by show s.size < _; omega) hwords hmemory
      (by exact hbegins) hk hlies (fun _ h => by rwa [Storage.front_eq huse, List.append_assoc]) hcode
      hpushed hroom
    rw [Storage.front_eq huse, List.append_assoc] at huses
    exact ⟨rfl, .of_steps hsteps huses⟩
  obtain ⟨offset, dims, ty, mode⟩ := s
  cases mode with
  | absolute =>
    obtain rfl : a = offset := hbegins
    obtain ⟨rfl, hfits, rfl⟩ := Place.use_direct rfl h
    rw [show size (plain [use.direct (a + k)]) = 1 by cases use <;> trivial]
    exact ⟨rfl, .direct huse (hfits.fits huse).1 hcode (by omega) hnext⟩
  | frame =>
    obtain ⟨fp, hfp, rfl⟩ := hbegins
    have hdirect : Place.direct? c ⟨⟨offset, dims, ty, .frame⟩, .known k⟩ use =
        some ([.load c.frameSlot] ++ use.indirect (offset + k) c.memorySize) := by
      cases use with
      | address => exact absurd rfl huse
      | load | store => rfl
    obtain ⟨rfl, hfits, rfl⟩ := Place.use_direct hdirect h
    change (plain [.load c.frameSlot] ++ plain (use.indirect (offset + k) c.memorySize)).Stands
      m.image m.pc at hcode
    have hframe := Coder.steps_frameSlot (hwords nofun) hfp hcode.left hnext
    rw [Nat.add_assoc]
    exact ⟨rfl, .behind (hwords nofun) hmemory huse hframe hcode (hfits.fits huse).1
      (by dsimp only at hlies; omega) hnext⟩
  | reference =>
    obtain ⟨fp, p, hfp, hp, rfl⟩ := hbegins
    obtain rfl : k = 0 := by simpa using hindexed
    obtain ⟨rfl, hfits, rfl⟩ := Place.use_direct rfl h
    change (plain (Storage.held c _) ++ plain (use.indirect 0 c.memorySize)).Stands m.image m.pc at hcode
    have hheld := Coder.steps_held (hwords nofun) hmemory (hfits.fits huse) hfp hp hcode.left hnext
    exact ⟨rfl, .behind (hwords nofun) hmemory huse hheld hcode (by decide) (by omega) hnext⟩

end

end RobotScript
