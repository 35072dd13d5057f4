/-
# The uses of a place

The word of a place is loaded, stored to and pointed to by three pieces of code
of different shapes: an absolute word is used at once or at an index that is
checked, one in the frame at an index that the frame pointer is added to, and
one behind a reference at an index that is the address itself. All three mean
the same word, also where sums wrap around, and storing changes no other, but
for the return slot and the temporaries that the indices take.

Key definitions: `PointsAt`.
Key theorem: `place_uses_agree`.
-/
import RobotScript.Proofs.PureIndices

namespace RobotScript

open Machine (Instr Binary State)
open Code (plain size)
open Coder (pushNat)

variable {c : Coder} {s : Storage} {spot : Spot} {st st' : Coding.State}

/-! ### Code that is generated from one state -/

theorem Coding.bind_eq_ok {α β : Type} {x : Coding α} {f : α → Coding β} {b : β}
    (h : (x >>= f) st = .ok (b, st')) : ∃ a st1, x st = .ok (a, st1) ∧ f a st1 = .ok (b, st') := by
  obtain ⟨⟨a, st1⟩, hx, hf⟩ := RobotScript.bind_eq_ok.mp h
  exact ⟨a, st1, hx, hf⟩

theorem Coder.address_eq_ok {addr : Nat} {w : Word} (h : c.address addr st = .ok (w, st')) :
    w = UInt16.ofNat addr ∧ st' = st ∧ c.Fits addr := by
  unfold Coder.address at h
  split at h
  · cases h
  · rename_i hfits
    rw [not_or, Nat.not_le, Nat.not_le] at hfits
    cases h
    exact ⟨rfl, rfl, hfits⟩

theorem Coder.tempTop_le (c : Coder) : c.tempTop ≤ c.node.maxVarSize := by
  unfold Coder.tempTop Node.returnSlot
  split <;> omega

theorem Spot.drafted (s : Storage) : ∀ spot : Spot, spot.Drafted c s
  | .known k => Spot.drafted_known s k
  | .saved temp => Spot.drafted_saved s temp
  | .computed _ => fun t =>
    (Expr.positionCode_brings s.dims 0 1 (fun e _ => e.drafted) t).mono fun _ _ ⟨K, hcode, hK⟩ =>
      ⟨K, hcode, .computed hK⟩

/-- The position of an element has a function, the same each time. -/
theorem Spot.Repeatable.position {k : Code} (hspot : spot.Repeatable) (hwords : c.node.maxVarSize ≤ 4096)
    (hcount : c.node.nativeFunctions.length ≤ 4096) (htemps : st.nextTemp ≤ c.node.maxVarSize)
    (h : (spot.place c s).position st = .ok (k, st')) :
    st'.nextTemp ≤ st.nextTemp ∧ Works c.node (c.Spare st'.nextTemp st.nextTemp) k 0 1 := by
  obtain ⟨-, K, rfl, hK⟩ := spot.drafted s st.nextTemp st k st' rfl h
  have hdraws : Draws c _ K _ 0 1 := hK.draws hwords hcount hspot
  exact hdraws htemps

theorem Storage.check_eq_ok {use : Use} {k : Nat} (h : s.check c use k st = .ok ((), st')) :
    st' = st ∧ s.Usable c use k := by
  have hcheck {addr : Nat} (h : c.check addr st = .ok ((), st')) : st' = st ∧ c.Fits addr := by
    obtain ⟨w, st1, haddr, h⟩ := Coding.bind_eq_ok h
    cases h
    exact (Coder.address_eq_ok haddr).2
  unfold Storage.check at h
  unfold Storage.Usable
  cases hmode : s.mode with
  | reference => exact hcheck (by simpa only [hmode] using h)
  | absolute | frame =>
    cases use with
    | address =>
      simp only [hmode] at h
      cases h
      exact ⟨rfl, trivial⟩
    | load | store => exact hcheck (by simpa only [hmode] using h)

namespace Place

variable {p : Place} {k : Code} {use : Use}

/-- The code of a use that is at once. -/
theorem use_direct {is : List Instr} (hdirect : p.direct? c use = some is) (h : p.use c use st = .ok (k, st')) :
    st' = st ∧ p.storage.Usable c use p.known ∧ k = plain is := by
  rw [use_eq, hdirect] at h
  obtain ⟨_, st1, hcheck, h1⟩ := Coding.bind_eq_ok h
  obtain ⟨rfl, hs⟩ := Storage.check_eq_ok hcheck
  cases h1
  exact ⟨rfl, hs, rfl⟩

/-- The code of a use behind the position. -/
theorem use_indexed (hdirect : p.direct? c use = none) (h : p.use c use st = .ok (k, st')) :
    p.storage.Usable c use 0 ∧ ∃ kp, p.position st = .ok (kp, st') ∧
      k = plain (p.storage.front c use) ++ kp ++ plain (p.storage.back c use) := by
  rw [use_eq, hdirect] at h
  obtain ⟨_, st1, hcheck, h1⟩ := Coding.bind_eq_ok h
  obtain ⟨rfl, hs⟩ := Storage.check_eq_ok hcheck
  obtain ⟨kp, st2, hkp, h2⟩ := Coding.bind_eq_ok h1
  cases h2
  exact ⟨hs, kp, hkp, rfl⟩

end Place

/-! ### Indices and addresses -/

/-- One function finds an index and the other an address. The address is that of
the word at the index behind `base`, and memory is left the same. -/
def PointsAt (node : Node) (base : Nat) (f g : Sight → Option Sight) : Prop :=
  ∀ memory i memory1 j memory2, memory.size = node.maxVarSize → f ([], memory) = some ([i], memory1) →
    g ([], memory) = some ([j], memory2) →
    j.toUInt16.toNat = (base + i.toUInt16.toNat) % 65536 ∧ memory2 = memory1

section

variable {node : Node} {W : Nat → Prop} {f : Sight → Option Sight}

theorem pointsAt_self (node : Node) (f : Sight → Option Sight) : PointsAt node 0 f f := by
  intro memory i memory1 j memory2 _ hf hg
  rw [hf] at hg
  cases hg
  have hlt := i.toUInt16.toNat_lt
  exact ⟨by omega, rfl⟩

variable {offset : Nat}

/-- The position is added to the address of a variable. -/
theorem pointsAt_absolute (hoffset : offset < 4096) (f : Sight → Option Sight) :
    PointsAt node offset f fun x =>
      ((Sight.push (Int16.ofNat offset) x).bind (Sight.above 0 f)).bind (Sight.binary .add) := by
  intro memory i memory1 j memory2 _ hf hg
  simp only [Sight.push, Sight.above, Sight.binary, List.take_zero, List.drop_zero, Option.bind_some, hf,
    Option.map_some, List.cons_append, List.nil_append, Machine.Binary.evalCell_add] at hg
  cases hg
  rw [Machine.toNat_add_cell, toNat_ofNat_cell (by omega)]
  exact ⟨rfl, rfl⟩

/-- Where the frame pointer is the index, the position is part of the address
that it is added to. -/
theorem pointsAt_frame_known (hoffset : offset < 4096) (slot : Nat) :
    PointsAt node offset (Sight.load slot) fun x =>
      ((Sight.load slot x).bind (Sight.push (Int16.ofNat offset))).bind (Sight.binary .add) := by
  intro memory i memory1 j memory2 _ hf hg
  simp only [hf, Option.bind_some, Sight.push, Sight.binary, Machine.Binary.evalCell_add,
    Option.map_some] at hg
  cases hg
  rw [Machine.toNat_add_cell, toNat_ofNat_cell (by omega)]
  exact ⟨by omega, rfl⟩

/-- A position that is known is added to the address of the first word. -/
theorem PointsAt.add {n : Nat} {g : Sight → Option Sight} (hn : n < 4096) (hg : Confines node W 0 1 g)
    (h : PointsAt node offset f g) :
    PointsAt node (offset + n) f fun x => ((g x).bind (Sight.push (Int16.ofNat n))).bind (Sight.binary .add) := by
  intro memory i memory1 j memory2 hsize hindex haddress
  obtain ⟨⟨ws, memory'⟩, hpush, hsum⟩ := Option.bind_eq_some_iff.mp haddress
  obtain ⟨⟨vs, memory''⟩, hfirst, hpush⟩ := Option.bind_eq_some_iff.mp hpush
  obtain ⟨v, rfl⟩ := List.length_eq_one_iff.mp (hg _ _ rfl hsize hfirst).1
  cases hpush
  simp only [Sight.binary, Machine.Binary.evalCell_add, Option.map_some] at hsum
  cases hsum
  obtain ⟨hv, rfl⟩ := h memory i memory1 v _ hsize hindex hfirst
  refine ⟨?_, rfl⟩
  rw [Machine.toNat_add_cell, toNat_ofNat_cell (by omega), hv]
  omega

/-- The frame pointer is added to the position, or the position to the sum of the
frame pointer and the offset: computing the position has left the frame pointer
as it was. -/
theorem pointsAt_frame {slot : Nat} (hoffset : offset < 4096) (hf : Confines node W 0 1 f) (hslot : ¬W slot) :
    PointsAt node offset (fun x => ((f x).bind (Sight.load slot)).bind (Sight.binary .add)) fun x =>
      ((((Sight.load slot x).bind (Sight.push (Int16.ofNat offset))).bind (Sight.binary .add)).bind
        (Sight.above 0 f)).bind (Sight.binary .add) := by
  intro memory i memory1 j memory2 hsize hindex haddress
  obtain ⟨⟨ws, memory'⟩, hload, hsum⟩ := Option.bind_eq_some_iff.mp hindex
  obtain ⟨⟨vs, memory''⟩, hposition, hload⟩ := Option.bind_eq_some_iff.mp hload
  obtain ⟨hlength, -, hsame⟩ := hf _ _ rfl hsize hposition
  obtain ⟨v, rfl⟩ := List.length_eq_one_iff.mp hlength
  obtain ⟨w, hw, hload⟩ := Option.map_eq_some_iff.mp hload
  cases hload
  simp only [Sight.binary, Machine.Binary.evalCell_add, Option.map_some] at hsum
  cases hsum
  have hw' : memory[slot]? = some w := (hsame slot hslot).symm.trans hw
  simp only [Sight.load, hw', Sight.push, Sight.above, Sight.binary, List.take_zero, List.drop_zero,
    Option.bind_some, Option.map_some, hposition, List.cons_append, List.nil_append,
    Machine.Binary.evalCell_add] at haddress
  cases haddress
  refine ⟨?_, rfl⟩
  simp only [Machine.toNat_add_cell, toNat_ofNat_cell (show offset < 65536 by omega)]
  omega

end

/-! ### How a place is reached -/

/-- The frame pointer lies behind the temporaries, which only one of the languages
has functions for. -/
def Coder.Framed (c : Coder) : Prop := c.settings.language = .l2 ∧ 2 ≤ c.node.maxVarSize

/-- Code that loads, stores to and points to one word: at an address that is known,
or at an index behind an address, with code of its own for the address of the word there. -/
inductive Aimed (c : Coder) (W : Nat → Prop) : Code → Code → Code → Prop
  | direct {j : Nat} (hj : j < c.node.maxVarSize) :
    Aimed c W (plain [.load (UInt16.ofNat j)]) (plain [.store (UInt16.ofNat j)]) (plain [pushNat j])
  | indexed {base : Nat} {w : Word} {index kp : Code} {f g : Sight → Option Sight} (hbase : base < 4096)
    (hf : Fragment c.node W index 0 1 f) (hg : Fragment c.node W kp 0 1 g) (h : PointsAt c.node base f g) :
    Aimed c W (index ++ plain [.loadIndirect (UInt16.ofNat base) w])
      (index ++ plain [.storeIndirect (UInt16.ofNat base) w]) kp

section

variable (hwords : c.node.maxVarSize ≤ 4096)

include hwords

theorem Coder.frameSlot_toNat : c.frameSlot.toNat % 4096 = c.node.frameSlot :=
  Machine.operand_eq (by unfold Node.frameSlot; omega)

/-- Computing an index does not touch the frame pointer. -/
theorem Coder.Framed.not_spare {t t' : Nat} (h : c.Framed) (ht : t ≤ c.tempTop) :
    ¬c.Spare t' t (c.frameSlot.toNat % 4096) := by
  rw [Coder.frameSlot_toNat hwords]
  unfold Coder.Spare Node.returnSlot Node.frameSlot
  have htop : c.tempTop = c.node.maxVarSize - 2 := by
    rw [Coder.tempTop, h.1]
    rfl
  have := h.2
  omega

end

variable {W : Nat → Prop}

/-- The address of the first word of a variable in the frame. -/
theorem Coder.framed_does (c : Coder) (offset : Nat) :
    Fragment c.node W (plain [.load c.frameSlot, pushNat offset, .binary .add]) 0 1 fun x =>
      ((Sight.load (c.frameSlot.toNat % 4096) x).bind (Sight.push (Int16.ofNat offset))).bind
        (Sight.binary .add) := by
  have hload : Fragment c.node W (plain [.load c.frameSlot]) 0 1 (Sight.load (c.frameSlot.toNat % 4096)) :=
    ⟨.load _ 0, .load _⟩
  have hoffset : Fragment c.node W (plain [pushNat offset]) 1 2 (Sight.push (Int16.ofNat offset)) :=
    ⟨.immediate _ 1, .push _⟩
  exact (hload.append hoffset).append ⟨.binary .add 0, .binary .add⟩

/-- The address that a reference parameter holds. -/
theorem Coder.held_works (c : Coder) (offset : Nat) :
    Works c.node W (plain [.load c.frameSlot, .loadIndirect (UInt16.ofNat offset) c.memorySize]) 0 1 := by
  have hload : Works c.node W (plain [.load c.frameSlot]) 0 1 := .load _
  exact hload.append (.loadIndirect _ _)

/-- The code of the three uses aims at one word. -/
theorem Place.aimed {kl ks kp : Code} {sl ss sp : Coding.State} (hwords : c.node.maxVarSize ≤ 4096)
    (hcount : c.node.nativeFunctions.length ≤ 4096) (hspot : spot.Repeatable) (htemps : st.nextTemp ≤ c.tempTop)
    (hframe : s.mode ≠ .absolute → c.Framed) (hload : (spot.place c s).use c .load st = .ok (kl, sl))
    (hstore : (spot.place c s).use c .store st = .ok (ks, ss))
    (hpush : (spot.place c s).use c .address st = .ok (kp, sp)) :
    Aimed c (c.Spare ss.nextTemp st.nextTemp) kl ks kp := by
  have hadd {W : Nat → Prop} : Fragment c.node W (plain [.binary .add]) 2 1 (Sight.binary .add) :=
    ⟨.binary .add 0, .binary .add⟩
  -- all uses have one position between their own parts
  have hindexed (hdirect : ∀ use, (spot.place c s).direct? c use = none) : c.Fits s.offset ∧ ∃ k f,
      Fragment c.node (c.Spare ss.nextTemp st.nextTemp) k 0 1 f ∧
      kl = plain (s.front c .load) ++ k ++ plain (s.back c .load) ∧
      ks = plain (s.front c .store) ++ k ++ plain (s.back c .store) ∧
      kp = plain (s.front c .address) ++ k ++ plain (s.back c .address) := by
    obtain ⟨hfits, k, hk, rfl⟩ := use_indexed (hdirect .load) hload
    obtain ⟨-, k', hk', rfl⟩ := use_indexed (hdirect .store) hstore
    cases hk.symm.trans hk'
    obtain ⟨-, k'', hk'', rfl⟩ := use_indexed (hdirect .address) hpush
    cases hk.symm.trans hk''
    obtain ⟨f, hf⟩ := (hspot.position hwords hcount (Nat.le_trans htemps c.tempTop_le) hk).2
    refine ⟨?_, k, f, hf, rfl, rfl, rfl⟩
    unfold Storage.Usable at hfits
    cases hmode : s.mode <;> simpa [Spot.place, hmode] using hfits
  obtain ⟨offset, dims, ty, mode⟩ := s
  cases mode with
  | absolute =>
    cases spot with
    | known j =>
      obtain ⟨-, hfits, rfl⟩ := use_direct rfl hload
      obtain ⟨-, -, rfl⟩ := use_direct rfl hstore
      obtain ⟨-, -, rfl⟩ := use_direct rfl hpush
      exact .direct hfits.2
    | computed _ | saved _ =>
      obtain ⟨hfits, k, f, hf, rfl, rfl, rfl⟩ := hindexed fun _ => rfl
      have hoffset : Fragment c.node (c.Spare ss.nextTemp st.nextTemp) (plain [pushNat offset]) 0 1
          (Sight.push (Int16.ofNat offset)) := ⟨.immediate _ 0, .push _⟩
      exact .indexed hfits.1 hf ((hoffset.append (hf.above 1)).append hadd) (pointsAt_absolute hfits.1 f)
  | frame =>
    have hfirst : Fragment c.node (c.Spare ss.nextTemp st.nextTemp) _ 0 1 _ := c.framed_does offset
    cases spot with
    | known j =>
      obtain ⟨-, hfits, rfl⟩ := use_direct rfl hload
      obtain ⟨-, -, rfl⟩ := use_direct rfl hstore
      have hoffset : offset < 4096 := Nat.lt_of_le_of_lt (Nat.le_add_right offset j) hfits.1
      cases j with
      | zero =>
        obtain ⟨-, -, rfl⟩ := use_direct rfl hpush
        exact .indexed hfits.1 ⟨.load _ 0, .load _⟩ hfirst (pointsAt_frame_known hoffset _)
      | succ j =>
        obtain ⟨-, kp, hkp, rfl⟩ := use_indexed rfl hpush
        cases hkp
        exact .indexed hfits.1 ⟨.load _ 0, .load _⟩ ((hfirst.append ⟨.immediate _ 1, .push _⟩).append hadd)
          ((pointsAt_frame_known hoffset _).add (by have := hfits.1; omega) hfirst.keeps)
    | computed _ | saved _ =>
      obtain ⟨hfits, k, f, hf, rfl, rfl, rfl⟩ := hindexed fun _ => rfl
      have hindex : Fragment c.node (c.Spare ss.nextTemp st.nextTemp)
          (k ++ plain [.load c.frameSlot] ++ plain [.binary .add]) 0 1 _ :=
        (hf.append ⟨.load _ 1, .load _⟩).append hadd
      have haimed := Aimed.indexed (w := c.memorySize) hfits.1 hindex
        ((hfirst.append (hf.above 1)).append hadd)
        (pointsAt_frame hfits.1 hf.keeps ((hframe (by rintro ⟨⟩)).not_spare hwords htemps))
      simpa [plain, Storage.front, Storage.back, Use.indirect, Storage.framed] using haimed
  | reference =>
    -- the address that is pushed is the index
    obtain ⟨index, hworks, rfl, rfl, rfl⟩ : ∃ index, Works c.node (c.Spare ss.nextTemp st.nextTemp) index 0 1 ∧
        kl = index ++ plain [.loadIndirect (UInt16.ofNat 0) c.memorySize] ∧
        ks = index ++ plain [.storeIndirect (UInt16.ofNat 0) c.memorySize] ∧ kp = index := by
      by_cases hzero : spot = .known 0
      · subst hzero
        obtain ⟨-, -, rfl⟩ := use_direct rfl hload
        obtain ⟨-, -, rfl⟩ := use_direct rfl hstore
        obtain ⟨-, -, rfl⟩ := use_direct rfl hpush
        exact ⟨_, c.held_works offset, rfl, rfl, rfl⟩
      · obtain ⟨-, k, f, hf, rfl, rfl, rfl⟩ := hindexed fun use => by
          rcases spot with (_ | j) | _ | _
          · exact absurd rfl hzero
          all_goals rfl
        have hadd : Works c.node (c.Spare ss.nextTemp st.nextTemp) (plain [.binary .add]) 2 1 := ⟨_, hadd⟩
        have hworks := ((c.held_works offset).append (Works.above ⟨f, hf⟩ 1)).append hadd
        exact ⟨_, hworks, by simp [plain, Storage.front, Storage.back, Storage.held, Use.indirect],
          by simp [plain, Storage.front, Storage.back, Storage.held, Use.indirect], rfl⟩
    obtain ⟨f, hf⟩ := hworks
    exact .indexed (by omega) hf hf (pointsAt_self c.node f)

/-! ### Loading, storing and pointing -/

/-- Loading, storing the word `v` and pointing have left the machine `m` as `ml`,
`ms` and `mp`: all three mean the word at the address `a`. Besides this, words of
`W` may have changed. -/
structure OneWord (node : Node) (W : Nat → Prop) (v : Cell) (a : Nat) (m ml ms mp : State) : Prop where
  inside : a < node.maxVarSize
  pointed : mp.stack = Int16.ofNat a :: m.stack
  loaded : ∃ w, ml.memory[a]? = some w ∧ ml.stack = w :: m.stack
  stored : ms.memory[a]? = some v ∧ ms.stack = m.stack
  load_keeps : ∀ j, ¬W j → ml.memory[j]? = m.memory[j]?
  store_keeps : ∀ j, j ≠ a → ¬W j → ms.memory[j]? = m.memory[j]?

theorem eq_ofNat_of_toNat {j : Cell} {a : Nat} (h : j.toUInt16.toNat = a) : j = Int16.ofNat a := by
  show (⟨j.toUInt16⟩ : Cell) = ⟨UInt16.ofNat a⟩
  rw [← h, UInt16.ofNat_toNat]

theorem Aimed.oneWord {kl ks kp : Code} {m ml ms mp : State} {pl ps pp : Nat} {v : Cell}
    (h : Aimed c W kl ks kp) (hwords : c.node.maxVarSize ≤ 4096) (hmemory : m.memory.size = c.node.maxVarSize)
    (hload : kl.Crosses c.node { m with pc := pl } ml)
    (hstore : ks.Crosses c.node { m with stack := v :: m.stack, pc := ps } ms)
    (hpush : kp.Crosses c.node { m with pc := pp } mp) : ∃ addr, OneWord c.node W v addr m ml ms mp := by
  cases h with
  | @direct j hj =>
    obtain ⟨y, hy, rfl⟩ := (Carries.load (UInt16.ofNat j) 0).of_crosses [] hload rfl rfl hmemory
    obtain ⟨z, hz, rfl⟩ := (Carries.store (UInt16.ofNat j) 0).of_crosses [v] hstore rfl rfl hmemory
    obtain ⟨x, hx, rfl⟩ := (Carries.immediate (Int16.ofNat j) 0).of_crosses [] hpush rfl rfl hmemory
    rw [Machine.operand_eq (Nat.lt_of_lt_of_le hj hwords)] at hy hz
    obtain ⟨w, hw, rfl⟩ := Option.map_eq_some_iff.mp hy
    have hin : j < m.memory.size := hmemory ▸ hj
    obtain rfl : ([], m.memory.setIfInBounds j v) = z := by
      simpa [Sight.store, hin] using hz
    obtain rfl : ([Int16.ofNat j], m.memory) = x := Option.some.inj hx
    exact ⟨j, hj, rfl, ⟨w, hw, rfl⟩, ⟨Array.getElem?_setIfInBounds_self_of_lt hin, rfl⟩, fun _ _ => rfl,
      fun i hi _ => Array.getElem?_setIfInBounds_ne (Ne.symm hi)⟩
  | @indexed base w index _ f g hbase hf hg hpoints =>
    have hoperand := Machine.operand_eq hbase
    -- the index that is found for loading is the one for storing
    obtain ⟨y, hy, rfl⟩ := (hf.acts.append hf.keeps (.loadIndirect (UInt16.ofNat base) w 0)).of_crosses []
      hload rfl rfl hmemory
    obtain ⟨⟨ws, memory⟩, hindex, hy⟩ := Option.bind_eq_some_iff.mp hy
    obtain ⟨hlength, hmemory', hsame⟩ := hf.keeps _ _ rfl hmemory hindex
    obtain ⟨i, rfl⟩ := List.length_eq_one_iff.mp hlength
    obtain ⟨z, hz, rfl⟩ := ((hf.above 1).acts.append (hf.above 1).keeps
      (.storeIndirect (UInt16.ofNat base) w 0)).of_crosses [v] hstore rfl rfl hmemory
    obtain ⟨⟨us, memory'⟩, hpushed, rfl⟩ := hg.acts.of_crosses [] hpush rfl rfl hmemory
    obtain ⟨j, rfl⟩ := List.length_eq_one_iff.mp (hg.keeps _ _ rfl hmemory hpushed).1
    obtain ⟨hj, -⟩ := hpoints _ _ _ _ _ hmemory hindex hpushed
    rw [Sight.loadIndirect, hoperand, Option.ite_none_right_eq_some] at hy
    obtain ⟨hchecked, hy⟩ := hy
    obtain ⟨w, hw, rfl⟩ := Option.map_eq_some_iff.mp hy
    have hin : base + i.toUInt16.toNat < memory.size := (Array.getElem?_eq_some_iff.mp hw).1
    have hin' : base + i.toUInt16.toNat < c.node.maxVarSize := hmemory' ▸ hin
    have habove : Sight.above 0 f ([v], m.memory) = some ([i, v], memory) := by
      show (f ([], m.memory)).map _ = _
      rw [hindex]
      rfl
    have hset : z = ([], memory.setIfInBounds (base + i.toUInt16.toNat) v) := by
      have hz : (Sight.above 0 f ([v], m.memory)).bind _ = some z := hz
      rw [habove, Option.bind_some, Sight.storeIndirect, hoperand, if_pos hchecked, if_pos hin] at hz
      exact (Option.some.inj hz).symm
    subst hset
    have haddress : j = Int16.ofNat (base + i.toUInt16.toNat) := eq_ofNat_of_toNat (by omega)
    refine ⟨base + i.toUInt16.toNat, hin', ?_, ⟨w, hw, rfl⟩,
      ⟨Array.getElem?_setIfInBounds_self_of_lt hin, rfl⟩, hsame, fun b hb hW => ?_⟩
    · rw [← haddress]
      rfl
    · exact (Array.getElem?_setIfInBounds_ne (Ne.symm hb)).trans (hsame b hW)

/-- Loading from a place, storing to it and pointing to it agree on the word that
is meant. -/
theorem place_uses_agree (hwords : c.node.maxVarSize ≤ 4096) (hcount : c.node.nativeFunctions.length ≤ 4096)
    (hspot : spot.Repeatable) (hframe : s.mode ≠ .absolute → c.Framed) {kl ks kp : Code}
    {sl ss sp : Coding.State} (htemps : st.nextTemp ≤ c.tempTop)
    (hload : (spot.place c s).load c st = .ok (kl, sl)) (hstore : (spot.place c s).store c st = .ok (ks, ss))
    (hpush : (spot.place c s).push c st = .ok (kp, sp)) {m ml ms mp : State} {pl ps pp : Nat} {v : Cell}
    (hmemory : m.memory.size = c.node.maxVarSize) (hml : kl.Crosses c.node { m with pc := pl } ml)
    (hms : ks.Crosses c.node { m with stack := v :: m.stack, pc := ps } ms)
    (hmp : kp.Crosses c.node { m with pc := pp } mp) :
    ∃ a, OneWord c.node (c.Spare ss.nextTemp st.nextTemp) v a m ml ms mp := by
  exact (Place.aimed hwords hcount hspot htemps hframe hload hstore hpush).oneWord hwords hmemory hml hms hmp

/-- An element of an array in the frame, at an index that a variable holds. -/
theorem place_uses_agree_local :
    ∃ (c : Coder) (s : Storage) (spot : Spot) (st : Coding.State) (kl ks kp : Code) (m ml ms mp : State),
      s.mode = .frame ∧ (spot.place c s).load c st = .ok (kl, st) ∧ (spot.place c s).store c st = .ok (ks, st) ∧
      (spot.place c s).push c st = .ok (kp, st) ∧ m.memory = #[1, 0, 0, 0, 0, 0, 0, 9, 0, 4] ∧
      kl.Crosses c.node m ml ∧ ks.Crosses c.node { m with stack := 5 :: m.stack, pc := size kl } ms ∧
      kp.Crosses c.node { m with pc := size kl + size ks } mp ∧
      ∃ a, OneWord c.node (c.Spare st.nextTemp st.nextTemp) 5 a m ml ms mp ∧ a = 7 := by
  let c : Coder := ⟨⟨"", 10, [], [], []⟩, ⟨.l2, 1, []⟩, 1, some 5, .ret⟩
  let s : Storage := ⟨2, [3], .int, .frame⟩
  let spot : Spot := .computed [.var default ⟨"i", some ⟨0, [], .int, .absolute⟩⟩]
  let st : Coding.State := ⟨8, default⟩
  let kl : Code := plain [.load 0, .load 9, .binary .add, .loadIndirect 2 10]
  let ks : Code := plain [.load 0, .load 9, .binary .add, .storeIndirect 2 10]
  let kp : Code := plain [.load 9, pushNat 2, .binary .add, .load 0, .binary .add]
  have hload : (spot.place c s).load c st = .ok (kl, st) := rfl
  have hstore : (spot.place c s).store c st = .ok (ks, st) := rfl
  have hpush : (spot.place c s).push c st = .ok (kp, st) := rfl
  let memory : Array Cell := #[1, 0, 0, 0, 0, 0, 0, 9, 0, 4]
  let m : State := { State.start c.node (kl ++ ks ++ kp).words with memory }
  have hstands : (kl ++ ks ++ kp).Stands m.image 0 := Code.stands_words _
  have hkl : kl.Stands m.image 0 := hstands.left.left
  have hks : ks.Stands m.image 5 := hstands.left.right
  have hkp : kp.Stands m.image 10 := hstands.right
  let on (ws : List Cell) (pc : Nat) : State := m.put (ws, memory) [] pc
  have hload₄ : (Machine.step c.node).run (on [5] 3) = .ok true (on [9] 5) := by
    obtain ⟨held, hi⟩ := hkl [_, _, _] (.instr (.loadIndirect 2 10)) [] rfl
    have hstep : (Machine.step c.node).run (on [5] 3) = _ := hi.step_loadIndirect rfl
    rw [hstep, if_pos (by decide)]
    rfl
  have hstore₄ : (Machine.step c.node).run (on [5, 5] 8) =
      .ok true (m.put ([], memory.setIfInBounds 7 5) [] 10) := by
    obtain ⟨held, hi⟩ := hks [_, _, _] (.instr (.storeIndirect 2 10)) [] rfl
    have hstep : (Machine.step c.node).run (on [5, 5] 8) = _ := hi.step_storeIndirect rfl
    rw [hstep, if_pos (by decide)]
    rfl
  have hindex : memory[(0 : Word).toNat % 4096]? = some 1 := by decide +kernel
  have hframe : memory[(9 : Word).toNat % 4096]? = some 4 := by decide +kernel
  have hl : Between c.node 0 5 (on [] 0) (on [9] 5) :=
    .head (by decide) (by decide) (hkl.step_load (m := on [] 0) ⟨[], _, rfl, rfl⟩ rfl hindex (by decide)) <|
    .head (by decide) (by decide) (hkl.step_load (m := on [1] 1) ⟨[_], _, rfl, rfl⟩ rfl hframe (by decide)) <|
    .head (by decide) (by decide) (hkl.step_add (m := on [4, 1] 2) ⟨[_, _], _, rfl, rfl⟩ rfl rfl (by decide)) <|
    .head (by decide) (by decide) hload₄ <| .refl _
  have hs : Between c.node 5 10 (on [5] 5) (m.put ([], memory.setIfInBounds 7 5) [] 10) :=
    .head (by decide) (by decide) (hks.step_load (m := on [5] 5) ⟨[], _, rfl, rfl⟩ rfl hindex (by decide)) <|
    .head (by decide) (by decide) (hks.step_load (m := on [1, 5] 6) ⟨[_], _, rfl, rfl⟩ rfl hframe (by decide)) <|
    .head (by decide) (by decide) (hks.step_add (m := on [4, 1, 5] 7) ⟨[_, _], _, rfl, rfl⟩ rfl rfl (by decide)) <|
    .head (by decide) (by decide) hstore₄ <| .refl _
  have hp : Between c.node 10 15 (on [] 10) (on [7] 15) :=
    .head (by decide) (by decide) (hkp.step_load (m := on [] 10) ⟨[], _, rfl, rfl⟩ rfl hframe (by decide)) <|
    .head (by decide) (by decide) (hkp.step_immediate (m := on [4] 11) ⟨[_], _, rfl, rfl⟩ rfl (by decide)) <|
    .head (by decide) (by decide) (hkp.step_add (m := on [2, 4] 12) ⟨[_, _], _, rfl, rfl⟩ rfl rfl (by decide)) <|
    .head (by decide) (by decide) (hkp.step_load (m := on [6] 13) ⟨[_, _, _], _, rfl, rfl⟩ rfl hindex (by decide)) <|
    .head (by decide) (by decide) (hkp.step_add (m := on [1, 6] 14) ⟨[_, _, _, _], _, rfl, rfl⟩ rfl rfl (by decide)) <|
    .refl _
  have hrepeatable : spot.Repeatable := by
    refine ⟨nofun, fun e he => ?_⟩
    rw [List.mem_singleton] at he
    subst he
    exact ⟨rfl, .leaf rfl trivial⟩
  have hml : kl.Crosses c.node m (on [9] 5) := ⟨hkl, hl, rfl⟩
  have hms : ks.Crosses c.node { m with stack := [5], pc := 5 } (m.put ([], memory.setIfInBounds 7 5) [] 10) :=
    ⟨hks, hs, rfl⟩
  have hmp : kp.Crosses c.node { m with pc := 10 } (on [7] 15) := ⟨hkp, hp, rfl⟩
  obtain ⟨a, ha⟩ := place_uses_agree (m := m) (by decide) (by decide) hrepeatable (fun _ => ⟨rfl, by decide⟩)
    (by decide) hload hstore hpush rfl hml hms hmp
  refine ⟨c, s, spot, st, kl, ks, kp, m, _, _, _, rfl, hload, hstore, hpush, rfl, hml, hms, hmp, a, ha, ?_⟩
  have hpointed : (7 : Cell) = Int16.ofNat a := (List.cons.inj ha.pointed).1
  have hnat := congrArg (·.toUInt16.toNat) hpointed
  have hinside : a < 10 := ha.inside
  rw [toNat_ofNat_cell (by omega)] at hnat
  exact hnat.symm

end RobotScript
