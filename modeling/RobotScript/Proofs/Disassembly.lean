/-
# Reading back what was encoded

An image holds no marks between its instructions: where one ends follows from
its first word alone. So reading an image back is right only if the lengths
and the fields that writing and reading use agree for every instruction.
Whatever instructions are written one behind another, with operands that fit
their fields, behind a table of handlers that lie among them, they are read
back as they are, each at the sum of the lengths before it.

Key definitions: `Instr.InRange`, `Image.ofInstrs`.
Key theorems: `Instr.InRange.cut_eq`, `Code.listing_plain`, `disassembly_inverts_encoding`.
-/
import RobotScript.Proofs.ImageShape

namespace RobotScript

open Machine (Instr Opcode disassemble)

namespace Machine.Instr

/-- The operands of the instruction fit the fields of its first word, and a
branch makes a comparison. The words behind the first hold any operand. -/
def InRange : Instr → Prop
  | pushSmall n | jump n => -2048 ≤ n.toInt ∧ n.toInt < 2048
  | load a | store a | loadIndirect a _ | storeIndirect a _ | emit a _ _ | callNative a
  | callSub a => a.toNat < 4096
  | branch op _ _ => op.isComparison = true
  | stop | push _ | unary _ | binary _ | ret => True

theorem InRange.fits {i : Instr} (h : i.InRange) : i.Fits := by
  cases i with
  | pushSmall n => exact h
  | jump n => exact h
  | branch op edge offset => exact h
  | _ => trivial

theorem ofNat_field {a : Word} (h : a.toNat < 4096) : UInt16.ofNat (a.toNat % 4096) = a := by
  rw [Nat.mod_eq_of_lt h, UInt16.ofNat_toNat]

/-- Nothing is cut off an operand that fits its field. -/
theorem InRange.cut_eq {i : Instr} (h : i.InRange) : i.cut = i := by
  cases i with
  | load a => exact congrArg load (ofNat_field h)
  | store a => exact congrArg store (ofNat_field h)
  | loadIndirect a size => exact congrArg (loadIndirect · size) (ofNat_field h)
  | storeIndirect a size => exact congrArg (storeIndirect · size) (ofNat_field h)
  | emit id a size => exact congrArg (emit · a size) (ofNat_field h)
  | callNative id => exact congrArg callNative (ofNat_field h)
  | callSub a => exact congrArg callSub (ofNat_field h)
  | _ => rfl

/-- A number is pushed in a form that holds it. -/
theorem immediate_inRange (n : Cell) : (immediate n).InRange := by
  unfold immediate
  by_cases h : -2048 ≤ n ∧ n < 2048
  · rw [if_pos h]
    exact ⟨Int16.le_iff_toInt_le.mp h.1, Int16.lt_iff_toInt_lt.mp h.2⟩
  · rw [if_neg h]
    trivial

/-- The first word of an instruction tells its length. -/
theorem length_of_first (i : Instr) :
    ∃ w ws op, i.encode = w :: ws ∧ Opcode.ofWord? w = some op ∧ op = i.opcode ∧
      i.encode.length = op.length ∧ i.length = op.length := by
  have hword : ∃ arg ws, i.encode = i.opcode.word arg :: ws := by
    cases i <;> exact ⟨_, _, rfl⟩
  obtain ⟨arg, ws, hencode⟩ := hword
  refine ⟨_, ws, i.opcode, hencode, Opcode.ofWord?_word _ _, rfl, ?_, i.length_opcode.symm⟩
  rw [length_encode, length_opcode]

end Machine.Instr

namespace Code

theorem words_plain (is : List Instr) : words (plain is) = is.flatMap Instr.encode := by
  induction is with
  | nil => rfl
  | cons i is ih =>
    show i.encode ++ words (plain is) = _
    rw [ih, List.flatMap_cons]

/-- The listing of instructions that nothing is cut off: each stands at the sum
of the lengths before it. -/
theorem listing_plain {is : List Instr} (h : ∀ i ∈ is, i.cut = i) (base k : Nat) :
    (listing base (plain is))[k]? =
      is[k]?.map fun i => (base + ((is.take k).map Instr.length).sum, i) := by
  induction is generalizing base k with
  | nil => simp [plain, listing]
  | cons i is ih =>
    have hrest := ih fun j hj => h j (List.mem_cons_of_mem _ hj)
    have hlisting : listing base (plain (i :: is)) = (base, i) :: listing (base + i.length) (plain is) := by
      show (base, i.cut) :: _ = _
      rw [h i List.mem_cons_self]
      rfl
    rw [hlisting]
    cases k with
    | zero => simp
    | succ k =>
      rw [List.getElem?_cons_succ, hrest, List.getElem?_cons_succ, List.take_succ_cons,
        List.map_cons, List.sum_cons, Nat.add_assoc]

/-- Instructions whose operands fit are read back from their words. -/
theorem decodeAll_plain {is : List Instr} (h : ∀ i ∈ is, i.InRange) (base : Nat) :
    Machine.decodeAll base (is.flatMap Instr.encode) = .ok (listing base (plain is)) := by
  rw [← words_plain]
  refine decodeAll_words (fun item hitem => ?_) (fun p i hi => ?_) base
  · obtain ⟨i, -, rfl⟩ := List.mem_map.mp hitem
    exact .inr ⟨i, rfl⟩
  · obtain ⟨pre, post, hsplit, -⟩ := hi
    have hitem : Item.instr i ∈ plain is := by
      rw [hsplit]
      exact List.mem_append_right _ List.mem_cons_self
    obtain ⟨j, hj, heq⟩ := List.mem_map.mp hitem
    obtain rfl : j = i := Item.instr.inj heq
    exact (h j hj).fits

end Code

namespace Image

/-- The length of a table with the given handlers. -/
def tableSize (events : List (Word × Word)) : Nat := 1 + 2 * events.length

/-- The words of a table of event ids and addresses, and of instructions behind
it. -/
def ofInstrs (events : List (Word × Word)) (is : List Instr) : List Word :=
  UInt16.ofNat (tableSize events) :: (events.flatMap fun e => [e.1, e.2]) ++ is.flatMap Instr.encode

/-- The table is the one that linking writes. -/
theorem ofInstrs_eq (events : List (Word × Word)) (is : List Instr) :
    ofInstrs events is =
      header (tableSize events) (events.map fun e => (e.1, e.2.toNat)) ++ is.flatMap Instr.encode := by
  have htable : (events.flatMap fun e => [e.1, e.2]) =
      (events.map fun e => (e.1, e.2.toNat)).flatMap fun h => [h.1, UInt16.ofNat h.2] := by
    rw [List.flatMap_map]
    simp
  rw [ofInstrs, header, htable]

/-- A table whose addresses lie behind it is short enough for its first word. -/
theorem tableSize_lt {events : List (Word × Word)}
    (h : ∀ e ∈ events, tableSize events ≤ e.2.toNat) : tableSize events < 65536 := by
  cases events with
  | nil => decide
  | cons e events =>
    have hle := h e List.mem_cons_self
    have hlt := e.2.toNat_lt
    omega

end Image

open Image (ofInstrs tableSize)

/-- Reading an image back inverts writing it: behind a table whose addresses
lie among them, any instructions whose operands fit are read back in order,
each at the sum of the lengths before it, and the first word of each tells its
length. -/
theorem disassembly_inverts_encoding (events : List (Word × Word)) (is : List Instr) (hne : is ≠ [])
    (hrange : ∀ i ∈ is, i.InRange)
    (hevents : ∀ e ∈ events, tableSize events ≤ e.2.toNat ∧
      e.2.toNat < tableSize events + (is.flatMap Instr.encode).length) :
    (∃ listing, disassemble (ofInstrs events is) = .ok listing ∧ listing ≠ [] ∧
      ∀ k, listing[k]? =
        is[k]?.map fun i => (tableSize events + ((is.take k).map Instr.length).sum, i)) ∧
    ∀ i ∈ is, ∃ w ws op, i.encode = w :: ws ∧ Opcode.ofWord? w = some op ∧ op = i.opcode ∧
      i.encode.length = op.length ∧ i.length = op.length := by
  have hlt := Image.tableSize_lt fun e he => (hevents e he).1
  have hhandlers : ∀ h ∈ events.map fun e => (e.1, e.2.toNat), tableSize events ≤ h.2 ∧
      h.2 < tableSize events + (is.flatMap Instr.encode).length ∧ h.2 < 65536 := by
    intro h hh
    obtain ⟨e, he, rfl⟩ := List.mem_map.mp hh
    exact ⟨(hevents e he).1, (hevents e he).2, e.2.toNat_lt⟩
  have hplaced := Code.listing_plain (fun i hi => (hrange i hi).cut_eq) (tableSize events)
  refine ⟨⟨Code.listing (tableSize events) (Code.plain is), ?_, ?_, hplaced⟩,
    fun i _ => i.length_of_first⟩
  · have hsize : tableSize events = 1 + 2 * (events.map fun e => (e.1, e.2.toNat)).length := by
      rw [List.length_map, tableSize]
    rw [Image.ofInstrs_eq, Image.disassemble_header hsize
      (by rw [Image.header_length, ← hsize]) hlt hhandlers]
    exact Code.decodeAll_plain hrange _
  · obtain ⟨i, rest, rfl⟩ := List.exists_cons_of_ne_nil hne
    nofun

/-- One instruction of every kind, two handlers, and operands at the ends of
their fields. -/
theorem disassembly_inverts_encoding_kinds :
    ∃ (events : List (Word × Word)) (is : List Instr), is ≠ [] ∧ (∀ i ∈ is, i.InRange) ∧
      (∀ e ∈ events, tableSize events ≤ e.2.toNat ∧
        e.2.toNat < tableSize events + (is.flatMap Instr.encode).length) ∧
      (is.map Instr.opcode).Nodup ∧ is.length = 15 ∧
      ∃ listing, disassemble (ofInstrs events is) = .ok listing ∧ listing ≠ [] ∧
        ∀ k, listing[k]? =
          is[k]?.map fun i => (tableSize events + ((is.take k).map Instr.length).sum, i) := by
  let events : List (Word × Word) := [(0xffff, 5), (0xfffe, 15)]
  let is : List Instr :=
    [.immediate (-2048), .immediate 2048, .load 0, .store 4095, .loadIndirect 4095 65535,
      .storeIndirect 1 0, .unary .bitNot, .binary .and, .jump (-2048), .branch .ge true (-32768),
      .emit 4095 65535 2, .callNative 4095, .callSub 4095, .ret, .stop]
  have hrange : ∀ i ∈ is, i.InRange := by
    intro i hi
    simp only [is, List.mem_cons, List.not_mem_nil, or_false] at hi
    rcases hi with rfl | rfl | rfl | rfl | rfl | rfl | rfl | rfl | rfl | rfl | rfl | rfl | rfl | rfl | rfl
    · exact Instr.immediate_inRange _
    · exact Instr.immediate_inRange _
    all_goals simp [Machine.Instr.InRange, Machine.Binary.isComparison]
  have hevents : ∀ e ∈ events, tableSize events ≤ e.2.toNat ∧
      e.2.toNat < tableSize events + (is.flatMap Instr.encode).length := by
    have hsize : tableSize events = 5 := rfl
    have hlength : (is.flatMap Instr.encode).length = 21 := by decide
    rw [hsize, hlength]
    simp only [events, List.mem_cons, List.not_mem_nil, or_false, forall_eq_or_imp, forall_eq]
    decide
  exact ⟨events, is, by simp [is], hrange, hevents, by decide, by decide,
    (disassembly_inverts_encoding events is (by simp [is]) hrange hevents).1⟩

end RobotScript
