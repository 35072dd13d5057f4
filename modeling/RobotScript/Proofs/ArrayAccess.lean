/-
# Access to elements

When an element is loaded or stored, its position is on top of the stack. To
find the word, the position is added to what the variable counts from: nothing
for a variable at a fixed address, the frame pointer for one in a frame, the
address that the slot holds for a parameter passed by reference. The machine
checks the sum. For a variable at a fixed address it is checked against the
size of that variable, so no access leaves it; for all others it is checked
against the size of the memory, and nothing keeps an access from the words
around the variable.

Key definitions: `Storage.origin`, `Storage.limit`, `Storage.target`.
Key theorem: `element_access_checked`.
-/
import RobotScript.Proofs.Notes
import RobotScript.Proofs.Visits

namespace RobotScript

open Machine (Instr State RunFault)
open Draft (plain)

namespace Storage

/-- The words on the stack that say which element is meant: its position, and
below it the address of a variable that is passed by reference. -/
def operands (s : Storage) (i address : Cell) : List Cell :=
  match s.mode with
  | .reference => [i, address]
  | .absolute | .frame => [i]

/-- What the position of an element is added to before it is checked. -/
def origin (s : Storage) (node : Node) (m : State) (address : Cell) : Cell :=
  match s.mode with
  | .absolute => 0
  | .frame => m.word (node.frameSlot % 4096)
  | .reference => address

/-- What is added to the position in a variable at a fixed address is nothing. -/
theorem origin_absolute (s : Storage) (hmode : s.mode = .absolute) (node : Node) (m : State)
    (i address : Cell) : s.origin node m address + i = i := by
  unfold origin
  rw [hmode]
  exact Int16.zero_add i

/-- What the sum is checked against. -/
def limit (s : Storage) (node : Node) : Word :=
  match s.mode with
  | .absolute => UInt16.ofNat s.size
  | .frame | .reference => UInt16.ofNat node.maxVarSize

/-- The address of the word with a sum. -/
def target (s : Storage) (sum : Word) : Nat :=
  match s.mode with
  | .reference => sum.toNat
  | .absolute | .frame => s.offset + sum.toNat

end Storage

/-! ### Code that uses an element -/

theorem Machine.State.getElem?_memory {m : State} {a : Nat} (h : a < m.memory.size) :
    m.memory[a]? = some (m.word a) := by
  simp [State.word, Array.getD, h]

/-- What comes of using the word `a` if the sum is below the limit: the use, or a
fault that leaves memory as it was. -/
structure Checked (node : Node) (use : Use) (a : Nat) (sum limit : Word) (rest : List Cell) (q : Nat)
    (m : State) : Prop where
  load : sum < limit → a < m.memory.size → use = .load →
    Steps node m { m with stack := m.word a :: rest, pc := q }
  store : sum < limit → a < m.memory.size → use = .store → ∀ v below, rest = v :: below →
    Steps node m { m.setWord a v with stack := below, pc := q }
  beyond : sum < limit → ¬a < m.memory.size → rest ≠ [] ∨ use = .load → ∃ m' m'', Steps node m m' ∧
    (Machine.step node).run m' = .error (.badAddress m'.pc a) m'' ∧ m''.memory = m.memory
  fault : ¬sum < limit → ∃ m' m'', Steps node m m' ∧
    (Machine.step node).run m' = .error (.indexOutOfRange m'.pc sum limit) m'' ∧ m''.memory = m.memory

namespace Checked

variable {node : Node} {use : Use} {sum limit : Word} {rest : List Cell} {m : State} {base q : Nat}

/-- The instruction that checks a sum and uses the word. -/
theorem indirect {i : Cell} (huse : use ≠ .address) (hbase : base < 4096)
    (hcode : Code.Stands m.image m.pc (.plain (use.indirect base limit)))
    (hstack : m.stack = i :: rest) (hroom : rest.length < Machine.stackSize) (hq : q = m.pc + 2) :
    Checked node use (base + i.toUInt16.toNat) i.toUInt16 limit rest q m := by
  subst hq
  have haddr : (UInt16.ofNat base).toNat % 4096 = base := Machine.operand_eq hbase
  cases use with
  | address => exact absurd rfl huse
  | load =>
    obtain ⟨held, hi⟩ := hcode [] (.instr (.loadIndirect (UInt16.ofNat base) limit)) [] rfl
    have hstep : (Machine.step node).run m = _ := hi.step_loadIndirect hstack
    rw [haddr] at hstep
    refine ⟨fun hlt ha _ => ?_, nofun, fun hlt ha _ => ⟨m, { m with stack := rest }, .refl m, ?_, rfl⟩,
      fun hge => ⟨m, { m with stack := rest }, .refl m, ?_, rfl⟩⟩
    · rw [if_pos hlt, State.getElem?_memory ha] at hstep
      dsimp only at hstep
      rw [if_neg (by omega)] at hstep
      exact .head hstep (.refl _)
    · rw [hstep, if_pos hlt, Array.getElem?_eq_none (Nat.le_of_not_lt ha)]
    · rw [hstep, if_neg hge]
  | store =>
    obtain ⟨held, hi⟩ := hcode [] (.instr (.storeIndirect (UInt16.ofNat base) limit)) [] rfl
    have hstep : (Machine.step node).run m = _ := hi.step_storeIndirect hstack
    rw [haddr] at hstep
    refine ⟨nofun, fun hlt ha _ v below hrest => ?_, fun hlt ha hrest => ?_,
      fun hge => ⟨m, { m with stack := rest }, .refl m, ?_, rfl⟩⟩
    · rw [if_pos hlt, hrest] at hstep
      dsimp only [List.head?_cons, List.tail_cons] at hstep
      rw [if_pos ha] at hstep
      exact .head hstep (.refl _)
    · obtain ⟨v, below, rfl⟩ := List.exists_cons_of_ne_nil (hrest.resolve_right nofun)
      rw [if_pos hlt] at hstep
      dsimp only [List.head?_cons, List.tail_cons] at hstep
      rw [if_neg ha] at hstep
      exact ⟨m, _, .refl m, hstep, rfl⟩
    · rw [hstep, if_neg hge]

/-- What comes of it behind steps that change nothing but the stack. -/
theorem of_steps {a p : Nat} {stack : List Cell} (hsteps : Steps node m { m with stack, pc := p })
    (h : Checked node use a sum limit rest q { m with stack, pc := p }) :
    Checked node use a sum limit rest q m where
  load hlt ha huse := hsteps.trans (h.load hlt ha huse)
  store hlt ha huse v below hrest := hsteps.trans (h.store hlt ha huse v below hrest)
  beyond hlt ha hrest := by
    obtain ⟨m', m'', hsteps', hstep, hmemory⟩ := h.beyond hlt ha hrest
    exact ⟨m', m'', hsteps.trans hsteps', hstep, hmemory⟩
  fault hge := by
    obtain ⟨m', m'', hsteps', hstep, hmemory⟩ := h.fault hge
    exact ⟨m', m'', hsteps.trans hsteps', hstep, hmemory⟩

end Checked

/-- The code behind the position of an element checks the sum and uses the word
that it finds. -/
theorem Checked.of_back {s : Storage} {c : Coder} {use : Use} {m : State} {i address : Cell}
    {rest : List Cell} (huse : use ≠ .address) (hs : s.Usable c use 0)
    (hcode : Code.Stands m.image m.pc (.plain (s.back c use))) (hmemory : m.memory.size = c.node.maxVarSize)
    (hstack : m.stack = s.operands i address ++ rest) (hroom : rest.length + 2 ≤ Machine.stackSize) :
    Checked c.node use (s.target (s.origin c.node m address + i).toUInt16)
      (s.origin c.node m address + i).toUInt16 (s.limit c.node) rest
      (m.pc + Code.size (.plain (s.back c use))) m := by
  have hsize (base : Nat) (limit : Word) : Code.size (.plain (use.indirect base limit)) = 2 := by
    cases use with
    | address => exact absurd rfl huse
    | load | store => rfl
  unfold Storage.Usable at hs
  unfold Storage.back at hcode ⊢
  unfold Storage.operands at hstack
  unfold Storage.target Storage.origin Storage.limit
  cases hmode : s.mode with
  | absolute =>
    simp only [hmode] at hcode hstack hs ⊢
    have hs : c.Fits (s.offset + 0) := by
      cases use with
      | address => exact absurd rfl huse
      | load | store => exact hs
    rw [show (0 : Cell) + i = i from Int16.zero_add i, hsize]
    exact Checked.indirect huse hs.1 hcode hstack (by omega) rfl
  | frame =>
    simp only [hmode] at hcode hstack hs ⊢
    have hs : c.Fits (s.offset + 0) := by
      cases use with
      | address => exact absurd rfl huse
      | load | store => exact hs
    have hin : c.node.frameSlot % 4096 < m.memory.size := by
      rw [hmemory]
      exact Nat.lt_of_le_of_lt (Nat.mod_le _ _) (Nat.sub_lt (Nat.zero_lt_of_lt hs.2) Nat.one_pos)
    have hcode : Code.Stands m.image m.pc (.plain [.load c.frameSlot] ++ (.plain [.binary .add] ++
        .plain (use.indirect s.offset c.memorySize))) := hcode
    obtain ⟨held, hload⟩ := hcode.left.instr
    obtain ⟨held', hadd⟩ := hcode.right.left.instr
    -- the frame pointer is pushed and added
    have hpushed : (Machine.step c.node).run m = .ok true
        { m with stack := m.word (c.node.frameSlot % 4096) :: i :: rest, pc := m.pc + 1 } := by
      rw [hload.step_load, show c.frameSlot.toNat % 4096 = _ from Machine.operand_toNat _,
        State.getElem?_memory hin]
      dsimp only
      rw [if_neg (by rw [hstack]; show ¬_ ≤ rest.length + 1; omega), hstack]
      rfl
    have hadded : (Machine.step c.node).run
        { m with stack := m.word (c.node.frameSlot % 4096) :: i :: rest, pc := m.pc + 1 } =
        .ok true { m with stack := (m.word (c.node.frameSlot % 4096) + i) :: rest, pc := m.pc + 2 } := by
      rw [Instr.Stands.step_binary hadd rfl, Machine.Binary.evalCell_add, Int16.add_comm]
      dsimp only
      rw [if_neg (by omega)]
    refine Checked.of_steps (.head hpushed (.head hadded (.refl _))) ?_
    refine Checked.indirect huse hs.1 hcode.right.right rfl (by omega) ?_
    show m.pc + Code.size (.plain [.load c.frameSlot] ++ (.plain [.binary .add] ++
      .plain (use.indirect s.offset c.memorySize))) = m.pc + 2 + 2
    rw [Code.size_append, Code.size_append, hsize]
    rfl
  | reference =>
    simp only [hmode] at hcode hstack hs ⊢
    have hstack : m.stack = i :: address :: rest := hstack
    have hcode : Code.Stands m.image m.pc (.plain [.binary .add] ++
        .plain (use.indirect 0 c.memorySize)) := hcode
    obtain ⟨held, hadd⟩ := hcode.left.instr
    have hadded : (Machine.step c.node).run m =
        .ok true { m with stack := (address + i) :: rest, pc := m.pc + 1 } := by
      rw [hadd.step_binary hstack, Machine.Binary.evalCell_add]
      dsimp only
      rw [if_neg (by omega)]
    refine Checked.of_steps (.head hadded (.refl _)) ?_
    rw [← Nat.zero_add (address + i).toUInt16.toNat]
    refine Checked.indirect huse (by omega) hcode.right rfl (by omega) ?_
    show m.pc + Code.size (.plain [.binary .add] ++ .plain (use.indirect 0 c.memorySize)) = m.pc + 1 + 2
    rw [Code.size_append, hsize]
    rfl

/-! ### Programs -/

/-- For a variable at a fixed address, of no more words than there are positions,
the check is that of the position. -/
theorem Storage.sum_lt_limit_iff {s : Storage} (hmode : s.mode = .absolute) (hsize : s.size ≤ 32768)
    (node : Node) (m : State) (i address : Cell) :
    (s.origin node m address + i).toUInt16 < s.limit node ↔ 0 ≤ i.toInt ∧ i.toInt < s.size := by
  have hlimit : (s.limit node).toNat = s.size := by
    unfold limit
    rw [hmode]
    show (UInt16.ofNat s.size).toNat = s.size
    rw [UInt16.toNat_ofNat', Nat.mod_eq_of_lt (by omega)]
  rw [s.origin_absolute hmode, UInt16.lt_iff_toNat_lt, hlimit]
  rcases Machine.toUInt16_toNat_cases i with h | h <;> omega

/-- The word of a variable at a fixed address is the one at the position. -/
theorem Storage.target_absolute {s : Storage} (hmode : s.mode = .absolute) (node : Node) (m : State)
    {i : Cell} (address : Cell) (hi : 0 ≤ i.toInt) :
    s.target (s.origin node m address + i).toUInt16 = s.offset + i.toInt.toNat := by
  unfold target
  rw [hmode, s.origin_absolute hmode]
  show s.offset + i.toUInt16.toNat = _
  rcases Machine.toUInt16_toNat_cases i with h | h <;> omega

/-- The machine checks the position on its stack before it uses the element. In a
variable at a fixed address the position is compared with the size, and the word
at that position is used. -/
structure Storage.Access (s : Storage) (c : Coder) (use : Use) (m : State) (i address : Cell)
    (rest : List Cell) : Prop where
  checked : Checked c.node use (s.target (s.origin c.node m address + i).toUInt16)
    (s.origin c.node m address + i).toUInt16 (s.limit c.node) rest
    (m.pc + Code.size (.plain (s.back c use))) m
  bound : s.mode = .absolute → s.size ≤ 32768 →
    ((s.origin c.node m address + i).toUInt16 < s.limit c.node ↔ 0 ≤ i.toInt ∧ i.toInt < s.size)
  word : s.mode = .absolute → 0 ≤ i.toInt →
    s.target (s.origin c.node m address + i).toUInt16 = s.offset + i.toInt.toNat

/-- Whenever a run comes to the use of an element, its position is checked. -/
def Plan.AccessChecked {node : Node} {settings : Settings} {program : Program} {image : List Word}
    (plan : Plan node settings program image) : Prop :=
  ∀ x ∈ plan.sheets, ∀ (p : Nat) (s : Storage) (use : Use), (p, .element s use) ∈ x.draft.notes 0 →
    use ≠ .address → ∀ m : State, Visits node image m → m.pc = x.base + p →
      ∀ (i address : Cell) (rest : List Cell), m.stack = s.operands i address ++ rest →
        rest.length + 2 ≤ Machine.stackSize → s.Access x.coder use m i address rest

/-- Every access to an element is checked, in every run of a compiled program:
the position is added to what the variable counts from, and the word that the sum
leads to is used and no other, or the run ends in a fault with memory as it was.
For a variable at a fixed address the fault comes just for the positions that are
not in it. For one in a frame and one passed by reference the sum is compared
with the size of the memory only. -/
theorem element_access_checked (node : Node) (settings : Settings) (source : Source) (compiled : Compiled)
    (hcompile : compile node settings source = .ok compiled) :
    ∃ lines program, readLines settings source = .ok lines ∧
      Program.ofLines node settings lines = .ok program ∧
      Nonempty (Plan node settings program compiled.image) ∧
      ∀ plan : Plan node settings program compiled.image, plan.AccessChecked := by
  obtain ⟨lines, program, hlines, hprogram, hplan⟩ := compile_plan hcompile
  refine ⟨lines, program, hlines, hprogram, hplan, ?_⟩
  intro plan x hx p s use hnote huse m hm hpc i address rest hstack hroom
  obtain ⟨front, back, hdraft, rfl⟩ := Draft.mem_notes.mp hnote
  obtain ⟨t, hemits⟩ := plan.drafted x hx
  obtain ⟨hs, post, rfl⟩ := (hdraft ▸ hemits.noted).behind
  have hcode : Code.Stands m.image m.pc (.plain (s.back x.coder use)) := by
    have hnoted : x.draft = (front ++ [.note (.element s use)]) ++ (plain (s.back x.coder use) ++ post) := by
      rw [hdraft]
      simp
    have hstands := (plan.sited hm).filed.stands hx hnoted
    rw [hpc, Nat.zero_add]
    simpa using hstands
  have hmemory : m.memory.size = x.coder.node.maxVarSize := by
    rw [plan.coders x hx]
    exact hm.memory_size
  exact ⟨.of_back huse hs hcode hmemory hstack hroom, fun hmode hsize => s.sum_lt_limit_iff hmode hsize ..,
    fun hmode hi => s.target_absolute hmode _ m address hi⟩

/-- A function with an array of two words and a variable behind it: storing at
the position 2 of the array is within memory, so the variable is overwritten. -/
theorem element_access_checked_local :
    ∃ compiled : Compiled,
      compile ⟨"", 16, [], [], []⟩ ⟨.l2, 1, []⟩
        ⟨"int g; void f() { int a[2]; int b = 7; int i = 2; a[i] = 5; g = b; } f();", none⟩ = .ok compiled ∧
      ((State.start ⟨"", 16, [], [], []⟩ compiled.image).after ⟨"", 16, [], [], []⟩ (.init 99)).word 0 = 5 ∧
      ∃ program, Nonempty (Plan ⟨"", 16, [], [], []⟩ ⟨.l2, 1, []⟩ program compiled.image) ∧
        ∀ plan : Plan ⟨"", 16, [], [], []⟩ ⟨.l2, 1, []⟩ program compiled.image, plan.AccessChecked := by
  have himage : (compile ⟨"", 16, [], [], []⟩ ⟨.l2, 1, []⟩
      ⟨"int g; void f() { int a[2]; int b = 7; int i = 2; a[i] = 5; g = b; } f();", none⟩).toOption.map
        (·.image) = some [3, 65535, 3, 4097, 16399, 53255, 0, 4103, 12303, 24578, 16, 4098, 12303, 24579, 16,
          4101, 12303, 20483, 16, 12303, 32770, 24576, 16, 12303, 20482, 16, 16384, 57344] := by
    decide +kernel
  obtain ⟨compiled, hsome, himage⟩ := Option.map_eq_some_iff.mp himage
  have hok := eq_ok_of_toOption hsome
  obtain ⟨-, program, -, -, hplan, hchecked⟩ := element_access_checked _ _ _ _ hok
  refine ⟨compiled, hok, ?_, program, hplan, hchecked⟩
  rw [himage]
  decide +kernel

end RobotScript
