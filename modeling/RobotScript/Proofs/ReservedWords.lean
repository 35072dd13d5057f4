/-
# Reserved words

Two words at the end of memory hold results of functions and the address of the
frame. All variables outside functions lie before these words, unless so many are
declared that the count of their words starts over. The frame of a
function that is called from there starts behind the variables and the saved
temporaries, and nothing checks where it ends: it is apart from the reserved
words only if it ends before them. Addresses of instructions have twelve bits,
which the reserved words of a larger memory exceed.

Key theorem: `reserved_words_apart`.
-/
import RobotScript.Proofs.Storage
import RobotScript.Proofs.VariableWords

namespace RobotScript

open Machine (State)
open Code (plain size)
open Coder (pushNat)

namespace Coder

variable {c : Coder}

/-- Instructions for the return slot or the frame pointer mean the word. -/
def Reserves (c : Coder) (word : Nat) : Prop :=
  word = c.returnSlot.toNat % 4096 ∨ word = c.frameSlot.toNat % 4096

theorem reserves_iff (hwords : c.node.maxVarSize ≤ 4096) (word : Nat) :
    c.Reserves word ↔ word = c.node.returnSlot ∨ word = c.node.frameSlot := by
  have hreturn : c.returnSlot.toNat % 4096 = c.node.returnSlot :=
    Machine.operand_eq (by unfold Node.returnSlot; omega)
  rw [Reserves, hreturn, frameSlot_toNat hwords]

theorem not_reserves {word : Nat} (h : word < c.node.returnSlot) (hwords : c.node.maxVarSize ≤ 4096) :
    ¬c.Reserves word := by
  rw [reserves_iff hwords]
  unfold Node.returnSlot Node.frameSlot at *
  omega

/-- Code that sets the frame pointer. -/
abbrev enter (c : Coder) (base : Nat) : Code := plain [pushNat base] ++ plain [.store c.frameSlot]

theorem steps_enter {base : Nat} {m : State} (hcode : (c.enter base).Stands m.image m.pc)
    (hslot : c.frameSlot.toNat % 4096 < m.memory.size) (hroom : m.stack.length < Machine.stackSize) :
    Steps c.node m { m.setWord (c.frameSlot.toNat % 4096) (Int16.ofNat base) with
      pc := m.pc + size (c.enter base) } := by
  have hpush : (Machine.step c.node).run m = _ :=
    hcode.left.step_immediate (p := 0) (n := Int16.ofNat base) ⟨[], [], rfl, rfl⟩ rfl hroom
  let m1 : State := { m with stack := Int16.ofNat base :: m.stack, pc := m.pc + size (plain [pushNat base]) }
  have hstore : (Machine.step c.node).run m1 = _ :=
    hcode.right.step_store (p := 0) (m := m1) ⟨[], [], rfl, rfl⟩ rfl rfl hslot
  exact .head hpush (.head hstore (.refl _))

/-- The last thing before a call from outside functions is to set the frame pointer. -/
theorem callFunction_enters {s : Signature} {used : Bool} {span : Span} {st st' : Coding.State} {k : Code}
    (hframe : c.frameSize = none) (h : c.callFunction s used span st = .ok (k, st')) :
    ∃ front back, k = front ++ c.enter (c.calleeBase st.nextTemp) ++ .call s.name span :: back := by
  obtain ⟨-, -, rfl⟩ := callFunction_brings s used span st k st' rfl h
  obtain ⟨is, his⟩ : ∃ is, c.callFront s st.nextTemp =
      is ++ [pushNat (c.calleeBase st.nextTemp), .store c.frameSlot] := by
    unfold callFront
    rw [hframe]
    exact ⟨_, rfl⟩
  refine ⟨plain is, (c.callReset st.nextTemp).map .instr ++
    plain (c.callRestore st.nextTemp ++ c.callResult used), ?_⟩
  simp [callDraft, his, plain]

end Coder

/-- Reserved words are apart from all variables outside functions if the words of
these are counted right and addresses reach the whole memory. A call from outside
functions puts the address behind the variables and the saved temporaries into the
frame pointer. The frame from there on is apart from the reserved words just if it
ends before them. -/
theorem reserved_words_apart {text : String} {node : Node} {settings : Settings} {source : Source}
    {lines : List Line} {written laid : List Routine} {allocation : Allocation}
    (hnode : Node.ofJsonText text = .ok node) (hlines : readLines settings source = .ok lines)
    (hwritten : Routine.ofLines settings.language lines = .ok written)
    (hlaid : Routine.layAll node settings.language written = .ok (laid, allocation))
    (hlanguage : settings.language = .l2) (r : Routine) :
    let c := r.coder node settings allocation.layout.moduleTop
    (∀ word, c.Reserves word ↔ word = node.returnSlot % 4096 ∨ word = node.frameSlot % 4096) ∧
    (node.Counted → (∀ v ∈ laid.flatMap (·.moduleVariables), v.Counted) →
      ∀ word, word < node.variablesSize ∨ (∃ v ∈ laid.flatMap (·.moduleVariables), v.stretch.Has word) →
        word < node.returnSlot ∧ (node.maxVarSize ≤ 4096 → ¬c.Reserves word)) ∧
    ∀ (f : Routine) (s : Signature) (used : Bool) (span : Span) (st st' : Coding.State) (k : Code),
      c.frameSize = none → c.moduleSize ≤ st.nextTemp → c.callFunction s used span st = .ok (k, st') →
      let base := c.moduleSize + (node.returnSlot - st.nextTemp)
      (∃ front back, k = front ++ c.enter base ++ .call s.name span :: back) ∧
      (∀ m : State, (c.enter base).Stands m.image m.pc → c.frameSlot.toNat % 4096 < m.memory.size →
        m.stack.length < Machine.stackSize → Steps node m
          { m.setWord (c.frameSlot.toNat % 4096) (Int16.ofNat base) with pc := m.pc + size (c.enter base) }) ∧
      (node.Counted → node.maxVarSize ≤ 4096 →
        ((∀ word, (Stretch.mk base f.frameSize).Has word → ¬c.Reserves word) ↔
          base + f.frameSize ≤ node.returnSlot)) := by
  have hstands := Line.read_standsIn (mapError_eq_ok.mp hlines)
  have hsound := (Routine.allFlat_of_ofLines hstands hwritten).sound hstands
  obtain ⟨-, -, htiled, hroom⟩ := Allocation.layAll_stored hsound rfl hlaid
  have hmodule (hcounted : node.Counted) : allocation.layout.moduleTop ≤ node.returnSlot :=
    hroom (Node.returnSlot_of_ofJsonText hnode hcounted)
  intro c
  refine ⟨fun word => ?_, fun hcounted hall word hword => ?_,
    fun f s used span st st' k hframe htemps hcall => ?_⟩
  · rw [Coder.Reserves, Coder.returnSlot, Coder.frameSlot, Machine.operand_toNat, Machine.operand_toNat]
    rfl
  · have hbefore : word < node.returnSlot := by
      rcases hword with hword | ⟨v, hv, hword⟩
      · exact Nat.lt_of_lt_of_le hword (Node.returnSlot_of_ofJsonText hnode hcounted)
      · exact Nat.lt_of_lt_of_le hword.2
          (Nat.le_trans ((htiled hall).spread.within v hv).2 (hmodule hcounted))
    exact ⟨hbefore, Coder.not_reserves (c := c) hbefore⟩
  · intro base
    have hbase : c.calleeBase st.nextTemp = base := by
      rw [Coder.calleeBase, Coder.live, Coder.tempTop, hframe, show c.settings.language = .l2 from hlanguage]
      rfl
    refine ⟨hbase ▸ Coder.callFunction_enters hframe hcall, fun m hcode hslot hroom =>
      Coder.steps_enter hcode hslot hroom,
      fun hcounted hwords => ⟨fun hapart => ?_, fun hends word hword hreserved => ?_⟩⟩
    · have hstart : base ≤ node.returnSlot := by
        have hbehind : allocation.layout.moduleTop ≤ st.nextTemp := htemps
        have hroom := hmodule hcounted
        show allocation.layout.moduleTop + _ ≤ _
        omega
      by_contra hover
      exact hapart node.returnSlot ⟨hstart, Nat.not_le.mp hover⟩
        ((Coder.reserves_iff (c := c) hwords _).mpr (.inl rfl))
    · have hbefore : word < node.returnSlot := Nat.lt_of_lt_of_le hword.2 hends
      exact Coder.not_reserves hbefore hwords hreserved

/-- Of eight words, the frame of a function with an array of six reaches beyond
the return slot. -/
theorem reserved_words_apart_overrun :
    ∃ (text : String) (node : Node) (settings : Settings) (source : Source) (lines : List Line)
      (written laid : List Routine) (allocation : Allocation), Node.ofJsonText text = .ok node ∧
      readLines settings source = .ok lines ∧ Routine.ofLines settings.language lines = .ok written ∧
      Routine.layAll node settings.language written = .ok (laid, allocation) ∧ node.returnSlot = 6 ∧
      ∃ f ∈ laid, f.frameSize = 7 ∧ ∃ r word, (Stretch.mk 1 f.frameSize).Has word ∧
        (Routine.coder node settings allocation.layout.moduleTop r).Reserves word := by
  have hnode : (Node.ofJsonText "\x7b\"name\": \"\", \"maxVarSize\": 8, \"variables\": []\x7d").toOption =
      some ⟨"", 8, [], [], []⟩ := by
    decide +kernel
  have hlaid : (do
      let lines ← readLines ⟨.l2, 1, []⟩
        ⟨"int r; int f(int k) \x7b int a[6]; a[5] = 3; return k; \x7d r = f(9);", none⟩
      let written ← Routine.ofLines .l2 lines
      let out ← Routine.layAll ⟨"", 8, [], [], []⟩ .l2 written
      return (out.1.map (·.frameSize), out.2.layout.moduleTop) :
      Result (List Nat × Nat)).toOption = some ([0, 7], 1) := by
    decide +kernel
  obtain ⟨lines, hlines, hlaid⟩ := bind_eq_ok.mp (eq_ok_of_toOption hlaid)
  obtain ⟨written, hwritten, hlaid⟩ := bind_eq_ok.mp hlaid
  obtain ⟨⟨laid, allocation⟩, hlaid, hvalues⟩ := bind_eq_ok.mp hlaid
  obtain ⟨hframes, htop⟩ := Prod.mk.inj (Except.ok.inj hvalues)
  have hnode := eq_ok_of_toOption hnode
  obtain ⟨f, hf, hseven⟩ : ∃ f ∈ laid, f.frameSize = 7 := List.mem_map.mp (hframes ▸ by decide)
  refine ⟨_, _, _, _, lines, written, laid, allocation, hnode, hlines, hwritten, hlaid, rfl, f, hf, hseven,
    default, ?_⟩
  obtain ⟨-, -, hcalls⟩ := reserved_words_apart hnode hlines hwritten hlaid rfl default
  rw [htop] at hcalls ⊢
  obtain ⟨-, -, hends⟩ := hcalls f default false default ⟨6, default⟩ _ _ rfl (by decide) rfl
  by_contra hshared
  have hcounted : Node.Counted ⟨"", 8, [], [], []⟩ := by unfold Node.Counted; decide
  have hfits := (hends hcounted (by decide)).mp fun word hword hreserved => hshared ⟨word, hword, hreserved⟩
  rw [hseven] at hfits
  exact absurd hfits (by decide)

end RobotScript
