/-
# Executing code in an image

The words of an instruction stand in an image at an address, up to the mark
that the machine sets in an edge branch. At such an address a step of the
machine does what `Instr.run` says of the instruction, so what is proved of a
run is proved of instructions, not of words.

An image holds the words of a table and of code behind it. The marks are all
that the machine changes in it, and a mark leaves every instruction of the
code where it stands.

Key definitions: `Instr.Stands`, `Instr.run`, `Loaded`.
Key theorems: `Instr.Stands.step`, `Loaded.of_words`, `Loaded.mark`.
-/
import RobotScript.Machine.Run
import RobotScript.Proofs.Grading

namespace RobotScript
namespace Machine

/-! ### Instructions in an image -/

/-- The operand of an address. -/
theorem operand_toNat (a : Nat) : (UInt16.ofNat a).toNat % 4096 = a % 4096 := by
  rw [UInt16.toNat_ofNat']
  omega

theorem operand_eq {a : Nat} (ha : a < 4096) : (UInt16.ofNat a).toNat % 4096 = a := by
  rw [operand_toNat, Nat.mod_eq_of_lt ha]

/-- A cell without its sign. -/
theorem toUInt16_toNat_cases (n : Cell) : (0 ≤ n.toInt ∧ n.toUInt16.toNat = n.toInt.toNat) ∨
    (n.toInt < 0 ∧ 32768 ≤ n.toUInt16.toNat ∧ n.toInt = n.toUInt16.toNat - 65536) := by
  have hsigned : n.toInt = if 2 * n.toUInt16.toNat < 65536 then (n.toUInt16.toNat : Int)
      else n.toUInt16.toNat - 65536 := BitVec.toInt_eq_toNat_cond n.toBitVec
  have hword : n.toUInt16.toNat < 65536 := n.toUInt16.toNat_lt
  split at hsigned <;> omega

theorem signed12_word (op : Opcode) {n : Cell} (hlo : -2048 ≤ n.toInt) (hhi : n.toInt < 2048) :
    signed12 (op.word n.toUInt16.toNat) = n.toInt := by
  have hn := toUInt16_toNat_cases n
  rw [signed12, operand_word]
  split <;> omega

namespace Instr

def marked (held : Bool) : Instr → List Word
  | branch op true d =>
    [markHeld (Opcode.conditionalBranch.word (op.code + 256)) held, d.toUInt16]
  | i => i.encode

theorem marked_false (i : Instr) : i.marked false = i.encode := by
  cases i with
  | branch op edge d =>
    cases edge with
    | false => rfl
    | true => cases op <;> rfl
  | _ => rfl

@[simp] theorem length_marked (held : Bool) (i : Instr) : (i.marked held).length = i.length := by
  unfold marked
  split
  · rfl
  · exact length_encode _

def Stands (i : Instr) (held : Bool) (image : Array Word) (a : Nat) : Prop :=
  ∀ j w, (i.marked held)[j]? = some w → image[a + j]? = some w

/-- The machine executes the instruction, of which the words stand at the
program counter. -/
def run (node : Node) (held : Bool) : Instr → Exec Bool
  | stop => pure false
  | pushSmall n => do
    Exec.push (Int16.ofInt (signed12 (Opcode.smallImmediate.word n.toUInt16.toNat)))
    Exec.advance 1
    pure true
  | push n => do
    Exec.push n
    Exec.advance 2
    pure true
  | load a => do
    Exec.push (← Exec.read (a.toNat % 4096))
    Exec.advance 1
    pure true
  | store a => do
    Exec.write (a.toNat % 4096) (← Exec.pop)
    Exec.advance 1
    pure true
  | loadIndirect a size => do
    Exec.push (← Exec.read (← Exec.popIndex (a.toNat % 4096) size))
    Exec.advance 2
    pure true
  | storeIndirect a size => do
    Exec.write (← Exec.popIndex (a.toNat % 4096) size) (← Exec.pop)
    Exec.advance 2
    pure true
  | unary op => do
    Exec.push (op.evalCell (← Exec.pop))
    Exec.advance 1
    pure true
  | binary op => do
    Exec.push (← Exec.popBinary op)
    Exec.advance 1
    pure true
  | jump o => do
    Exec.jumpBy (signed12 (Opcode.jump.word o.toUInt16.toNat))
    pure true
  | branch op edge o => do
    let holds := (← Exec.popBinary op) != 0
    let s ← get
    if edge then
      let word := markHeld (Opcode.conditionalBranch.word (op.code + 256)) holds
      set { s with image := s.image.setIfInBounds s.pc word }
    if !holds || (edge && held) then Exec.jumpBy o.toInt else Exec.advance 2
    pure true
  | emit id a size => do
    let data ← Exec.readMany a.toNat size.toNat
    modify fun s => { s with emitted := s.emitted.push ⟨UInt16.ofNat (id.toNat % 4096), data⟩ }
    Exec.advance 3
    pure true
  | callNative id => do
    Machine.callNative node (id.toNat % 4096)
    Exec.advance 1
    pure true
  | callSub a => do
    let s ← get
    if callDepth ≤ s.calls.length then throw (.stackOverflow s.pc)
    else do
      set { s with calls := (s.pc + 1) :: s.calls, pc := a.toNat % 4096 }
      pure true
  | ret => do
    let s ← get
    match s.calls with
    | [] => pure false
    | caller :: rest => do
      set { s with calls := rest, pc := caller }
      pure true

end Instr

namespace Exec

theorem run_throw {α : Type} (e : RunFault) (s : State) : (throw e : Exec α).run s = .error e s :=
  rfl

theorem run_fetch {s : State} {a : Nat} {w : Word} (h : s.image[a]? = some w) :
    (fetch a).run s = .ok w s := by
  simp [fetch, h]

theorem run_pop (s : State) : pop.run s = match s.stack with
    | [] => .error (.stackUnderflow s.pc) s
    | value :: rest => .ok value { s with stack := rest } := by
  rw [pop, EStateM.run_bind, EStateM.run_get]
  dsimp only
  cases s.stack <;> rfl

/-- What is popped for an operator that gives a value. -/
theorem run_popBinary_ok {op : Binary} {s s' : State} {v : Cell} (h : (popBinary op).run s = .ok v s') :
    ∃ a b rest, s.stack = b :: a :: rest ∧ op.evalCell a b = some v ∧
      s' = { s with stack := rest } := by
  rcases hs : s.stack with _ | ⟨b, _ | ⟨a, rest⟩⟩
  · simp [popBinary, run_pop, hs] at h
  · simp [popBinary, run_pop, hs] at h
  · cases hv : op.evalCell a b with
    | none => simp [popBinary, run_pop, hs, hv, run_throw] at h
    | some value =>
      obtain ⟨rfl, rfl⟩ : value = v ∧ { s with stack := rest } = s' := by
        simpa only [popBinary, EStateM.run_bind, EStateM.run_get, EStateM.run_pure, run_pop, hs, hv,
          EStateM.Result.ok.injEq] using h
      exact ⟨a, b, rest, rfl, hv, rfl⟩

theorem run_jumpBy {s : State} {o : Int} {q : Nat} (h : (s.pc : Int) + o = q) :
    (jumpBy o).run s = .ok () { s with pc := q } := by
  simp only [jumpBy, EStateM.run_bind, EStateM.run_get, h]
  rw [if_neg (by omega), Int.toNat_natCast]
  rfl

end Exec

/-- How the machine reads the first word of a branch, marked or not. -/
theorem Instr.branch_word (op : Binary) (edge held : Bool) (o : Cell) :
    ∃ w, (branch op edge o).marked held = [w, o.toUInt16] ∧
      Opcode.ofWord? w = some .conditionalBranch ∧ Binary.ofCode? (operand w % 256) = some op ∧
      isEdge w = edge ∧ (edge && heldLast w) = (edge && held) ∧
      ∀ b, edge = true →
        markHeld w b = markHeld (Opcode.conditionalBranch.word (op.code + 256)) b := by
  cases edge <;> cases held <;> exact ⟨_, rfl, by cases op <;> decide⟩

namespace Instr.Stands

variable {i : Instr} {held : Bool} {s : State}

theorem of_words (front back : List Word) (i : Instr) :
    i.Stands false (front ++ i.encode ++ back).toArray front.length := by
  intro j w hw
  rw [marked_false] at hw
  have hj : j < i.encode.length := (List.getElem?_eq_some_iff.mp hw).1
  rw [List.getElem?_toArray, List.append_assoc, List.getElem?_append_right (Nat.le_add_right ..),
    Nat.add_sub_cancel_left, List.getElem?_append_left hj, hw]

variable {image : Array Word}

theorem fetch {a j : Nat} {w : Word} (h : i.Stands held image a) (hw : (i.marked held)[j]? = some w)
    (hs : s.image = image) : (Exec.fetch (a + j)).run s = .ok w s :=
  Exec.run_fetch (hs ▸ h j w hw)

/-- The machine executes the instruction that stands at the program counter. -/
theorem step (node : Node) (h : i.Stands held s.image s.pc) :
    (step node).run s = (i.run node held).run s := by
  have h0 {w : Word} (hw : (i.marked held)[0]? = some w) : (Exec.fetch s.pc).run s = .ok w s :=
    h.fetch hw rfl
  have h1 {w : Word} (hw : (i.marked held)[1]? = some w) :
      (Exec.fetch (s.pc + 1)).run s = .ok w s :=
    h.fetch hw rfl
  have h2 {w : Word} (hw : (i.marked held)[2]? = some w) :
      (Exec.fetch (s.pc + 2)).run s = .ok w s :=
    h.fetch hw rfl
  unfold Machine.step
  cases i with
  | branch op edge o =>
    obtain ⟨w, hw, hop, hcode, hedge, hheld, hmark⟩ := branch_word op edge held o
    have hfirst := h0 (w := w) (by rw [hw]; rfl)
    simp only [EStateM.run_bind, EStateM.run_get, hfirst, hop, hcode, stepBranch, run]
    cases hpop : (Exec.popBinary op).run s with
    | error e s' => rfl
    | ok v s' =>
      obtain ⟨a, b, rest, -, -, rfl⟩ := Exec.run_popBinary_ok hpop
      have hnext : s.image[s.pc + 1]? = some o.toUInt16 := h 1 _ (by rw [hw]; rfl)
      -- marking the branch leaves its second word alone
      have hoffset (w' : Word) : (Exec.fetch (s.pc + 1)).run
          { s with stack := rest, image := s.image.setIfInBounds s.pc w' } =
            .ok o.toUInt16 { s with stack := rest, image := s.image.setIfInBounds s.pc w' } := by
        refine Exec.run_fetch ?_
        rw [Array.getElem?_setIfInBounds_ne (by omega), hnext]
      have hoffset' : (Exec.fetch (s.pc + 1)).run { s with stack := rest } =
          .ok o.toUInt16 { s with stack := rest } :=
        Exec.run_fetch hnext
      simp only [hedge, hheld]
      generalize (!(v != 0) || (edge && held)) = go
      cases edge with
      | false =>
        cases go with
        | false =>
          simp only [Bool.false_eq_true, if_false]
          rfl
        | true =>
          simp only [EStateM.run_bind, hoffset', Bool.false_eq_true, if_false, if_true]
          rfl
      | true =>
        cases go with
        | false =>
          simp only [EStateM.run_bind, EStateM.run_set, hmark _ rfl, Bool.false_eq_true, if_false, if_true]
        | true =>
          simp only [EStateM.run_bind, EStateM.run_set, hoffset, hmark _ rfl, if_true]
          rfl
  | push n =>
    simp only [EStateM.run_bind, EStateM.run_get, h0 rfl, h1 rfl, Opcode.ofWord?_word, run]
    rfl
  | loadIndirect a n | storeIndirect a n =>
    simp only [EStateM.run_bind, EStateM.run_get, h0 rfl, h1 rfl, Opcode.ofWord?_word, operand_word, run]
  | emit id a n =>
    simp only [EStateM.run_bind, EStateM.run_get, h0 rfl, h1 rfl, h2 rfl, Opcode.ofWord?_word, operand_word, run]
  | unary op =>
    have hop : op.code % 4096 = op.code := by cases op <;> rfl
    simp only [EStateM.run_bind, EStateM.run_get, h0 rfl, Opcode.ofWord?_word, operand_word, hop,
      Unary.ofCode?_code, run]
  | binary op =>
    have hop : op.code % 4096 = op.code := by cases op <;> rfl
    simp only [EStateM.run_bind, EStateM.run_get, h0 rfl, Opcode.ofWord?_word, operand_word, hop,
      Binary.ofCode?_code, run]
  | ret =>
    cases hcalls : s.calls <;>
      simp only [EStateM.run_bind, EStateM.run_get, h0 rfl, Opcode.ofWord?_word, hcalls, run]
  | _ => simp only [EStateM.run_bind, EStateM.run_get, h0 rfl, Opcode.ofWord?_word, operand_word, run]

/-- An instruction stands as before if a word outside of it changes. -/
theorem set {a b : Nat} (h : i.Stands held image a) (w : Word) (hb : b < a ∨ a + i.length ≤ b) :
    i.Stands held (image.setIfInBounds b w) a := by
  intro j v hv
  have hj : j < i.length := by
    rw [← length_marked held]
    exact (List.getElem?_eq_some_iff.mp hv).1
  rw [Array.getElem?_setIfInBounds_ne (by omega)]
  exact h j v hv

/-- An edge branch stands with the mark that it is given. -/
theorem mark {a : Nat} {op : Binary} {o : Cell} (h : (branch op true o).Stands held image a) (held' : Bool) :
    (branch op true o).Stands held' (image.setIfInBounds a
      (markHeld (Opcode.conditionalBranch.word (op.code + 256)) held')) a := by
  intro j w hw
  match j with
  | 0 =>
    obtain rfl : markHeld _ held' = w := by simpa [marked] using hw
    have hsize : a < image.size := (Array.getElem?_eq_some_iff.mp (h 0 _ rfl)).1
    exact Array.getElem?_setIfInBounds_self_of_lt hsize
  | j + 1 =>
    rw [Array.getElem?_setIfInBounds_ne (by omega)]
    rw [marked, List.getElem?_cons_succ] at hw
    exact h (j + 1) w (by rw [marked, List.getElem?_cons_succ, hw])

end Instr.Stands

/-! ### Code in an image -/

/-- The image starts with the words of a table and goes on with those of code,
up to the marks of edge branches. -/
structure Loaded (table : List Word) (c : Code) (image : Array Word) : Prop where
  front : ∀ (j : Nat) (w : Word), table[j]? = some w → image[j]? = some w
  code : ∀ p i, c.At p i → ∃ held, i.Stands held image (table.length + p)

namespace Loaded

variable {table : List Word} {c : Code} {image : Array Word}

theorem of_words (table : List Word) (c : Code) : Loaded table c (table ++ Code.words c).toArray := by
  refine ⟨fun j w hw => ?_, ?_⟩
  · rw [List.getElem?_toArray]
    exact List.getElem?_append_left (List.getElem?_eq_some_iff.mp hw).1 ▸ hw
  · rintro p i ⟨pre, post, rfl, rfl⟩
    have hwords : table ++ Code.words (pre ++ .instr i :: post) =
        (table ++ Code.words pre) ++ i.encode ++ Code.words post := by
      rw [Code.words_append, Code.words]
      simp only [List.append_assoc]
    rw [hwords, ← Code.length_words pre, ← List.length_append]
    exact ⟨false, .of_words _ _ i⟩

/-- Marking an edge branch. -/
theorem mark (h : Loaded table c image) {p : Nat} {op : Binary} {o : Cell} (held : Bool)
    (hp : c.At p (.branch op true o)) :
    Loaded table c (image.setIfInBounds (table.length + p)
      (markHeld (Opcode.conditionalBranch.word (op.code + 256)) held)) := by
  refine ⟨fun j w hw => ?_, fun q i hi => ?_⟩
  · have hj : j < table.length := (List.getElem?_eq_some_iff.mp hw).1
    rw [Array.getElem?_setIfInBounds_ne (by omega)]
    exact h.front j w hw
  · obtain ⟨held', hstands⟩ := h.code q i hi
    rcases hp.apart hi with ⟨rfl, rfl⟩ | hbehind | hbefore
    · exact ⟨held, hstands.mark held⟩
    · have := Instr.length_pos (.branch op true o)
      exact ⟨held', hstands.set _ (.inl (by omega))⟩
    · exact ⟨held', hstands.set _ (.inr (by omega))⟩

end Loaded
end Machine
end RobotScript
