/-
# What a machine keeps

Any image can be put into a machine, also one that no compiler made: it may
jump into its own table or into the operands of its instructions. Whatever it
holds, the machine keeps within its bounds. A state is compared with a later
one by `State.Keeps`, which composes, so it is proved of the operations on the
state and from them of a step, be it one that ends in a fault halfway. An event
that follows finds the machine in such a state and starts from there.

Key definitions: `Remarked`, `State.Keeps`, `Turns`, `Evolves`.
Key theorems: `Turns.step`, `step_steady`, `Evolves.keeps`, `machine_invariant`.
-/
import RobotScript.Proofs.StackSafety
import RobotScript.Proofs.Stepping

namespace RobotScript
namespace Machine

/-! ### Marks of edge branches -/

/-- The word is the same up to the mark of an edge branch, the bit `0x200` of
its first word. -/
def Remarked (w w' : Word) : Prop :=
  w' = w ∨ (Opcode.ofWord? w = some .conditionalBranch ∧ isEdge w = true ∧ w' = w ^^^ 0x200)

/-- The number with its tenth bit flipped, digit by digit. -/
theorem xor_mark (n : Nat) : (n ^^^ 512) / 1024 = n / 1024 ∧ (n ^^^ 512) % 512 = n % 512 ∧
    (n ^^^ 512) / 512 % 2 = 1 - n / 512 % 2 := by
  refine ⟨?_, ?_, ?_⟩
  · rw [show 1024 = 2 ^ 10 from rfl, Nat.xor_div_two_pow]
    exact Nat.xor_zero _
  · rw [show 512 = 2 ^ 9 from rfl, Nat.xor_mod_two_pow, Nat.mod_self]
    exact Nat.xor_zero _
  · have hbit : (n ^^^ 512) / 512 % 2 = n / 512 % 2 ^^^ 1 := by
      rw [show (n ^^^ 512) / 512 = n / 512 ^^^ 1 by
        rw [show 512 = 2 ^ 9 from rfl, Nat.xor_div_two_pow, Nat.div_self (by decide)]]
      exact Nat.xor_mod_two_pow (n := 1)
    rcases Nat.mod_two_eq_zero_or_one (n / 512) with h | h <;> rw [hbit, h] <;> rfl

theorem toNat_flip (w : Word) : (w ^^^ 0x200).toNat = w.toNat ^^^ 512 := UInt16.toNat_xor w 0x200

/-- A bit of a word is set. -/
theorem and_bit_ne_zero {w bit : Word} {k : Nat} (hbit : bit.toNat = 2 ^ k) :
    w &&& bit ≠ 0 ↔ w.toNat / 2 ^ k % 2 = 1 := by
  have hdiv : (w.toNat &&& 2 ^ k) / 2 ^ k = w.toNat / 2 ^ k % 2 := by
    rw [Nat.and_div_two_pow, Nat.div_self (Nat.two_pow_pos k), Nat.and_one_is_mod]
  have hmod : (w.toNat &&& 2 ^ k) % 2 ^ k = 0 := by
    rw [Nat.and_mod_two_pow, Nat.mod_self]
    exact Nat.and_zero _
  have hzero : w &&& bit = 0 ↔ w.toNat &&& 2 ^ k = 0 := by
    rw [← UInt16.toNat_inj, UInt16.toNat_and, hbit]
    rfl
  have hsplit := Nat.div_add_mod (w.toNat &&& 2 ^ k) (2 ^ k)
  rw [hdiv, hmod] at hsplit
  rw [ne_eq, hzero, ← hsplit]
  rcases Nat.mod_two_eq_zero_or_one (w.toNat / 2 ^ k) with h | h
  · simp [h]
  · simp [h]

theorem isEdge_iff (w : Word) : isEdge w = true ↔ w &&& 0x100 ≠ 0 := by
  rw [and_bit_ne_zero (k := 8) rfl]
  exact beq_iff_eq

theorem heldLast_iff (w : Word) : heldLast w = true ↔ w &&& 0x200 ≠ 0 := by
  rw [and_bit_ne_zero (k := 9) rfl]
  exact beq_iff_eq

theorem flip_flip (w : Word) : w ^^^ 0x200 ^^^ 0x200 = w := by
  rw [UInt16.xor_assoc, UInt16.xor_self, UInt16.xor_zero]

theorem toNat_markHeld (w : Word) (held : Bool) :
    (markHeld w held).toNat = w.toNat - w.toNat / 512 % 2 * 512 + held.toNat * 512 := by
  have hlt : w.toNat < 65536 := w.toNat_lt
  have hheld : held.toNat ≤ 1 := Bool.toNat_le held
  unfold markHeld
  rw [UInt16.toNat_ofNat']
  omega

theorem heldLast_markHeld (w : Word) (held : Bool) : heldLast (markHeld w held) = held := by
  have hmark := toNat_markHeld w held
  unfold heldLast
  cases held <;> simp only [Bool.toNat_false, Bool.toNat_true] at hmark <;>
    simp only [beq_iff_eq, beq_eq_false_iff_ne] <;> omega

/-- Marking a word leaves its bit `0x200` as it is or flips it. -/
theorem markHeld_eq (w : Word) (held : Bool) : markHeld w held = w ∨ markHeld w held = w ^^^ 0x200 := by
  have hflip := xor_mark w.toNat
  have hmark := toNat_markHeld w held
  have hcases : w.toNat / 512 % 2 = held.toNat ∨ w.toNat / 512 % 2 = 1 - held.toNat := by
    cases held <;> simp only [Bool.toNat_false, Bool.toNat_true] <;> omega
  rcases hcases with hsame | hother
  · left
    apply UInt16.toNat_inj.mp
    rw [hmark, hsame]
    omega
  · right
    apply UInt16.toNat_inj.mp
    rw [hmark, toNat_flip]
    cases held <;> simp only [Bool.toNat_false, Bool.toNat_true] at hother ⊢ <;> omega

namespace Remarked

theorem refl (w : Word) : Remarked w w := .inl rfl

theorem trans {w w' w'' : Word} (h : Remarked w w') (h' : Remarked w' w'') : Remarked w w'' := by
  rcases h with rfl | ⟨hop, hedge, rfl⟩
  · exact h'
  · rcases h' with rfl | ⟨-, -, rfl⟩
    · exact .inr ⟨hop, hedge, rfl⟩
    · exact .inl (flip_flip w)

theorem mark {w : Word} (hop : Opcode.ofWord? w = some .conditionalBranch) (hedge : isEdge w = true)
    (held : Bool) : Remarked w (markHeld w held) := by
  rcases markHeld_eq w held with h | h
  · exact .inl h
  · exact .inr ⟨hop, hedge, h⟩

end Remarked

/-- The image is the same up to the marks of edge branches. -/
structure ImageKept (image image' : Array Word) : Prop where
  size : image'.size = image.size
  words : ∀ (a : Nat) (w w' : Word), image[a]? = some w → image'[a]? = some w' → Remarked w w'

namespace ImageKept

theorem refl (image : Array Word) : ImageKept image image := by
  refine ⟨rfl, fun a w w' hw hw' => ?_⟩
  rw [hw] at hw'
  exact .inl (Option.some.inj hw').symm

theorem trans {image image' image'' : Array Word} (h : ImageKept image image')
    (h' : ImageKept image' image'') : ImageKept image image'' := by
  refine ⟨h'.size.trans h.size, fun a w w'' hw hw'' => ?_⟩
  have ha : a < image'.size := by
    rw [h.size]
    exact (Array.getElem?_eq_some_iff.mp hw).1
  have hw' : image'[a]? = some image'[a] := Array.getElem?_eq_getElem ha
  exact (h.words a w _ hw hw').trans (h'.words a _ w'' hw' hw'')

theorem set {image : Array Word} {a : Nat} {w w' : Word} (hw : image[a]? = some w)
    (h : Remarked w w') : ImageKept image (image.setIfInBounds a w') := by
  refine ⟨Array.size_setIfInBounds, fun b v v' hv hv' => ?_⟩
  by_cases hab : a = b
  · subst hab
    have ha : a < image.size := (Array.getElem?_eq_some_iff.mp hw).1
    rw [Array.getElem?_setIfInBounds_self_of_lt ha] at hv'
    rw [hw] at hv
    rw [← Option.some.inj hv, ← Option.some.inj hv']
    exact h
  · rw [Array.getElem?_setIfInBounds_ne hab, hv] at hv'
    exact .inl (Option.some.inj hv').symm

end ImageKept

/-! ### From a state to a later one -/

/-- What a machine keeps from one state to a later one: the bounds of its stacks
if they are met, the size of its memory, the events it has sent and the image up
to marks. -/
structure State.Keeps (s s' : State) : Prop where
  stack : s.stack.length ≤ stackSize → s'.stack.length ≤ stackSize
  calls : s.calls.length ≤ callDepth → s'.calls.length ≤ callDepth
  memory : s'.memory.size = s.memory.size
  emitted : s.emitted.toList <+: s'.emitted.toList
  image : ImageKept s.image s'.image

namespace State.Keeps

theorem refl (s : State) : s.Keeps s := ⟨id, id, rfl, List.prefix_refl _, .refl _⟩

theorem trans {s s' s'' : State} (h : s.Keeps s') (h' : s'.Keeps s'') : s.Keeps s'' where
  stack hs := h'.stack (h.stack hs)
  calls hs := h'.calls (h.calls hs)
  memory := h'.memory.trans h.memory
  emitted := h.emitted.trans h'.emitted
  image := h.image.trans h'.image

theorem setWord (s : State) (addr : Nat) (value : Cell) : s.Keeps (s.setWord addr value) :=
  ⟨id, id, Array.size_setIfInBounds, List.prefix_refl _, .refl _⟩

/-- A handler starts with empty stacks. -/
theorem enter (s : State) (start : Nat) : s.Keeps { s with pc := start, stack := [], calls := [] } :=
  ⟨fun _ => Nat.zero_le _, fun _ => Nat.zero_le _, rfl, List.prefix_refl _, .refl _⟩

/-- The machine goes on somewhere else. -/
theorem goTo (s : State) (pc : Nat) : s.Keeps { s with pc := pc } :=
  ⟨id, id, rfl, List.prefix_refl _, .refl _⟩

theorem frees : Frees (fun _ => True) State.Keeps where
  refl := refl
  trans := trans
  pushed _ _ hroom := ⟨fun _ => hroom, id, rfl, List.prefix_refl _, .refl _⟩
  popped s v rest hs := by
    refine ⟨fun hbound => ?_, id, rfl, List.prefix_refl _, .refl _⟩
    rw [hs, List.length_cons] at hbound
    exact Nat.le_of_succ_le hbound
  written s addr _ v := setWord s addr v
  seeded _ _ := ⟨id, id, rfl, List.prefix_refl _, .refl _⟩

end State.Keeps

/-! ### Steps -/

open Exec

/-- The relation allows what instructions do, marks of branches apart. -/
structure Turns (R : State → State → Prop) : Prop extends Frees (fun _ => True) R where
  goTo (s : State) (pc : Nat) : R s { s with pc := pc }
  sent (s : State) (e : Emission) : R s { s with emitted := s.emitted.push e }
  called (s : State) (caller pc : Nat) (hroom : s.calls.length < callDepth) :
    R s { s with calls := caller :: s.calls, pc := pc }
  returned (s : State) {caller : Nat} {rest : List Nat} (hs : s.calls = caller :: rest) :
    R s { s with calls := rest, pc := caller }

namespace Turns

variable {R : State → State → Prop}

theorem along_advance (hR : Turns R) (n : Nat) : Along R (advance n) := fun s => hR.goTo s _

theorem along_jumpBy (hR : Turns R) (offset : Int) : Along R (jumpBy offset) := by
  refine hR.along_get_bind fun s => ?_
  dsimp only
  by_cases hneg : (s.pc : Int) + offset < 0
  · rw [if_pos hneg]
    exact hR.refl s
  · rw [if_neg hneg]
    exact hR.goTo s _

/-- The relation holds along a step, also along one that ends in a fault, if it
does along a branch. -/
theorem step (hR : Turns R) {node : Node} {s : State}
    (hbranch : ∀ word op, s.image[s.pc]? = some word → Opcode.ofWord? word = some .conditionalBranch →
      Binary.ofCode? (operand word % 256) = some op → R s ((stepBranch word op).finish s)) :
    R s ((Machine.step node).finish s) := by
  have hK := hR.toFrees
  refine hK.along_bind_from (hR.refl s) fun s0 s' hs => ?_
  cases hs
  refine hK.along_bind_from (hK.along_fetch s.pc s) fun word s' hfetch => ?_
  obtain ⟨hword, rfl⟩ : s.image[s.pc]? = some word ∧ s' = s := by
    cases hw : s.image[s.pc]? with
    | none => simp [Exec.fetch, hw, run_throw] at hfetch
    | some w =>
      rw [run_fetch hw] at hfetch
      cases hfetch
      exact ⟨rfl, rfl⟩
  have hdone (n : Nat) : Along R (do advance n; pure true : Exec Bool) :=
    hK.along_bind (hR.along_advance n) fun _ => hK.along_pure true
  have hpush (v : Cell) (n : Nat) : Along R (do push v; advance n; pure true : Exec Bool) :=
    hK.along_bind (hK.along_push v) fun _ => hdone n
  have hwrite (a : Nat) (v : Cell) (n : Nat) : Along R (do write a v; advance n; pure true : Exec Bool) :=
    hK.along_bind (hK.along_write trivial v) fun _ => hdone n
  dsimp only
  split
  · exact hR.refl s'
  · exact hR.refl s'
  · exact hpush _ 1 s'
  · exact hK.along_bind (hK.along_fetch _) (fun v => hpush _ 2) s'
  · exact hK.along_bind (hK.along_read _) (fun v => hpush v 1) s'
  · exact hK.along_bind hK.along_pop (fun v => hwrite _ v 1) s'
  · exact hK.along_bind (hK.along_fetch _) (fun size => hK.along_bind (hK.along_popIndex _ size)
      fun addr => hK.along_bind (hK.along_read addr) fun v => hpush v 2) s'
  · exact hK.along_bind (hK.along_fetch _) (fun size => hK.along_bind (hK.along_popIndex _ size)
      fun addr => hK.along_bind hK.along_pop fun v => hwrite addr v 2) s'
  · split
    · exact hR.refl s'
    · exact hK.along_bind hK.along_pop (fun v => hpush _ 1) s'
  · split
    · exact hR.refl s'
    · exact hK.along_bind (hK.along_popBinary _) (fun v => hpush v 1) s'
  · exact hK.along_bind (hR.along_jumpBy _) (fun _ => hK.along_pure true) s'
  · rename_i hop
    split
    · exact hR.refl s'
    · rename_i op hcode
      exact hK.along_bind_from (hbranch word op hword hop hcode) fun _ s1 _ => hR.refl s1
  · refine hK.along_bind (hK.along_fetch _) (fun addr => hK.along_bind (hK.along_fetch _) fun size =>
      hK.along_bind (hK.along_readMany _ _) fun data => hK.along_bind (fun s1 => ?_) fun _ => hdone 3) s'
    exact hR.sent s1 _
  · refine hK.along_bind (fun s1 => ?_) (fun _ => hdone 1) s'
    exact hK.along_callNative node fun _ _ _ _ _ _ _ _ => trivial
  · refine hK.along_get_bind (fun s1 => ?_) s'
    by_cases hfull : callDepth ≤ s1.calls.length
    · rw [if_pos hfull]
      exact hR.refl s1
    · rw [if_neg hfull]
      exact hR.called s1 _ _ (Nat.lt_of_not_le hfull)
  · refine hK.along_get_bind (fun s1 => ?_) s'
    cases hcalls : s1.calls with
    | nil => exact hR.refl s1
    | cons caller rest => exact hR.returned s1 hcalls

end Turns

theorem State.Keeps.turns : Turns State.Keeps where
  toFrees := State.Keeps.frees
  goTo := .goTo
  sent s e := by
    refine ⟨id, id, rfl, ?_, .refl _⟩
    show s.emitted.toList <+: (s.emitted.push e).toList
    rw [Array.toList_push]
    exact List.prefix_append _ _
  called s _ _ hroom := ⟨id, fun _ => hroom, rfl, List.prefix_refl _, .refl _⟩
  returned s caller rest hs := by
    refine ⟨id, fun hbound => ?_, rfl, List.prefix_refl _, .refl _⟩
    rw [hs, List.length_cons] at hbound
    exact Nat.le_of_succ_le hbound

/-- A branch marks the word it was read from, if that is one of an edge branch. -/
theorem stepBranch_keeps {s : State} {word : Word} (op : Binary) (hword : s.image[s.pc]? = some word)
    (hop : Opcode.ofWord? word = some .conditionalBranch) : s.Keeps ((stepBranch word op).finish s) := by
  have hK := State.Keeps.turns
  refine hK.along_bind_from (hK.along_popBinary op s) fun v s' hpop => ?_
  obtain ⟨a, b, rest, -, -, rfl⟩ := run_popBinary_ok hpop
  refine hK.along_bind_from (.refl _) fun s0 s1 hs => ?_
  cases hs
  -- where the machine goes on does not matter, marked or not
  have hgo (s2 : State) : s2.Keeps (Exec.finish (if !(v != 0) || (isEdge word && heldLast word) then do
      jumpBy (← Exec.fetch (s.pc + 1)).toInt16.toInt
    else advance 2 : Exec Unit) s2) := by
    split
    · exact hK.along_bind (hK.along_fetch _) (fun offset => hK.along_jumpBy _) s2
    · exact hK.along_advance 2 s2
  cases hedge : isEdge word with
  | false =>
    rw [hedge] at hgo
    exact hgo _
  | true =>
    rw [hedge] at hgo
    refine hK.along_bind_from ?_ fun _ s2 _ => hgo s2
    exact ⟨id, id, rfl, List.prefix_refl _, .set hword (.mark hop hedge _)⟩

/-- A step keeps to the bounds, also one that ends in a fault. -/
theorem step_steady (node : Node) : Along State.Keeps (step node) :=
  fun _ => State.Keeps.turns.step fun _ op hword hop _ => stepBranch_keeps op hword hop

/-! ### Every state reached -/

/-- The machine comes from one state to another: memory is written from outside,
an event starts its handler, or the machine takes a step, which goes on, ends the
handler or ends in a fault. -/
inductive Evolves (node : Node) : State → State → Prop
  | refl (s : State) : Evolves node s s
  | write {s s' : State} (h : Evolves node s s') (addr : Nat) (value : Cell) :
      Evolves node s (s'.setWord addr value)
  | enter {s s' : State} {id : Word} {start : Nat} (h : Evolves node s s')
      (hid : s'.handler? id = some start) :
      Evolves node s { s' with pc := start, stack := [], calls := [] }
  | step {s s' s'' : State} {more : Bool} (h : Evolves node s s')
      (hstep : (step node).run s' = .ok more s'') : Evolves node s s''
  | fault {s s' s'' : State} {fault : RunFault} (h : Evolves node s s')
      (hstep : (Machine.step node).run s' = .error fault s'') : Evolves node s s''

namespace Evolves

variable {node : Node} {s s' : State}

theorem keeps (h : Evolves node s s') : s.Keeps s' := by
  induction h with
  | refl => exact .refl _
  | write _ addr value ih => exact ih.trans (.setWord _ addr value)
  | enter _ _ ih => exact ih.trans (.enter _ _)
  | @step s1 _ _ _ hstep ih | @fault s1 _ _ _ hstep ih =>
    have hkeeps := step_steady node s1
    unfold finish at hkeeps
    rw [hstep] at hkeeps
    exact ih.trans hkeeps

theorem finish_step (h : Evolves node s s') : Evolves node s ((Machine.step node).finish s') := by
  unfold finish
  split
  · rename_i hstep
    exact h.step hstep
  · rename_i hstep
    exact h.fault hstep

theorem runSteps (limit : Nat) : ∀ (left : Nat) {s' : State}, Evolves node s s' →
    Evolves node s ((runSteps node limit left).finish s')
  | left, s', h => by
    have hnext := h.finish_step
    unfold finish at hnext ⊢
    cases left with
    | zero =>
      rw [Machine.runSteps, EStateM.run_bind]
      cases hstep : (Machine.step node).run s' with
      | error e s1 =>
        rw [hstep] at hnext
        exact hnext
      | ok more s1 =>
        rw [hstep] at hnext
        cases more <;> exact hnext
    | succ left =>
      rw [Machine.runSteps, EStateM.run_bind]
      cases hstep : (Machine.step node).run s' with
      | error e s1 =>
        rw [hstep] at hnext
        exact hnext
      | ok more s1 =>
        rw [hstep] at hnext
        cases more with
        | false => exact hnext
        | true => exact runSteps limit left hnext

theorem runEvent (h : Evolves node s s') (id : Word) (limit : Nat) :
    Evolves node s ((runEvent node id limit).finish s') := by
  unfold finish Machine.runEvent
  rw [EStateM.run_bind, EStateM.run_get]
  dsimp only
  cases hid : s'.handler? id with
  | none => exact h
  | some start =>
    have hrun := runSteps limit limit (h.enter hid)
    unfold finish at hrun
    dsimp only
    rw [EStateM.run_bind, EStateM.run_set]
    dsimp only
    rw [EStateM.run_bind]
    split at hrun <;> rename_i hsteps <;> rw [hsteps] <;> exact hrun

theorem after (h : Evolves node s s') (action : Action) : Evolves node s (s'.after node action) := by
  have hafter : s'.after node action = (action.perform node).finish s' := by
    unfold State.after finish
    cases (action.perform node).run s' <;> rfl
  rw [hafter]
  cases action with
  | init limit => exact h.runEvent Node.initEventId limit
  | event id limit => exact h.runEvent id limit
  | write addr value => exact h.write addr value

theorem history (h : Evolves node s s') (actions : List Action) :
    Evolves node s (actions.foldl (State.after node) s') := by
  induction actions generalizing s' with
  | nil => exact h
  | cons action actions ih => exact ih (h.after action)

end Evolves

/-- Whatever image a machine is given and whatever is done to it, in every state
it comes to, in the middle of a handler, behind one or behind a fault, the
stacks are within their bounds and memory has the node's size; the events sent
stay at the front of those of every later state; and the image is the one it was
given, up to the bit `0x200` in the first words of edge branches. -/
theorem machine_invariant (node : Node) (image : List Word) :
    (∀ history : List Action, Evolves node (.start node image)
      (history.foldl (State.after node) (.start node image))) ∧
    ∀ s, Evolves node (.start node image) s →
      s.stack.length ≤ 32 ∧ s.calls.length ≤ 64 ∧ s.memory.size = node.maxVarSize ∧
      (∀ s', Evolves node s s' → s.emitted.toList <+: s'.emitted.toList) ∧
      s.image.size = image.length ∧
      ∀ (a : Nat) (w w' : Word), image[a]? = some w → s.image[a]? = some w' →
        w' = w ∨ (Opcode.ofWord? w = some .conditionalBranch ∧ w &&& 0x100 ≠ 0 ∧ w' = w ^^^ 0x200) := by
  refine ⟨fun history => (Evolves.refl _).history history, fun s h => ?_⟩
  have hkeeps := h.keeps
  refine ⟨hkeeps.stack (Nat.zero_le _), hkeeps.calls (Nat.zero_le _), ?_, ?_, ?_, ?_⟩
  · rw [hkeeps.memory]
    exact Array.size_replicate
  · exact fun s' h' => h'.keeps.emitted
  · rw [hkeeps.image.size]
    exact List.size_toArray
  · intro a w w' hw hw'
    rcases hkeeps.image.words a w w' (by simpa [State.start] using hw) hw' with h | ⟨hop, hedge, h⟩
    · exact .inl h
    · exact .inr ⟨hop, (isEdge_iff w).mp hedge, h⟩

/-- An edge branch that is marked when its condition starts to hold, and sends
one event in two runs. -/
theorem machine_invariant_edge :
    ∃ (node : Node) (image : List Word) (s : State), Evolves node (.start node image) s ∧
      image[5]? = some 0xa10b ∧ s.image[5]? = some 0xa30b ∧ s.emitted = #[⟨1, [7]⟩] ∧
      s.stack.length ≤ 32 ∧ s.memory.size = 8 := by
  let node : Node := ⟨"", 8, [], [], []⟩
  let image : List Word := [3, 0xffff, 3, 0x3000, 0x1000, 0xa10b, 5, 0xb001, 0, 1, 0]
  let s := [Action.write 0 7, .init 9, .init 9].foldl (State.after node) (.start node image)
  have hall := machine_invariant node image
  have hs : Evolves node (.start node image) s := hall.1 _
  have hbounds := hall.2 s hs
  exact ⟨node, image, s, hs, rfl, by decide +kernel, by decide +kernel, hbounds.1, hbounds.2.2.1⟩

end Machine
end RobotScript
