/-
# Rising edges

An edge branch keeps the last outcome of its condition in its own first word, in
the image that the machine runs. Whatever the machine does in between, in other
handlers, in loops and calls or in runs that end in a fault, this mark is the
outcome of the last execution of the branch at that address: no other instruction
changes the image, and another branch marks its own word. So the body behind a
branch is entered just if the condition holds and did not hold when the branch was
executed before.

Key definitions: `State.edge?`, `Recorded`.
Key theorems: `State.Tests.step`, `finish_step_image`, `Recorded.heldLast_eq`,
`body_entered_on_rising_edges`.
-/
import RobotScript.Proofs.MachineBounds

namespace RobotScript
namespace Machine

open Exec

/-! ### Executions of edge branches -/

/-- The machine stands at an edge branch whose condition has a value: whether it
holds. -/
def State.edge? (s : State) : Option Bool :=
  match s.image[s.pc]?, s.stack with
  | some word, b :: a :: _ =>
    if Opcode.ofWord? word = some .conditionalBranch ∧ isEdge word = true then
      (Binary.ofCode? (operand word % 256)).bind fun op => (op.evalCell a b).map (· != 0)
    else none
  | _, _ => none

/-- What an execution of an edge branch finds. -/
structure State.Tests (s : State) (w : Word) (op : Binary) (a b v : Cell) (rest : List Cell) : Prop where
  word : s.image[s.pc]? = some w
  opcode : Opcode.ofWord? w = some .conditionalBranch
  edge : isEdge w = true
  code : Binary.ofCode? (operand w % 256) = some op
  stack : s.stack = b :: a :: rest
  value : op.evalCell a b = some v

variable {rest : List Cell} {s : State}

theorem State.Tests.edge? {w : Word} {op : Binary} {a b v : Cell} (h : s.Tests w op a b v rest) :
    s.edge? = some (v != 0) := by
  unfold State.edge?
  rw [h.word, h.stack]
  dsimp only
  rw [if_pos ⟨h.opcode, h.edge⟩, h.code, Option.bind_some, h.value]
  rfl

theorem State.edge?_eq_some {holds : Bool} (h : s.edge? = some holds) :
    ∃ word op a b v rest, s.Tests word op a b v rest ∧ holds = (v != 0) := by
  unfold State.edge? at h
  split at h
  · rename_i word b a rest hword hstack
    split at h
    · rename_i hbranch
      obtain ⟨op, hop, hvalue⟩ := Option.bind_eq_some_iff.mp h
      obtain ⟨v, hv, rfl⟩ := Option.map_eq_some_iff.mp hvalue
      exact ⟨word, op, a, b, v, rest, ⟨hword, hbranch.1, hbranch.2, hop, hstack, hv⟩, rfl⟩
    · cases h
  · cases h

/-- Go on from the branch at an address: enter the body behind its two words, or
go past it, as its second word says. -/
def Exec.leaveBranch (enter : Bool) (pc : Nat) : Exec Unit :=
  if enter then advance 2
  else do jumpBy (← fetch (pc + 1)).toInt16.toInt

/-- A step at an edge branch takes two words from the stack, marks the branch with
the outcome and enters its body if the condition holds and the mark was not set. -/
theorem State.Tests.step {node : Node} {word : Word} {op : Binary} {a b v : Cell}
    (h : s.Tests word op a b v rest) :
    (Machine.step node).run s =
      (do leaveBranch ((v != 0) && !heldLast word) s.pc; pure true : Exec Bool).run
        { s with stack := rest, image := s.image.setIfInBounds s.pc (markHeld word (v != 0)) } := by
  have hpop : (popBinary op).run s = .ok v { s with stack := rest } := by
    rw [run_popBinary_cons h.stack, h.value]
  unfold Machine.step
  rw [EStateM.run_bind, EStateM.run_get]
  dsimp only
  rw [EStateM.run_bind, run_fetch h.word]
  dsimp only
  rw [h.opcode]
  dsimp only
  rw [h.code]
  dsimp only
  unfold stepBranch
  rw [EStateM.run_bind, EStateM.run_bind, hpop]
  dsimp only
  rw [h.edge]
  cases (v != 0) <;> cases heldLast word <;> rfl

/-! ### Nothing else changes the image -/

theorem Turns.along_leaveBranch {R : State → State → Prop} (hR : Turns R) (enter : Bool) (pc : Nat) :
    Along R (leaveBranch enter pc) := by
  unfold leaveBranch
  split
  · exact hR.along_advance 2
  · exact hR.along_bind (hR.along_fetch _) fun offset => hR.along_jumpBy _

theorem imageSame_turns : Turns fun s s' => s'.image = s.image where
  refl _ := rfl
  trans h h' := h'.trans h
  pushed _ _ _ := rfl
  popped _ _ _ _ := rfl
  written _ _ _ _ := rfl
  seeded _ _ := rfl
  goTo _ _ := rfl
  sent _ _ := rfl
  called _ _ _ _ := rfl
  returned _ _ _ _ := rfl

/-- A step that is no execution of an edge branch leaves the image as it is. -/
theorem finish_step_image {node : Node} (h : s.edge? = none) :
    ((Machine.step node).finish s).image = s.image := by
  have hR := imageSame_turns
  refine hR.step fun word op hword hop hcode => ?_
  refine hR.along_bind_from (hR.along_popBinary op s) fun v s' hpop => ?_
  obtain ⟨a, b, rest, hstack, hv, rfl⟩ := run_popBinary_ok hpop
  have hedge : isEdge word = false := by
    cases hedge : isEdge word with
    | false => rfl
    | true =>
      rw [State.Tests.edge? ⟨hword, hop, hedge, hcode, hstack, hv⟩] at h
      cases h
  refine hR.along_bind_from rfl fun s0 s1 hs => ?_
  cases hs
  rw [hedge]
  cases hv : (v != 0) with
  | false => exact hR.along_bind (hR.along_fetch _) (fun offset => hR.along_jumpBy _) _
  | true => exact hR.along_advance 2 _

/-- An execution of an edge branch changes the word of the branch only, also one
that ends in a fault. -/
theorem State.Tests.finish_step_image {node : Node} {w : Word} {op : Binary} {a b v : Cell}
    (h : s.Tests w op a b v rest) :
    ((Machine.step node).finish s).image = s.image.setIfInBounds s.pc (markHeld w (v != 0)) := by
  have hR := imageSame_turns
  have himage := hR.along_bind (hR.along_leaveBranch ((v != 0) && !heldLast w) s.pc)
    (fun _ => hR.along_pure true) { s with stack := rest, image := s.image.setIfInBounds s.pc (markHeld w (v != 0)) }
  unfold finish at himage ⊢
  rwa [h.step]

/-! ### Marks -/

/-- A mark leaves what the machine reads a branch by. -/
theorem Remarked.edge {w w' : Word} (h : Remarked w w') : isEdge w' = isEdge w := by
  rcases h with rfl | ⟨-, -, rfl⟩
  · rfl
  · have hflip := (xor_mark w.toNat).2.1
    unfold isEdge
    rw [toNat_flip]
    congr 1
    omega

theorem Remarked.opcode {w w' : Word} (h : Remarked w w') : Opcode.ofWord? w' = Opcode.ofWord? w := by
  rcases h with rfl | ⟨-, -, rfl⟩
  · rfl
  · have hflip := (xor_mark w.toNat).1
    unfold Opcode.ofWord?
    rw [toNat_flip]
    congr 1
    omega

/-! ### Histories -/

/-- The outcome of the edge branch that a step from the state executes, with its
address. -/
def State.executed (s : State) : List (Nat × Bool) :=
  match s.edge? with
  | some holds => [(s.pc, holds)]
  | none => []

/-- The machine comes from a state to another, and executes edge branches with
these outcomes, the last one first: memory is written from outside, an event
starts its handler, or the machine takes a step, which may end in a fault. -/
inductive Recorded (node : Node) (s0 : State) : List (Nat × Bool) → State → Prop
  | start : Recorded node s0 [] s0
  | write {hist : List (Nat × Bool)} {s : State} (h : Recorded node s0 hist s) (addr : Nat)
      (value : Cell) : Recorded node s0 hist (s.setWord addr value)
  | enter {hist : List (Nat × Bool)} {s : State} {id : Word} {start : Nat} (h : Recorded node s0 hist s)
      (hid : s.handler? id = some start) :
      Recorded node s0 hist { s with pc := start, stack := [], calls := [] }
  | step {hist : List (Nat × Bool)} {s : State} (h : Recorded node s0 hist s) :
      Recorded node s0 (s.executed ++ hist) ((Machine.step node).finish s)

namespace Recorded

variable {node : Node} {s0 : State} {hist : List (Nat × Bool)}

theorem of_evolves (h : Evolves node s0 s) : ∃ hist, Recorded node s0 hist s := by
  induction h with
  | refl => exact ⟨[], .start⟩
  | write _ addr value ih =>
    obtain ⟨hist, ih⟩ := ih
    exact ⟨hist, ih.write addr value⟩
  | enter _ hid ih =>
    obtain ⟨hist, ih⟩ := ih
    exact ⟨hist, ih.enter hid⟩
  | step _ hstep ih | fault _ hstep ih =>
    obtain ⟨hist, ih⟩ := ih
    have hnext := ih.step
    unfold finish at hnext
    rw [hstep] at hnext
    exact ⟨_, hnext⟩

theorem evolves (h : Recorded node s0 hist s) : Evolves node s0 s := by
  induction h with
  | start => exact .refl _
  | write _ addr value ih => exact ih.write addr value
  | enter _ hid ih => exact ih.enter hid
  | step _ ih => exact ih.finish_step

/-- The mark of an edge branch is the outcome of its last execution, and before
the first one the mark it was given. -/
theorem heldLast_eq (h : Recorded node s0 hist s) {p : Nat} {w w' : Word} (hw : s0.image[p]? = some w)
    (hw' : s.image[p]? = some w') : heldLast w' = (hist.lookup p).getD (heldLast w) := by
  induction h generalizing w' with
  | start =>
    rw [hw] at hw'
    cases hw'
    rfl
  | write _ _ _ ih | enter _ _ ih => exact ih hw'
  | @step hist s hs ih =>
    cases hedge : s.edge? with
    | none =>
      rw [finish_step_image hedge] at hw'
      rw [State.executed, hedge]
      exact ih hw'
    | some holds =>
      obtain ⟨v, op, a, b, c, rest, htests, rfl⟩ := State.edge?_eq_some hedge
      rw [htests.finish_step_image] at hw'
      rw [State.executed, hedge, List.singleton_append, List.lookup_cons]
      by_cases hp : p = s.pc
      · subst hp
        have hlt : s.pc < s.image.size := (Array.getElem?_eq_some_iff.mp htests.word).1
        rw [Array.getElem?_setIfInBounds_self_of_lt hlt] at hw'
        rw [← Option.some.inj hw', heldLast_markHeld, beq_self_eq_true]
        rfl
      · rw [Array.getElem?_setIfInBounds_ne (Ne.symm hp)] at hw'
        rw [beq_eq_false_iff_ne.mpr hp]
        exact ih hw'

end Recorded

/-- Whatever is done to a machine, whenever it comes to execute an edge branch that
is not marked in the image it was given, it enters the body behind the branch if
the condition holds and did not hold at the last execution of the branch at this
address, or there was none; else it goes past the body. It marks this branch and
no other word of the image. -/
theorem body_entered_on_rising_edges (node : Node) (image : List Word) :
    (∀ actions : List Action, ∃ hist, Recorded node (.start node image) hist
      (actions.foldl (State.after node) (.start node image))) ∧
    ∀ (hist : List (Nat × Bool)) (s : State) (holds : Bool),
      Recorded node (.start node image) hist s → s.edge? = some holds →
      (∀ w, image[s.pc]? = some w → Opcode.ofWord? w = some .conditionalBranch → isEdge w = true →
        w &&& 0x200 = 0) →
      ∃ w, s.image[s.pc]? = some w ∧
        (Machine.step node).run s =
          (do leaveBranch (holds && hist.lookup s.pc != some true) s.pc; pure true : Exec Bool).run
            { s with stack := s.stack.drop 2, image := s.image.setIfInBounds s.pc (markHeld w holds) } := by
  refine ⟨fun actions => Recorded.of_evolves ((Evolves.refl _).history actions), ?_⟩
  intro hist s holds hs hedge hclear
  obtain ⟨w, op, a, b, v, rest, htests, rfl⟩ := State.edge?_eq_some hedge
  have hkept := hs.evolves.keeps.image
  have hlt : s.pc < (State.start node image).image.size := by
    rw [← hkept.size]
    exact (Array.getElem?_eq_some_iff.mp htests.word).1
  obtain ⟨w₀, hw₀⟩ : ∃ w₀, (State.start node image).image[s.pc]? = some w₀ :=
    ⟨_, Array.getElem?_eq_getElem hlt⟩
  have hmark : Remarked w₀ w := hkept.words s.pc w₀ w hw₀ htests.word
  have hfirst : heldLast w₀ = false := by
    have hzero := hclear w₀ (by simpa [State.start] using hw₀) (hmark.opcode ▸ htests.opcode)
      (hmark.edge ▸ htests.edge)
    rw [← Bool.not_eq_true, heldLast_iff]
    exact not_not_intro hzero
  have hheld := hs.heldLast_eq hw₀ htests.word
  rw [hfirst] at hheld
  have hrises : (!heldLast w) = (hist.lookup s.pc != some true) := by
    rw [hheld]
    rcases hist.lookup s.pc with _ | _ | _ <;> rfl
  refine ⟨w, htests.word, ?_⟩
  rw [htests.step, htests.stack, hrises]
  rfl

/-- A branch whose condition holds in both of two runs, of which the first ends in
a fault in its body: the second run goes past the body. -/
theorem body_entered_on_rising_edges_again :
    ∃ (node : Node) (image : List Word) (hist : List (Nat × Bool)) (s : State) (w : Word),
      image[5]? = some 0xa10b ∧ Recorded node (.start node image) hist s ∧ hist = [(5, true)] ∧ s.pc = 5 ∧
      s.edge? = some true ∧ (Machine.step node).run s =
        (do leaveBranch false s.pc; pure true : Exec Bool).run
          { s with stack := s.stack.drop 2, image := s.image.setIfInBounds s.pc (markHeld w true) } := by
  let node : Node := ⟨"", 8, [], [], []⟩
  -- the body adds what is not on the stack
  let image : List Word := [3, 0xffff, 3, 0x3000, 0x1000, 0xa10b, 3, 0x8000, 0]
  let enter (s : State) : State := { s with pc := 3, stack := [], calls := [] }
  let next (s : State) : State := (Machine.step node).finish s
  let s₁ := enter ((State.start node image).setWord 0 7)
  let s₂ := enter (next (next (next (next s₁))))
  have hstart {hist : List (Nat × Bool)} {s : State} (h : Recorded node (.start node image) hist s)
      (hid : s.handler? Node.initEventId = some 3) : Recorded node (.start node image) hist (enter s) :=
    h.enter hid
  have hnext {hist : List (Nat × Bool)} {s : State} (h : Recorded node (.start node image) hist s)
      (new : List (Nat × Bool)) (hnew : s.executed = new) :
      Recorded node (.start node image) (new ++ hist) (next s) := hnew ▸ h.step
  have hfirst : Recorded node (.start node image) [] s₁ := hstart (Recorded.start.write 0 7) (by decide +kernel)
  have htested := hnext (hnext (hnext hfirst [] (by decide +kernel)) [] (by decide +kernel)) [(5, true)]
    (by decide +kernel)
  have hsecond : Recorded node (.start node image) [(5, true)] s₂ :=
    hstart (hnext htested [] (by decide +kernel)) (by decide +kernel)
  obtain ⟨s, hs, hpc, hedge⟩ : ∃ s, Recorded node (.start node image) [(5, true)] s ∧ s.pc = 5 ∧
      s.edge? = some true :=
    ⟨next (next s₂), hnext (hnext hsecond [] (by decide +kernel)) [] (by decide +kernel),
      by decide +kernel, by decide +kernel⟩
  have hclear (w : Word) (hw : image[s.pc]? = some w) : w &&& 0x200 = 0 := by
    rw [hpc] at hw
    rw [← Option.some.inj hw]
    decide
  obtain ⟨w, -, hstep⟩ := (body_entered_on_rising_edges node image).2 _ s true hs hedge
    fun w hw _ _ => hclear w hw
  have hheld : (true && [(5, true)].lookup s.pc != some true) = false := by rw [hpc]; rfl
  rw [hheld] at hstep
  exact ⟨node, image, [(5, true)], s, w, rfl, hs, rfl, hpc, hedge, hstep⟩

end Machine
end RobotScript
