/-
# Where runs come to

A machine that runs a compiled program stands at an item of a draft, and so do
the addresses it returns to; its image holds the drafts and the table of handlers
as it did at first, up to the marks of edge branches. This is so at every moment
of every handler, whatever was run before and however it ended.

Key definitions: `Visits`, `Filed`, `Sited`.
Key theorems: `Plan.step`, `Plan.sited`.
-/
import RobotScript.Proofs.MachineBounds
import RobotScript.Proofs.Sheets

namespace RobotScript

open Machine (Instr State Action RunFault)
open Code (Boundary Has Sound nowhere)

/-- The machine comes to the state in the course of a handler of the image. -/
def Visits (node : Node) (image : List Word) (m : State) : Prop :=
  ∃ (history : List Action) (id : Word) (start : Nat) (s : State),
    s = history.foldl (State.after node) (.start node image) ∧ s.handler? id = some start ∧
    Steps node { s with pc := start, stack := [], calls := [] } m

theorem Steps.evolves {node : Node} {s m m' : State} (h : Steps node m m') (hm : Machine.Evolves node s m) :
    Machine.Evolves node s m' := by
  induction h with
  | refl => exact hm
  | head hstep _ ih => exact ih (hm.step hstep)

theorem Visits.memory_size {node : Node} {image : List Word} {m : State} (h : Visits node image m) :
    m.memory.size = node.maxVarSize := by
  obtain ⟨history, id, start, s, rfl, hid, hsteps⟩ := h
  have hstart : Machine.Evolves node (.start node image) _ := (Machine.Evolves.refl _).history history
  exact (hsteps.evolves (hstart.enter hid)).keeps.memory.trans Array.size_replicate

/-! ### Items of code -/

/-- Two items of code do not overlap. -/
theorem Code.Has.apart {c : Code} {p q : Nat} {i j : Item} (hi : Has c p i) (hj : Has c q j) :
    (p = q ∧ i = j) ∨ p + i.size ≤ q ∨ q + j.size ≤ p := by
  obtain ⟨pre, post, rfl, rfl⟩ := hi
  obtain ⟨pre', post', hc, rfl⟩ := hj
  rcases List.append_eq_append_iff.mp hc with ⟨mid, rfl, hmid⟩ | ⟨mid, rfl, hmid⟩
  · cases mid with
    | nil => exact .inl ⟨by rw [List.append_nil], (List.cons.inj hmid).1⟩
    | cons item mid =>
      obtain ⟨rfl, -⟩ := List.cons.inj hmid
      right; left
      simp only [Code.size_append, Code.size_cons]
      omega
  · cases mid with
    | nil => exact .inl ⟨by rw [List.append_nil], (List.cons.inj hmid).1.symm⟩
    | cons item mid =>
      obtain ⟨rfl, -⟩ := List.cons.inj hmid
      right; right
      simp only [Code.size_append, Code.size_cons]
      omega

theorem Code.Has.boundary_behind {c : Code} {p : Nat} {i : Item} (h : Has c p i) :
    Boundary c (p + i.size) := by
  obtain ⟨pre, post, rfl, rfl⟩ := h
  exact ⟨pre ++ [i], post, by simp, by rw [Code.size_append, Code.size_cons, Code.size_nil]; rfl⟩

theorem Code.Has.add_size_le {c : Code} {p : Nat} {i : Item} (h : Has c p i) : p + i.size ≤ Code.size c := by
  obtain ⟨pre, post, rfl, rfl⟩ := h
  rw [Code.size_append, Code.size_cons]
  omega

/-- From a boundary on the next item that has words is one of the code or the
end. -/
theorem Code.Boundary.next {c : Code} {p : Nat} (h : Boundary c p) :
    (∃ i, Has c p i ∧ 0 < i.size) ∨ p = Code.size c := by
  obtain ⟨pre, post, rfl, rfl⟩ := h
  induction post generalizing pre with
  | nil => exact .inr (by rw [List.append_nil])
  | cons item post ih =>
    by_cases hsize : 0 < item.size
    · exact .inl ⟨item, ⟨pre, post, rfl, rfl⟩, hsize⟩
    · have hsize : Code.size (pre ++ [item]) = Code.size pre := by
        rw [Code.size_append, Code.size_cons, Code.size_nil]
        omega
      have hnext := ih (pre ++ [item])
      rw [hsize] at hnext
      simpa using hnext

namespace Sheet

variable {x : Sheet} {p : Nat} {i : Item}

theorem has_of_draft (h : Has x.draft.code p i) : Has x.code p i := by
  obtain ⟨pre, post, hc, rfl⟩ := h
  exact ⟨pre, post ++ Code.plain [x.coder.exit], by rw [code, hc]; simp, rfl⟩

/-- What ends the routine stands behind its draft. -/
theorem has_exit (x : Sheet) : Has x.code x.draft.size (.instr x.coder.exit) := ⟨x.draft.code, [], rfl, rfl⟩

theorem size_eq (x : Sheet) : x.size = x.draft.size + x.coder.exit.length := by
  rw [size, code, Code.size_append]
  rfl

end Sheet

/-- Instructions of a draft stand in the image. -/
theorem Filed.stands {table : List Word} {sheets : List Sheet} {image : Array Word} {x : Sheet}
    (h : Filed table sheets image) (hx : x ∈ sheets) {front back : Draft} {is : List Instr}
    (hdraft : x.draft = front ++ (Draft.plain is ++ back)) :
    Code.Stands image (x.base + front.size) (.plain is) := by
  intro pre item post hsplit
  have hhas : Has x.code (front.size + Code.size pre) item := by
    refine ⟨front.code ++ pre, post ++ back.code ++ Code.plain [x.coder.exit], ?_, Code.size_append ..⟩
    rw [Sheet.code, hdraft]
    simp [hsplit]
  have hlies := h.lies x hx _ item hhas
  obtain ⟨i, -, rfl⟩ := List.mem_map.mp (hsplit ▸ List.mem_append_right _ List.mem_cons_self :
    item ∈ Code.plain is)
  rwa [Nat.add_assoc]

/-! ### Marks -/

namespace Plan

variable {node : Node} {settings : Settings} {program : Program} {image : List Word}
  (plan : Plan node settings program image) {x y : Sheet}

theorem sheets_apart (hx : x ∈ plan.sheets) (hy : y ∈ plan.sheets) :
    x = y ∨ x.base + x.size ≤ y.base ∨ y.base + y.size ≤ x.base := by
  obtain ⟨i, hi, rfl⟩ := List.mem_iff_getElem.mp hx
  obtain ⟨j, hj, rfl⟩ := List.mem_iff_getElem.mp hy
  have hapart := List.pairwise_iff_getElem.mp plan.apart
  rcases Nat.lt_trichotomy i j with hij | rfl | hij
  · exact .inr (.inl (hapart i j hi hj hij))
  · exact .inl rfl
  · exact .inr (.inr (hapart j i hj hi hij))

/-- The items of the drafts do not overlap. -/
theorem items_apart (hx : x ∈ plan.sheets) (hy : y ∈ plan.sheets) {p q : Nat} {i j : Item}
    (hi : Has x.code p i) (hj : Has y.code q j) :
    (x = y ∧ p = q ∧ i = j) ∨ x.base + p + i.size ≤ y.base + q ∨ y.base + q + j.size ≤ x.base + p := by
  rcases plan.sheets_apart hx hy with rfl | hlt | hlt
  · rcases hi.apart hj with ⟨rfl, rfl⟩ | hle | hle
    · exact .inl ⟨rfl, rfl, rfl⟩
    · exact .inr (.inl (by omega))
    · exact .inr (.inr (by omega))
  · have hp : p + i.size ≤ x.size := hi.add_size_le
    exact .inr (.inl (by omega))
  · have hq : q + j.size ≤ y.size := hj.add_size_le
    exact .inr (.inr (by omega))

/-- Marking an edge branch of a draft leaves all drafts where they are. -/
theorem mark {words : Array Word} (h : Filed (Image.header plan.size plan.handlers) plan.sheets words)
    (hx : x ∈ plan.sheets) {p : Nat} {op : Machine.Binary} {o : Cell}
    (hp : Has x.code p (.instr (.branch op true o))) (held : Bool) :
    Filed (Image.header plan.size plan.handlers) plan.sheets (words.setIfInBounds (x.base + p)
      (Machine.markHeld (Machine.Opcode.conditionalBranch.word (op.code + 256)) held)) := by
  generalize hword : Machine.markHeld _ held = word
  refine ⟨fun j w hw => ?_, fun y hy q item hitem => ?_⟩
  · have hj : j < plan.size := plan.length ▸ (List.getElem?_eq_some_iff.mp hw).1
    have := plan.behind x hx
    rw [Array.getElem?_setIfInBounds_ne (by omega)]
    exact h.front j w hw
  · have hlies := h.lies y hy q item hitem
    have hlength := (Instr.branch op true o).length_pos
    rcases plan.items_apart hx hy hp hitem with ⟨rfl, rfl, rfl⟩ | hout
    · obtain ⟨held', hstands⟩ := hlies
      exact ⟨held, hword ▸ hstands.mark held⟩
    -- the words of every other item stay
    · have hset {i : Instr} {held' : Bool} (hi : i.length = item.size)
          (hstands : i.Stands held' words (y.base + q)) :
          i.Stands held' (words.setIfInBounds (x.base + p) word) (y.base + q) := by
        refine hstands.set word ?_
        have hsize : Item.size (.instr (.branch op true o)) = (Instr.branch op true o).length := rfl
        omega
      cases item with
      | instr i =>
        obtain ⟨held', hstands⟩ := hlies
        exact ⟨held', hset rfl hstands⟩
      | call name span =>
        obtain ⟨z, hz, hentry, hstands⟩ := hlies
        exact ⟨z, hz, hentry, hset rfl hstands⟩
      | goto name span =>
        obtain ⟨t, i, ht, hi, hstands⟩ := hlies
        obtain ⟨d, rfl, -⟩ := jumpBy?_eq_some hi
        exact ⟨t, _, ht, hi, hset rfl hstands⟩
      | _ => trivial

end Plan

/-! ### Steps -/

/-- The address is that of an item of a draft, or of what ends it. -/
def Point (sheets : List Sheet) (a : Nat) : Prop :=
  ∃ x ∈ sheets, ∃ p, a = x.base + p ∧ Boundary x.draft.code p

/-- The machine stands at an item of a draft and returns to such, and holds the
drafts. -/
structure Sited (table : List Word) (sheets : List Sheet) (m : State) : Prop where
  filed : Filed table sheets m.image
  pc : Point sheets m.pc
  calls : ∀ a ∈ m.calls, Point sheets a

/-- What a step comes to: another item, or the end of the handler or a fault. -/
def Sited.Next (table : List Word) (sheets : List Sheet) : EStateM.Result RunFault State Bool → Prop
  | .ok true m => Sited table sheets m
  | .ok false m | .error _ m => Filed table sheets m.image

namespace Plan

variable {node : Node} {settings : Settings} {program : Program} {image : List Word}
  (plan : Plan node settings program image) {x : Sheet} {m : State}

/-- The words of the table of handlers. -/
abbrev table : List Word := Image.header plan.size plan.handlers

theorem base_lt (hx : x ∈ plan.sheets) : x.base < 4096 := by
  have hfits : x.base + x.size ≤ 4096 := plan.fits x hx
  have := x.coder.exit.length_pos
  have := x.size_eq
  omega

/-- An instruction that goes on behind itself. -/
theorem step_onward (h : Sited plan.table plan.sheets m) {i : Instr} {held : Bool}
    (hstands : i.Stands held m.image m.pc) (hi : i.goesOn = true)
    (hnext : Point plan.sheets (m.pc + i.length)) :
    Sited.Next plan.table plan.sheets ((Machine.step node).run m) := by
  rw [hstands.step node]
  have honward := @Instr.run_onward node held i hi m
  split at honward
  · rename_i more m' hrun
    obtain ⟨rfl, hpast⟩ := honward
    rw [hrun]
    exact ⟨hpast.image ▸ h.filed, hpast.pc ▸ hnext, hpast.calls ▸ h.calls⟩
  · rename_i e m' hrun
    rw [hrun]
    show Filed plan.table plan.sheets m'.image
    exact honward ▸ h.filed

/-- The machine returns, or the handler is done. -/
theorem step_exit (h : Sited plan.table plan.sheets m) {i : Instr} {held : Bool}
    (hstands : i.Stands held m.image m.pc) (hi : i = .ret ∨ i = .stop) :
    Sited.Next plan.table plan.sheets ((Machine.step node).run m) := by
  rcases hi with rfl | rfl
  · rw [hstands.step_ret]
    cases hcalls : m.calls with
    | nil => exact h.filed
    | cons caller rest =>
      have hpoints := hcalls ▸ h.calls
      rw [List.forall_mem_cons] at hpoints
      exact ⟨h.filed, hpoints.1, hpoints.2⟩
  · rw [hstands.step_stop]
    exact h.filed

/-- A step from one item of a draft to another. -/
theorem step (h : Sited plan.table plan.sheets m) :
    Sited.Next plan.table plan.sheets ((Machine.step node).run m) := by
  obtain ⟨x, hx, p, hpc, hp⟩ := h.pc
  have hcoder := plan.coders x hx
  have hexit : x.coder.exit = .ret ∨ x.coder.exit = .stop := by
    rw [hcoder, Routine.coder_exit]
    exact x.routine.kind.entry.ending_cases
  by_cases hend : p = Code.size x.draft.code
  · obtain ⟨held, hstands⟩ := h.filed.lies x hx _ _ x.has_exit
    rw [hend] at hpc
    exact plan.step_exit h (hpc ▸ hstands) hexit
  obtain ⟨item, hitem, hsize⟩ := hp.next.resolve_right hend
  let G : Ground := ⟨fun _ _ => True, fun _ => False, fun _ => True⟩
  obtain ⟨D, -, -, hD⟩ := plan.sound G (fun _ _ _ _ => trivial) (fun _ => trivial) x hx
  have hgraded : item.Graded G 0 (Code.Lands D nowhere x.draft.code) D p := by
    obtain ⟨pre, post, hcode, rfl⟩ := hitem
    exact hD pre item post hcode
  have hlands {t : Int} {n : Nat} (ht : Code.Lands D nowhere x.draft.code t n) :
      ∃ q : Nat, t = q ∧ Boundary x.draft.code q := by
    rcases ht with ⟨q, hq, hb, -⟩ | ht
    · exact ⟨q, hq, hb⟩
    · exact ht.elim
  have hbehind : Point plan.sheets (m.pc + item.size) :=
    ⟨x, hx, p + item.size, by omega, hitem.boundary_behind⟩
  have hlies := h.filed.lies x hx p item (Sheet.has_of_draft hitem)
  rw [Item.Lies.eq_def] at hlies
  cases item with
  | label name => cases hsize
  | mark span => cases hsize
  | exit kind depth => exact absurd hgraded.2 (Nat.not_lt_zero _)
  | call name span =>
    obtain ⟨y, hy, -, hstands⟩ := hlies
    rw [← hpc] at hstands
    rw [hstands.step_callSub]
    split
    · exact h.filed
    · refine ⟨h.filed, ⟨y, hy, 0, ?_, Code.boundary_zero _⟩, ?_⟩
      · have := plan.base_lt hy
        show (UInt16.ofNat y.base).toNat % 4096 = y.base + 0
        rw [UInt16.toNat_ofNat']
        omega
      · exact List.forall_mem_cons.mpr ⟨hbehind, h.calls⟩
  | goto name span =>
    obtain ⟨q, i, hq, hi, hstands⟩ := hlies
    rw [← hpc] at hstands
    obtain ⟨o, rfl, ho, hlo, hhi⟩ := jumpBy?_eq_some hi
    rw [Sheet.code, Code.labelAddress?_append_plain] at hq
    obtain ⟨pre, post, hcode, hq⟩ := Code.labelAddress?_eq_some hq
    rw [hstands.step_jump (by omega) (by omega) (q := x.base + q) (by push_cast; omega)]
    exact ⟨h.filed, ⟨x, hx, q, rfl, ⟨pre, _, hcode, by omega⟩⟩, h.calls⟩
  | instr i =>
    obtain ⟨held, hstands⟩ := hlies
    rw [← hpc] at hstands
    have hgraded : i.Graded G (Code.Lands D nowhere x.draft.code) D p := hgraded
    cases i with
    | stop => exact plan.step_exit h hstands (.inr rfl)
    | ret => exact plan.step_exit h hstands (.inl rfl)
    | callSub a => exact hgraded.1.elim
    | jump o =>
      obtain ⟨hlo, hhi, hland⟩ := hgraded
      obtain ⟨q, hq, hb⟩ := hlands hland
      rw [hstands.step_jump hlo hhi (q := x.base + q) (by push_cast; omega)]
      exact ⟨h.filed, ⟨x, hx, q, rfl, hb⟩, h.calls⟩
    | branch op edge o =>
      obtain ⟨-, -, hland⟩ := hgraded
      obtain ⟨q, hq, hb⟩ := hlands hland
      have hstep := @Instr.Stands.step_branch node m held op edge o (x.base + q) hstands (by push_cast; omega)
      split at hstep
      · rename_i more m' hrun
        obtain ⟨rfl, _, _, rest, pc, words, -, rfl, hpc', hwords⟩ := hstep
        rw [hrun]
        refine ⟨?_, ?_, h.calls⟩
        · rcases hwords with ⟨-, rfl⟩ | ⟨rfl, held', rfl⟩
          · exact h.filed
          · exact hpc ▸ plan.mark h.filed hx (Sheet.has_of_draft hitem) held'
        · rcases hpc' with rfl | rfl
          · exact hbehind
          · exact ⟨x, hx, q, rfl, hb⟩
      · rename_i e m' hrun
        rw [hrun]
        show Filed plan.table plan.sheets m'.image
        exact hstep ▸ h.filed
    | _ => exact plan.step_onward h hstands rfl hbehind

/-! ### Handlers -/

/-- A handler starts at a draft. -/
theorem enter {s : State} (h : Filed plan.table plan.sheets s.image) {id : Word} {start : Nat}
    (hid : s.handler? id = some start) :
    Sited plan.table plan.sheets { s with pc := start, stack := [], calls := [] } := by
  have hloaded : Machine.Loaded plan.table [] s.image := by
    refine ⟨h.front, ?_⟩
    rintro p i ⟨pre, post, hnil, -⟩
    simp at hnil
  have hsize : plan.size < 65536 := by
    have hlength := plan.length
    rw [Image.header_length] at hlength
    cases hhandlers : plan.handlers with
    | nil =>
      rw [hhandlers] at hlength
      exact hlength ▸ by decide
    | cons handler _ =>
      obtain ⟨x, hx, -⟩ := plan.starts handler (by simp [hhandlers])
      exact Nat.lt_of_le_of_lt (plan.behind x hx) (Nat.lt_trans (plan.base_lt hx) (by decide))
  obtain ⟨handler, hmem, rfl⟩ := hloaded.handler? plan.length hsize hid
  obtain ⟨x, hx, hbase, -⟩ := plan.starts handler hmem
  refine ⟨h, ⟨x, hx, 0, ?_, Code.boundary_zero _⟩, nofun⟩
  have := plan.base_lt hx
  show (UInt16.ofNat handler.2).toNat = x.base + 0
  rw [UInt16.toNat_ofNat', hbase]
  omega

theorem finish_runSteps (limit : Nat) : ∀ (left : Nat) {m : State}, Sited plan.table plan.sheets m →
    Filed plan.table plan.sheets ((Machine.runSteps node limit left).finish m).image
  | left, m, h => by
    have hnext := plan.step h
    unfold Machine.Exec.finish
    cases hstep : (Machine.step node).run m with
    | error e m' =>
      rw [hstep] at hnext
      cases left <;> rw [Machine.runSteps, EStateM.run_bind, hstep] <;> exact hnext
    | ok more m' =>
      rw [hstep] at hnext
      cases more with
      | false => cases left <;> rw [Machine.runSteps, EStateM.run_bind, hstep] <;> exact hnext
      | true =>
        cases left with
        | zero =>
          rw [Machine.runSteps, EStateM.run_bind, hstep]
          exact hnext.filed
        | succ left =>
          rw [Machine.runSteps, EStateM.run_bind, hstep]
          exact finish_runSteps limit left hnext

theorem finish_runEvent {s : State} (h : Filed plan.table plan.sheets s.image) (id : Word) (limit : Nat) :
    Filed plan.table plan.sheets ((Machine.runEvent node id limit).finish s).image := by
  unfold Machine.Exec.finish Machine.runEvent
  rw [EStateM.run_bind, EStateM.run_get]
  dsimp only
  cases hid : s.handler? id with
  | none => exact h
  | some start =>
    have hrun := plan.finish_runSteps limit limit (plan.enter h hid)
    unfold Machine.Exec.finish at hrun
    dsimp only
    rw [EStateM.run_bind, EStateM.run_set]
    dsimp only
    rw [EStateM.run_bind]
    split at hrun <;> rename_i hsteps <;> rw [hsteps] <;> exact hrun

theorem after {s : State} (h : Filed plan.table plan.sheets s.image) (action : Action) :
    Filed plan.table plan.sheets (s.after node action).image := by
  have hafter : s.after node action = (action.perform node).finish s := by
    unfold State.after Machine.Exec.finish
    cases (action.perform node).run s <;> rfl
  rw [hafter]
  cases action with
  | init limit => exact plan.finish_runEvent h Node.initEventId limit
  | event id limit => exact plan.finish_runEvent h id limit
  | write addr value => exact h

/-- Wherever a run comes to, the machine stands at an item of a draft. -/
theorem sited (h : Visits node image m) : Sited plan.table plan.sheets m := by
  obtain ⟨history, id, start, s, hs, hid, hsteps⟩ := h
  have hfiled : Filed plan.table plan.sheets s.image := by
    subst hs
    clear hid hsteps
    suffices hall : ∀ s : State, Filed plan.table plan.sheets s.image →
        Filed plan.table plan.sheets (history.foldl (State.after node) s).image from hall _ plan.filed
    induction history with
    | nil => exact fun _ h => h
    | cons action history ih => exact fun s h => ih _ (plan.after h action)
  have hsited := plan.enter hfiled hid
  generalize { s with pc := start, stack := [], calls := [] } = m0 at hsited hsteps
  induction hsteps with
  | refl => exact hsited
  | head hstep _ ih =>
    have hnext := plan.step hsited
    rw [hstep] at hnext
    exact ih hnext

end Plan

end RobotScript
