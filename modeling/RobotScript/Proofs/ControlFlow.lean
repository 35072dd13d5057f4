/-
# Following structured statements

A machine that holds the code generated for structured statements, and stands
at its start, follows them: it comes to the leaves, conditions and steps in the
order that the statements give them, for every outcome of the conditions and
every value of the subjects.

Key theorems: `Placed.follows`, `structured_code_followed`.
-/
import RobotScript.Proofs.ExprCode
import RobotScript.Proofs.Moving
import RobotScript.Proofs.Stepping

namespace RobotScript

open Machine (Instr Binary State Exec)
open Code (plain size)
open Coding (Gives)

variable {node : Node} {c : Coder} {W : Code} {base p q : Nat} {m : State} {v : Cell}
  {rest : List Cell}

/-! ### Steps of the machine -/

theorem Reaches.steps (h : Reaches node m p) : Steps node m { m with pc := p } := by
  induction h with
  | here => exact .refl _
  | head hstep _ ih => exact .head hstep ih

theorem Machine.Exec.run_push (h : m.stack.length < Machine.stackSize) :
    (Exec.push v).run m = .ok () { m with stack := v :: m.stack } := by
  rw [Exec.push, EStateM.run_bind, EStateM.run_get]
  simp only [if_neg (Nat.not_le.mpr h)]
  rfl

/-- A branch goes on behind itself if its comparison holds, else to its target. -/
theorem Machine.Instr.Stands.step_compare {op : Binary} {held : Bool} {o x y : Cell}
    (h : (Instr.branch op false o).Stands held m.image m.pc) (hstack : m.stack = y :: x :: rest)
    (hv : op.evalCell x y = some v) (hq : (m.pc : Int) + o.toInt = q) :
    (Machine.step node).run m = .ok true { m with stack := rest, pc := if v = 0 then q else m.pc + 2 } := by
  have hpop : (Exec.popBinary op).run m = .ok v { m with stack := rest } := by
    simp only [Exec.popBinary, EStateM.run_bind, Exec.run_pop, hstack, EStateM.run_get, hv,
      EStateM.run_pure]
  rw [h.step node, Instr.run]
  simp only [EStateM.run_bind, hpop, EStateM.run_get, Bool.false_and, Bool.or_false,
    Bool.false_eq_true, if_false]
  by_cases h0 : v = 0
  · have htarget : (({ m with stack := rest } : State).pc : Int) + o.toInt = q := hq
    rw [if_pos (by simp [h0]), if_pos h0, EStateM.run_bind, Exec.run_jumpBy htarget]
    rfl
  · rw [if_neg (by simp [h0]), if_neg h0]
    rfl

theorem Machine.Binary.evalCell_ne (a b : Cell) : Binary.ne.evalCell a b = some (if a = b then 0 else 1) := by
  have htruth : Binary.ne.evalCell a b = some (toCell (Binary.truth (a.toInt32 != b.toInt32))) := rfl
  by_cases h : a = b
  · rw [htruth, if_pos h, h, bne_self_eq_false]
    rfl
  · have hne : (a.toInt32 != b.toInt32) = true := by
      refine bne_iff_ne.mpr fun h' => h (Int16.toInt_inj.mp ?_)
      rw [← Int16.toInt_toInt32, h', Int16.toInt_toInt32]
    rw [htruth, if_neg h, hne]
    rfl

theorem Machine.Binary.exists_evalCell {op : Binary} (h : op.isComparison = true) (a b : Cell) :
    ∃ v, op.evalCell a b = some v := by
  cases op with
  | eq | ne | gt | ge | lt | le => exact ⟨_, rfl⟩
  | _ => cases h

section

variable {n u : Cell} {a : Word} (hW : W.Stands m.image base)

include hW

/-- The machine executes the instruction of the code at the program counter. -/
theorem Code.Stands.step {i : Instr} (hat : W.At p i) (hpc : m.pc = base + p) :
    ∃ held, (Machine.step node).run m = (i.run node held).run m := by
  obtain ⟨pre, post, rfl, rfl⟩ := hat
  obtain ⟨held, hi⟩ := hW pre (.instr i) post rfl
  rw [← hpc] at hi
  exact ⟨held, hi.step node⟩

theorem Code.Jumps.step (h : W.Jumps p q) (hpc : m.pc = base + p) :
    (Machine.step node).run m = .ok true { m with pc := base + q } := by
  obtain ⟨d, i, hi, hat, hd⟩ := h
  obtain ⟨o, rfl, rfl, hlo, hhi⟩ := jumpBy?_eq_some hi
  obtain ⟨held, hstep⟩ := hW.step hat hpc
  have htarget : (m.pc : Int) + o.toInt = (base + q : Nat) := by omega
  rw [hstep, Instr.run, Machine.signed12_word _ hlo hhi, EStateM.run_bind, Exec.run_jumpBy htarget]
  rfl

theorem Code.Branches.step {op : Binary} {x y : Cell} (h : W.Branches op p q)
    (hpc : m.pc = base + p) (hstack : m.stack = y :: x :: rest) (hv : op.evalCell x y = some v) :
    (Machine.step node).run m =
      .ok true { m with stack := rest, pc := base + if v = 0 then q else p + 2 } := by
  obtain ⟨d, i, hi, ⟨pre, post, rfl, rfl⟩, hd⟩ := h
  obtain ⟨o, rfl, rfl⟩ := branchBy?_eq_some hi
  obtain ⟨held, hstands⟩ := hW pre _ post rfl
  rw [← hpc] at hstands
  have hq : (m.pc : Int) + o.toInt = (base + q : Nat) := by omega
  rw [hstands.step_compare hstack hv hq, hpc]
  by_cases h0 : v = 0
  · rw [if_pos h0, if_pos h0]
  · rw [if_neg h0, if_neg h0, Nat.add_assoc]

/-- Jumps change nothing but the program counter. -/
theorem Code.Leads.reaches (h : W.Leads p q) (hpc : m.pc = base + p) : Reaches node m (base + q) := by
  induction h generalizing m with
  | refl p =>
    rw [← hpc]
    exact .here m
  | jump hj _ ih => exact .head (hj.step hW hpc) (ih hW rfl)

theorem Code.Stands.step_load (hat : W.At p (.load a)) (hpc : m.pc = base + p)
    (hmem : m.memory[a.toNat % 4096]? = some v) (hroom : m.stack.length < Machine.stackSize) :
    (Machine.step node).run m = .ok true { m with stack := v :: m.stack, pc := base + p + 1 } := by
  obtain ⟨held, hstep⟩ := hW.step hat hpc
  have hread : (Exec.read (a.toNat % 4096)).run m = .ok v m := by
    simp only [Exec.read, EStateM.run_bind, EStateM.run_get, hmem, EStateM.run_pure]
  rw [hstep, Instr.run]
  simp only [EStateM.run_bind, hread, Exec.run_push hroom]
  rw [← hpc]
  rfl

theorem Code.Stands.step_immediate (hat : W.At p (.immediate n))
    (hpc : m.pc = base + p) (hroom : m.stack.length < Machine.stackSize) :
    (Machine.step node).run m =
      .ok true { m with stack := n :: m.stack, pc := base + p + (Instr.immediate n).length } := by
  obtain ⟨held, hstep⟩ := hW.step hat hpc
  rw [hstep]
  unfold Instr.immediate
  split
  · rename_i hn
    have hlo : -2048 ≤ n.toInt := Int16.le_iff_toInt_le.mp hn.1
    have hhi : n.toInt < 2048 := Int16.lt_iff_toInt_lt.mp hn.2
    rw [Instr.run, Machine.signed12_word _ hlo hhi, Int16.ofInt_toInt]
    simp only [EStateM.run_bind, Exec.run_push hroom]
    rw [← hpc]
    rfl
  · rw [Instr.run]
    simp only [EStateM.run_bind, Exec.run_push hroom]
    rw [← hpc]
    rfl

theorem Code.Stands.step_store (hat : W.At p (.store a))
    (hpc : m.pc = base + p) (hstack : m.stack = v :: rest) (hmem : a.toNat % 4096 < m.memory.size) :
    (Machine.step node).run m =
      .ok true { m.setWord (a.toNat % 4096) v with stack := rest, pc := base + p + 1 } := by
  obtain ⟨held, hstep⟩ := hW.step hat hpc
  rw [hstep, Instr.run]
  simp only [EStateM.run_bind, Exec.run_pop, hstack, Exec.write, EStateM.run_get]
  rw [if_pos hmem, ← hpc]
  rfl

/-- The machine adds the two topmost words. -/
theorem Code.Stands.step_add (hat : W.At p (.binary .add))
    (hpc : m.pc = base + p) (hstack : m.stack = v :: u :: rest) (hroom : rest.length < Machine.stackSize) :
    (Machine.step node).run m = .ok true { m with stack := (u + v) :: rest, pc := base + p + 1 } := by
  obtain ⟨pre, post, rfl, rfl⟩ := hat
  obtain ⟨held, hstands⟩ := hW pre _ post rfl
  rw [← hpc] at hstands
  rw [hstands.step_binary hstack, Machine.Binary.evalCell_add]
  dsimp only
  rw [if_neg (Nat.not_le.mpr hroom), hpc]

/-- The value in the return slot is compared with a number. -/
theorem Code.Branches.pick (hb : W.Branches .ne (p + 1 + (Instr.immediate n).length) q)
    (hl : W.At p (.load c.returnSlot)) (hn : W.At (p + 1) (.immediate n)) (hpc : m.pc = base + p)
    (hmem : m.memory[c.slot]? = some v) (hroom : m.stack.length + 2 ≤ Machine.stackSize) :
    Steps node m
      { m with pc := base + if v = n then q else p + 1 + (Instr.immediate n).length + 2 } := by
  refine .head (hW.step_load hl hpc hmem (by omega)) ?_
  refine .head (Code.Stands.step_immediate hW hn (Nat.add_assoc ..) ?_) ?_
  · simp only [List.length_cons]
    omega
  · refine .head (hb.step hW ?_ rfl (Binary.evalCell_ne v n)) ?_
    · simp only [Nat.add_assoc]
    · split <;> exact .refl _

theorem Picks.steps (h : Picks c W v p q) (hpc : m.pc = base + p) (hmem : m.memory[c.slot]? = some v)
    (hroom : m.stack.length + 2 ≤ Machine.stackSize) : Steps node m { m with pc := base + q } := by
  induction h generalizing m with
  | rest h => exact (h.reaches hW hpc).steps
  | hit hl hn hb =>
    have hpick : Steps node m _ := hb.pick hW hl hn hpc hmem hroom
    rwa [if_pos rfl] at hpick
  | miss hne hl hn hb _ ih =>
    have hpick : Steps node m _ := hb.pick hW hl hn hpc hmem hroom
    rw [if_neg hne] at hpick
    exact hpick.trans (ih hW rfl hmem hroom)

end

/-! ### Following -/

/-- The machine comes to code that lies where jumps lead, and then to its end. -/
theorem Occurs.runs {k : Code} {P : State → Prop} (hk : Occurs W [] q k) (hlead : W.Leads p q)
    (hW : W.Stands m.image base) (hpc : m.pc = base + p)
    (hP : ∀ m', W.Stands m'.image base → m'.pc = base + (q + size k) → P m') : Runs node base W k P m := by
  refine ⟨base + q, hlead.reaches hW hpc, hk.stands hW, fun m' hm => ?_⟩
  exact hP m' hm.code (by rw [hm.pc, Nat.add_assoc])

/-- Where control is placed the machine follows it. -/
theorem Placed.follows (n : Nat) {K : Control} {ts : List Target} (h : Placed c W K ts p)
    (hW : W.Stands m.image base) (hpc : m.pc = base + p) : Follows node c base W n K m := by
  induction n generalizing K ts p m with
  | zero => trivial
  | succ n ih =>
    have hnext := h.next
    unfold Follows
    cases hmove : K.next with
    | silent K' =>
      rw [hmove] at hnext
      obtain ⟨ts', hK⟩ := hnext
      exact ⟨Control.weight_silent hmove, ih hK hW hpc⟩
    | turn K' =>
      rw [hmove] at hnext
      obtain ⟨ts', q, hj, hK⟩ := hnext
      exact ⟨base + q, hj.step hW hpc, ih hK hW rfl⟩
    | perform piece K' =>
      rw [hmove] at hnext
      obtain ⟨ts', q, k, hlead, hcoded, hk, hK⟩ := hnext
      exact ⟨k, hcoded, hk.runs hlead hW hpc fun m' hW' hpc' => ih hK hW' hpc'⟩
    | test e K' =>
      rw [hmove] at hnext
      obtain ⟨ts', ts'', q, r, stop, hlead, htest, htrue, hfalse⟩ := hnext
      cases htest with
      | @some _ k _ _ hg hk hb =>
        refine ⟨k, hg, hk.runs hlead hW hpc fun m' hW' hpc' x y rest hstack => ?_⟩
        obtain ⟨v, hv⟩ := Binary.exists_evalCell e.isComparison_testOp x y
        refine ⟨_, hb.step hW' hpc' hstack hv, ?_⟩
        rw [hv]
        by_cases h0 : v = 0
        · have hfails : (some v != some 0) = false := by simp [h0]
          rw [hfails, if_pos h0]
          exact ih hfalse hW' rfl
        · have hholds : (some v != some 0) = true := by simp [h0]
          rw [hholds, if_neg h0]
          exact ih htrue hW' rfl
    | choose e K' =>
      rw [hmove] at hnext
      obtain ⟨q, k, hlead, hg, hk, hstore, hpick⟩ := hnext
      refine ⟨k, hg, hk.runs hlead hW hpc fun m' hW' hpc' v rest hstack hroom hmem => ?_⟩
      obtain ⟨ts', r, hpick, hK⟩ := hpick v
      refine ⟨base + r, .head (hW'.step_store hstore hpc' hstack hmem) ?_, ih hK hW' rfl⟩
      exact hpick.steps hW' (Nat.add_assoc ..) (Array.getElem?_setIfInBounds_self_of_lt hmem) hroom
    | done =>
      rw [hmove] at hnext
      exact Code.Leads.reaches hW hnext hpc
    | returned =>
      rw [hmove] at hnext
      obtain ⟨q, hlead, pre, post, hsplit, rfl⟩ := hnext
      obtain ⟨held, hexit⟩ := hW pre _ post hsplit
      exact ⟨_, held, hlead.reaches hW hpc, hexit⟩
    | astray =>
      rw [hmove] at hnext
      exact hnext

/-- The words of code hold it. -/
theorem Code.stands_words (W : Code) : W.Stands W.words.toArray 0 := by
  intro pre item post hW
  have hitem (i : Instr) (hi : words [item] = i.encode) :
      i.Stands false W.words.toArray (0 + size pre) := by
    have hwords : words W = words pre ++ i.encode ++ words post := by
      rw [hW, ← hi, List.append_assoc, ← words_append, ← words_append, List.singleton_append]
    rw [hwords, Nat.zero_add, ← length_words pre]
    exact .of_words _ _ i
  cases item with
  | instr i => exact ⟨false, hitem i (List.append_nil _)⟩
  | call name span => exact ⟨0, hitem _ rfl⟩
  | goto name span => exact ⟨0, hitem _ rfl⟩
  | _ => trivial

/-- A machine that holds the code generated for structured statements and stands
at its start does what they say for any number of moves: it comes to their
leaves, conditions, steps and subjects in the order of `Control.next` and runs
nothing else, for every outcome of the conditions, until it comes to the end of
the code or to the instruction that ends the routine. -/
theorem structured_code_followed (node : Node) {c : Coder} {ss : List Stmt} {W : Code}
    (hss : Stmt.allStructured ss = true) (hcode : (Stmt.blockCode c [] ss).Gives W) {base : Nat}
    {m : State} (hstands : W.Stands m.image base) (hpc : m.pc = base) (n : Nat) :
    Follows node c base W n [.block ss] m := by
  have hend : Placed c W [] [] (0 + size W) := by
    rw [Nat.zero_add]
    exact .done
  exact (Placed.block (.of_block hss hcode (.self W)) hend).follows n hstands hpc

/-- A labelled `continue` and a `break` in a switch in a `for`. -/
theorem structured_code_followed_switch :
    ∃ (node : Node) (c : Coder) (ss : List Stmt) (W : Code) (m : State),
      Stmt.allStructured ss = true ∧ (Stmt.blockCode c [] ss).Gives W ∧
      W.words = [53248, 12288, 4096, 40971, 14, 12288, 16390, 12294, 4097, 40971, 3, 36866, 36868,
        53248, 36865, 53248, 40945] ∧ W.Stands m.image 0 ∧ m.pc = 0 ∧
      ∀ n, Follows node c 0 W n [.block ss] m := by
  let node : Node := ⟨"", 8, [], [], []⟩
  let c : Coder := ⟨node, ⟨.l2, 1, []⟩, 1, none, .stop⟩
  let x : Expr := .var default ⟨"x", some ⟨0, [], .int, .absolute⟩⟩
  let outer : Option String := some "outer"
  let ss : List Stmt := [.label default "outer",
    .forLoop default outer [.callSub default "first"] (some x) none [
      .switch default none x [.case default (.number default 1), .exit default .again outer,
        .default default, .callSub default "other", .exit default .leave none],
      .callSub default "last"]]
  have hwords : ((Stmt.blockCode c [] ss) ⟨8, default⟩).toOption.map (·.1.words) =
      some [53248, 12288, 4096, 40971, 14, 12288, 16390, 12294, 4097, 40971, 3, 36866, 36868,
        53248, 36865, 53248, 40945] := by
    decide +kernel
  obtain ⟨⟨W, s'⟩, hok, hwords⟩ := Option.map_eq_some_iff.mp hwords
  have hcode : (Stmt.blockCode c [] ss).Gives W := ⟨_, s', eq_ok_of_toOption hok⟩
  have hss : Stmt.allStructured ss = true := by decide +kernel
  exact ⟨node, c, ss, W, .start node W.words, hss, hcode, hwords, W.stands_words, rfl,
    structured_code_followed node hss hcode W.stands_words rfl⟩

end RobotScript
