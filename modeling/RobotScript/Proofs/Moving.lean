/-
# Moves of structured statements

What comes next in a control lies in the code where the control is placed: the
code generated for a loop, a switch or the arms of an `if` leads to the pieces
it is made of, and back from them to where control goes on.

Key definitions: `Switched`.
Key theorems: `LoopLaid.of_step`, `Switched.picks`, `Placed.next`.
-/
import RobotScript.Proofs.Placing

namespace RobotScript

open Machine (Instr Binary)
open Code (plain size)
open Coding (Gives)

variable {c : Coder} {W : Code} {ts : List Target} {K : Control} {p q : Nat}

/-! ### Statements -/

theorem Laid.of_block {flows : List Flow} : ∀ {ss : List Stmt} {k : Code} {p : Nat},
    Stmt.allStructured ss = true → (Stmt.blockCode c flows ss).Gives k → Occurs W ts p k →
    Laid c W flows ts ss p (p + size k)
  | [], k, p, _, hg, _ => by
    unfold Stmt.blockCode at hg
    obtain rfl := hg.pure
    exact .nil
  | s :: ss, k, p, hss, hg, ho => by
    unfold Stmt.blockCode at hg
    obtain ⟨first, hfirst, hg⟩ := hg.bind
    obtain ⟨rest, hrest, hg⟩ := hg.bind
    obtain rfl := hg.pure
    rw [Stmt.allStructured_cons] at hss
    refine .cons hss.1 hfirst ho.left ?_
    rw [Code.size_append, ← Nat.add_assoc]
    exact Laid.of_block hss.2 hrest ho.right

/-- The code of a test, if there is one. -/
inductive TestCode (c : Coder) : Option Expr → Code → Prop
  | none : TestCode c none []
  | some {e : Expr} {k : Code} (hg : (e.code c .test).Gives k) : TestCode c (some e) k

theorem Tested.of_code {cond : Option Expr} {test br : Code} {distance stop : Nat} (ht : TestCode c cond test)
    (hbr : (Coder.testBranch (cond.map (·.testOp)) distance).Gives br) (ho : Occurs W ts p (test ++ br))
    (hstop : size br = 2 → p + size test + distance = stop) :
    Tested c W cond p stop (p + size (test ++ br)) := by
  cases ht with
  | none =>
    obtain rfl := hbr.pure
    exact .none
  | @some e k hg =>
    obtain ⟨i, hi, hbr⟩ := Gives.bind hbr
    obtain rfl := hbr.pure
    have hstop := hstop (Code.size_branch hi.inReach)
    rw [Code.size_append, Code.size_branch hi.inReach, ← Nat.add_assoc]
    exact .some hg ho.left.bare ⟨_, i, hi.inReach, ho.right.instr, by omega⟩

section Loops

variable {flows : List Flow} {label : Option String} {cond step : Option Expr} {body : List Stmt}
  {test kb ks k : Code} (hbody : Stmt.allStructured body = true)
  (hb : (Stmt.blockCode c (⟨label, false⟩ :: flows) body).Gives kb)

include hbody hb

/-- A loop that goes on at its test. -/
theorem LoopLaid.of_while (ht : TestCode c cond test)
    (hg : (Coder.whileLoop test (cond.map (·.testOp)) kb).Gives k) (ho : Occurs W ts p k) :
    LoopLaid c W flows ts label cond none body ⟨p, p + size k⟩ p := by
  obtain ⟨br, hbr, hg⟩ := Gives.bind hg
  obtain ⟨hsize, ho, hback⟩ := ho.loop hg
  refine .intro (Tested.of_code ht hbr ho.left fun hbr => ?_) (Laid.of_block hbody hb ho.right) .none ?_
    (.inr ⟨rfl, rfl⟩)
  -- the branch goes behind the jump back
  · simp only [hsize, Code.size_append]
    omega
  · rwa [Code.size_append, ← Nat.add_assoc] at hback

/-- A loop that goes on at its step. -/
theorem LoopLaid.of_step (ht : TestCode c cond test)
    (hs : ∀ q, Occurs W [] q ks → Stepped c W step q (q + size ks))
    (hg : (Coder.stepLoop test (cond.map (·.testOp)) kb ks).Gives k) (ho : Occurs W ts p k) :
    ∃ next, LoopLaid c W flows ts label cond step body ⟨next, p + size k⟩ p := by
  obtain ⟨br, hbr, hg⟩ := Gives.bind hg
  obtain ⟨hsize, ho, hback⟩ := ho.loop hg
  refine ⟨_, .intro (Tested.of_code ht hbr ho.left.left fun hbr => ?_) (Laid.of_block hbody hb ho.left.right)
    (hs _ (ho.right_at ?_).bare) ?_ (.inl ?_)⟩
  -- the branch goes behind the jump back; a jump that goes on finds the step
  · simp only [hsize, Code.size_append]
    omega
  · simp only [Code.size_append, Nat.add_assoc]
  · simpa only [Code.size_append, Nat.add_assoc] using hback
  · simp only [Code.size_append, Nat.add_assoc]

/-- A loop that goes on at the test behind its body. -/
theorem DoLaid.of_code {cond : Expr} (ht : (cond.code c .test).Gives test)
    (hg : (Coder.doWhile kb test cond.testOp).Gives k) (ho : Occurs W ts p k) :
    DoLaid c W flows ts label body cond ⟨p + size kb, p + size k⟩ p := by
  obtain ⟨hsize, ho, hback⟩ := ho.loop hg
  have hbr : branchBy? cond.testOp false 3 = some (.branch cond.testOp false 3) := rfl
  refine .intro (Laid.of_block hbody hb ho.left.left)
    (.some ht ho.left.right.bare ⟨3, _, hbr, (ho.right_at ?_).instr, ?_⟩) ?_
  · simp only [Code.size_append, Nat.add_assoc]
  · simp only [hsize, Code.size_append, Code.size_branch hbr]
    omega
  · simpa only [Code.size_append, Code.size_branch hbr, Nat.add_assoc] using hback

end Loops

/-! ### Switches -/

/-- The size of the tests of a switch with their branches. -/
def testsSize (tests : List Code) : Nat := tests.foldr (fun t n => size t + 2 + n) 0

/-- The tests of a switch and their branches, its body from an address on, and
the address of its last `default`. -/
inductive Switched (c : Coder) (flows : List Flow) :
    List Stmt → Nat → List Code → List Instr → Code → Option Nat → Prop
  | nil {here : Nat} : Switched c flows [] here [] [] [] none
  | case {span : Span} {value : Expr} {ss : List Stmt} {here : Nat} {test code : Code}
    {tests : List Code} {i : Instr} {brs : List Instr} {start : Option Nat}
    (hg : (value.code c .value).Gives test)
    (hi : branchBy? .ne false ((2 + testsSize tests + 1 : Nat) + here) = some i)
    (hrest : Switched c flows ss here tests brs code start) :
    Switched c flows (.case span value :: ss) here ((plain [.load c.returnSlot] ++ test) :: tests)
      (i :: brs) code start
  | default {span : Span} {ss : List Stmt} {here : Nat} {code : Code}
    {tests : List Code} {brs : List Instr} {start : Option Nat}
    (hrest : Switched c flows ss here tests brs code start) :
    Switched c flows (.default span :: ss) here tests brs code (some (start.getD here))
  | other {s : Stmt} {ss : List Stmt} {here : Nat} {first code : Code}
    {tests : List Code} {brs : List Instr} {start : Option Nat}
    (hcase : ∀ span value, s ≠ .case span value) (hdefault : ∀ span, s ≠ .default span)
    (hg : (s.code c flows).Gives first)
    (hrest : Switched c flows ss (here + size first) tests brs code start) :
    Switched c flows (s :: ss) here tests brs (first ++ code) start

theorem Switched.of_code {flows : List Flow} : ∀ {ss : List Stmt} {here : Nat} {tests : List Code}
    {code : Code} {brs : List Instr} {start : Option Nat}, (c.switchTests ss).Gives tests →
    (Stmt.switchCode c flows (Coder.testGaps tests) here ss).Gives (code, brs, start) →
    Switched c flows ss here tests brs code start
  | [], here, tests, code, brs, start, ht, hg => by
    unfold Stmt.switchCode at hg
    cases ht.pure
    cases hg.pure
    exact .nil
  | s :: ss, here, tests, code, brs, start, ht, hg => by
    unfold Stmt.switchCode at hg
    unfold Coder.switchTests at ht
    cases s with
    | case span value =>
      obtain ⟨test, htest, ht⟩ := ht.bind
      obtain ⟨tests, htests, ht⟩ := ht.bind
      cases ht.pure
      obtain ⟨i, hi, hg⟩ := Gives.bind hg
      obtain ⟨⟨code, brs, start⟩, hrest, hg⟩ := hg.bind
      cases hg.pure
      exact .case htest hi.inReach (.of_code htests hrest)
    | default span =>
      obtain ⟨⟨code, brs, start⟩, hrest, hg⟩ := Gives.bind hg
      cases hg.pure
      exact .default (.of_code ht hrest)
    | _ =>
      obtain ⟨first, hfirst, hg⟩ := Gives.bind hg
      obtain ⟨⟨code, brs, start⟩, hrest, hg⟩ := hg.bind
      cases hg.pure
      exact .other nofun nofun hfirst (.of_code ht hrest)

namespace Switched

variable {flows : List Flow} {ss : List Stmt} {here : Nat} {tests : List Code} {brs : List Instr}
  {code : Code} {start : Option Nat}

theorem size_tests (h : Switched c flows ss here tests brs code start) :
    size (Coder.joinTests tests brs) = testsSize tests := by
  induction h with
  | nil => rfl
  | case _ hi _ ih =>
    simp only [Coder.joinTests, Code.size_append, Code.size_branch hi, ih, testsSize, List.foldr_cons]
  | default _ ih => exact ih
  | other _ _ _ _ ih => exact ih

/-- The body of a switch, which begins at the address `base`. -/
theorem laid {base : Nat} (h : Switched c flows ss here tests brs code start)
    (hss : Stmt.allStructured ss = true) (ho : Occurs W ts (base + here) code) :
    Laid c W flows ts ss (base + here) (base + here + size code) := by
  induction h with
  | nil => exact .nil
  | case _ _ _ ih =>
    rw [Stmt.allStructured_cons] at hss
    exact .case (ih hss.2 ho)
  | default _ ih =>
    rw [Stmt.allStructured_cons] at hss
    exact .default (ih hss.2 ho)
  | other _ _ hg _ ih =>
    rw [Stmt.allStructured_cons] at hss
    have ih := ih hss.2 (Nat.add_assoc .. ▸ ho.right)
    rw [← Nat.add_assoc] at ih
    rw [Code.size_append, ← Nat.add_assoc]
    exact .cons hss.1 hg ho.left ih

/-- The last `default` of a switch. -/
theorem laid_default {base : Nat} (h : Switched c flows ss here tests brs code start)
    (hss : Stmt.allStructured ss = true) (ho : Occurs W ts (base + here) code) :
    match Stmt.behindDefault? ss with
    | some ss' => ∃ q, start = some q ∧ Laid c W flows ts ss' (base + q) (base + here + size code)
    | none => start = none := by
  induction h with
  | nil => rfl
  | case _ _ _ ih =>
    rw [Stmt.allStructured_cons] at hss
    exact ih hss.2 ho
  | @default span ss here code tests brs start hrest ih =>
    rw [Stmt.allStructured_cons] at hss
    have ih := ih hss.2 ho
    unfold Stmt.behindDefault?
    cases hd : Stmt.behindDefault? ss with
    | none =>
      rw [hd] at ih
      obtain rfl : start = none := ih
      exact ⟨here, rfl, hrest.laid hss.2 ho⟩
    | some ss' =>
      rw [hd] at ih
      obtain ⟨q, rfl, hq⟩ := ih
      exact ⟨q, rfl, hq⟩
  | @other s ss here first code tests brs start hcase hdefault hg hrest ih =>
    rw [Stmt.allStructured_cons] at hss
    have ih := ih hss.2 (Nat.add_assoc .. ▸ ho.right)
    rw [← Nat.add_assoc base] at ih
    have hd : Stmt.behindDefault? (s :: ss) = Stmt.behindDefault? ss := by
      cases s with
      | default span => exact absurd rfl (hdefault span)
      | _ => rfl
    rw [hd, Code.size_append, ← Nat.add_assoc]
    exact ih

/-- The tests of a switch find the first case of the value, or none. -/
theorem picks {base : Nat} {v : Cell} (h : Switched c flows ss here tests brs code start)
    (hss : Stmt.allStructured ss = true) (ht : Occurs W ts q (Coder.joinTests tests brs))
    (hbase : base = q + size (Coder.joinTests tests brs) + 1) (ho : Occurs W ts (base + here) code) :
    match Stmt.behindCase? v ss with
    | some ss' => ∃ r, Picks c W v q r ∧ Laid c W flows ts ss' r (base + here + size code)
    | none => ∀ r, W.Leads (q + size (Coder.joinTests tests brs)) r → Picks c W v q r := by
  induction h generalizing q with
  | nil => exact fun r hr => .rest hr
  | @case span value ss here test code tests i brs start hg hi hrest ih =>
    rw [Stmt.allStructured_cons] at hss
    obtain ⟨hvalue, hss⟩ := hss
    cases value with
    | number span' n =>
      obtain rfl : plain [.immediate n] = test := hg.pure
      have hload : W.At q (.load c.returnSlot) := ht.left.left.left.instr
      have hnumber : W.At (q + 1) (.immediate n) := ht.left.left.right.instr
      have hsize : size (plain [.load c.returnSlot] ++ plain [.immediate n]) =
          1 + (Instr.immediate n).length := Code.size_append ..
      have hjoin : size (Coder.joinTests ((plain [.load c.returnSlot] ++ plain [.immediate n]) :: tests)
          (i :: brs)) = 1 + (Instr.immediate n).length + 2 + size (Coder.joinTests tests brs) := by
        rw [Coder.joinTests, Code.size_append, Code.size_append, hsize, Code.size_branch hi]
      have hbranch : W.Branches .ne (q + 1 + (Instr.immediate n).length) (base + here) := by
        refine ⟨_, i, hi, (ht.left.right_at (by rw [hsize, Nat.add_assoc])).instr, ?_⟩
        rw [hbase, hjoin, hrest.size_tests]
        omega
      have htests : Occurs W ts (q + 1 + (Instr.immediate n).length + 2) (Coder.joinTests tests brs) := by
        refine ht.right_at ?_
        rw [Code.size_append, hsize, Code.size_branch hi]
        omega
      have ih := ih hss htests (by rw [hbase, hjoin]; omega) ho
      unfold Stmt.behindCase?
      by_cases hn : n = v
      · subst hn
        rw [if_pos (show (Expr.number span' n).number? = some n from rfl)]
        exact ⟨_, .hit hload hnumber hbranch, hrest.laid hss ho⟩
      · rw [if_neg (by simpa [Expr.number?] using hn)]
        cases hc : Stmt.behindCase? v ss with
        | some ss' =>
          rw [hc] at ih
          obtain ⟨r, hr, hl⟩ := ih
          exact ⟨r, .miss (Ne.symm hn) hload hnumber hbranch hr, hl⟩
        | none =>
          rw [hc] at ih
          intro r hr
          rw [hjoin] at hr
          refine .miss (Ne.symm hn) hload hnumber hbranch (ih r ?_)
          simpa only [Nat.add_assoc] using hr
    | _ => cases hvalue
  | default _ ih =>
    rw [Stmt.allStructured_cons] at hss
    exact ih hss.2 ht hbase ho
  | @other s ss here first code tests brs start hcase hdefault hg hrest ih =>
    rw [Stmt.allStructured_cons] at hss
    have ih := ih hss.2 ht hbase (Nat.add_assoc .. ▸ ho.right)
    rw [← Nat.add_assoc base] at ih
    have hd : Stmt.behindCase? v (s :: ss) = Stmt.behindCase? v ss := by
      cases s with
      | case span value => exact absurd rfl (hcase span value)
      | _ => rfl
    rw [hd, Code.size_append, ← Nat.add_assoc]
    exact ih

end Switched

/-- The tests of a switch lead to its entry for the value. -/
theorem Switched.enters {label : Option String} {body : List Stmt} {kb : Code} {tests : List Code}
    {brs : List Instr} {start : Option Nat} {skip : Instr} {t : Target}
    (h : Switched c (⟨label, true⟩ :: K.flows) body 0 tests brs kb start)
    (hbody : Stmt.allStructured body = true) (hskip : jumpBy? (1 + (start.getD (size kb) : Nat)) = some skip)
    (ho : Occurs W (t :: ts) q (Coder.joinTests tests brs ++ plain [skip] ++ kb))
    (hstop : t.stop = q + size (Coder.joinTests tests brs ++ plain [skip] ++ kb))
    (hK : Placed c W K ts t.stop) (v : Cell) :
    ∃ ts' r, Picks c W v q r ∧ Placed c W (Control.enter label body K v) ts' r := by
  have hkb : Occurs W (t :: ts) (q + size (Coder.joinTests tests brs) + 1 + 0) kb := by
    refine ho.right_at ?_
    rw [Code.size_append, Code.size_jump hskip]
    rfl
  have hend : q + size (Coder.joinTests tests brs) + 1 + 0 + size kb = t.stop := by
    rw [hstop, Code.size_append, Code.size_append, Code.size_jump hskip]
    omega
  have hcase := h.picks (v := v) hbody ho.left.left rfl hkb
  have hdefault := h.laid_default hbody hkb
  have hjump : W.Jumps (q + size (Coder.joinTests tests brs))
      (q + size (Coder.joinTests tests brs) + 1 + start.getD (size kb)) :=
    ⟨_, skip, hskip, ho.left.right.instr, by omega⟩
  rw [hend] at hcase hdefault
  unfold Control.enter
  cases hc : Stmt.behindCase? v body with
  | some ss =>
    rw [hc] at hcase
    obtain ⟨r, hr, hss⟩ := hcase
    exact ⟨t :: ts, r, hr, .block hss (.switchEnd hK)⟩
  | none =>
    rw [hc] at hcase
    have hpick := hcase _ (.jump hjump (.refl _))
    cases hd : Stmt.behindDefault? body with
    | some ss =>
      rw [hd] at hdefault
      obtain ⟨r, rfl, hss⟩ := hdefault
      exact ⟨t :: ts, _, hpick, .block hss (.switchEnd hK)⟩
    | none =>
      rw [hd] at hdefault
      obtain rfl : start = none := hdefault
      refine ⟨ts, _, hpick, ?_⟩
      rw [← hend] at hK
      exact hK

/-! ### Moves -/

namespace Placed

variable {span : Span} {label : Option String} {cond step : Option Expr} {body : List Stmt} {k : Code}

/-- The code of the step stands wherever it occurs. -/
theorem stepped_of_bind {step : Option Expr} {f : Code → Coding Code}
    (hg : Gives (do
      let ks ← match step with
        | some e => do c.freeTemps; e.code c .effect
        | none => pure []
      f ks) k) :
    ∃ ks, (∀ q, Occurs W [] q ks → Stepped c W step q (q + size ks)) ∧ (f ks).Gives k := by
  cases step with
  | none =>
    obtain ⟨ks, hs, hg⟩ := Gives.bind hg
    obtain rfl := hs.pure
    exact ⟨[], fun _ _ => .none, hg⟩
  | some e =>
    obtain ⟨_, -, hg⟩ := Gives.bind hg
    obtain ⟨ks, hs, hg⟩ := hg.bind
    exact ⟨ks, fun _ ho => .some hs ho, hg⟩

theorem start_ret {value : Option Expr} (hg : ((Stmt.ret span value).code c K.flows).Gives k)
    (ho : Occurs W ts p k) : (Control.start (.ret span value) K).Lies c W p := by
  unfold Stmt.code at hg
  obtain ⟨k0, hg, ho, -⟩ := Occurs.statement hg ho
  cases value with
  | none =>
    obtain rfl := hg.pure
    exact ⟨[], .ret ho.instr⟩
  | some e =>
    obtain ⟨kv, hv, hg⟩ := Gives.bind hg
    obtain rfl := hg.pure
    have hparts : kv ++ plain [.store c.returnSlot, c.exit] =
        kv ++ plain [.store c.returnSlot] ++ plain [c.exit] := by
      rw [List.append_assoc]
      rfl
    rw [hparts] at ho
    exact ⟨[], p, _, .refl p, ⟨kv, hv, rfl⟩, ho.left.bare, .ret ho.right.instr⟩

section

variable (ho : Occurs W ts p k) (hK : Placed c W K ts (p + size k))

include ho hK

section

variable (hbody : Stmt.allStructured body = true)

include hbody

theorem start_while (hg : ((Stmt.whileLoop span label cond body).code c K.flows).Gives k) :
    Placed c W (.loopTest label cond none body :: K) ts p := by
  unfold Stmt.code at hg
  obtain ⟨k0, hg, ho, hsize⟩ := Occurs.statement hg ho
  rw [← hsize] at hK
  have hloop : ∀ test, TestCode c cond test → Gives (do
      let body ← Stmt.blockCode c (⟨label, false⟩ :: K.flows) body
      Coder.whileLoop test (cond.map (·.testOp)) body) k0 →
      Placed c W (.loopTest label cond none body :: K) ts p := by
    intro test ht hg
    obtain ⟨kb, hb, hg⟩ := hg.bind
    exact .loopTest (.of_while hbody hb ht hg ho) hK
  cases cond with
  | none =>
    obtain ⟨test, ht, hg⟩ := Gives.bind hg
    obtain rfl := ht.pure
    exact hloop [] .none hg
  | some e =>
    obtain ⟨test, ht, hg⟩ := Gives.bind hg
    exact hloop test (.some ht) hg

theorem start_do {cond : Expr}
    (hg : ((Stmt.doWhile span label body cond).code c K.flows).Gives k) :
    ∃ ts', Placed c W (.block body :: .doTest label body cond :: K) ts' p := by
  unfold Stmt.code at hg
  obtain ⟨k0, hg, ho, hsize⟩ := Occurs.statement hg ho
  rw [← hsize] at hK
  obtain ⟨kb, hb, hg⟩ := Gives.bind hg
  obtain ⟨test, ht, hg⟩ := hg.bind
  have hl := DoLaid.of_code hbody hb ht hg ho
  cases hl with
  | intro hss htest hback => exact ⟨_, .block hss (.doTest (.intro hss htest hback) hK)⟩

theorem start_for {init : List Stmt} (hinit : Stmt.allStructured init = true)
    (hg : ((Stmt.forLoop span label init cond step body).code c K.flows).Gives k) :
    Placed c W (.block init :: .loopTest label cond step body :: K) ts p := by
  unfold Stmt.code at hg
  obtain ⟨k0, hg, ho, hsize⟩ := Occurs.statement hg ho
  rw [← hsize] at hK
  obtain ⟨ki, hi, hg⟩ := Gives.bind hg
  have hloop : ∀ test kb ks, TestCode c cond test →
      (Stmt.blockCode c (⟨label, false⟩ :: K.flows) body).Gives kb →
      (∀ q, Occurs W [] q ks → Stepped c W step q (q + size ks)) →
      Gives (do return ki ++ (← Coder.stepLoop test (cond.map (·.testOp)) kb ks)) k0 →
      Placed c W (.block init :: .loopTest label cond step body :: K) ts p := by
    intro test kb ks ht hb hs hg
    obtain ⟨loop, hloop, hg⟩ := hg.bind
    obtain rfl := hg.pure
    obtain ⟨next, hl⟩ := LoopLaid.of_step hbody hb ht hs hloop ho.right
    rw [Code.size_append, ← Nat.add_assoc] at hK
    exact .block (.of_block hinit hi ho.left) (.loopTest hl hK)
  cases cond with
  | none =>
    obtain ⟨test, ht, hg⟩ := Gives.bind hg
    obtain rfl := ht.pure
    obtain ⟨kb, hb, hg⟩ := hg.bind
    obtain ⟨ks, hs, hg⟩ := stepped_of_bind hg
    exact hloop [] kb ks .none hb hs hg
  | some e =>
    obtain ⟨test, ht, hg⟩ := Gives.bind hg
    obtain ⟨kb, hb, hg⟩ := hg.bind
    obtain ⟨ks, hs, hg⟩ := stepped_of_bind hg
    exact hloop test kb ks (.some ht) hb hs hg

theorem start_switch {subject : Expr}
    (hg : ((Stmt.switch span label subject body).code c K.flows).Gives k) :
    Move.Lies c W p (.choose subject (Control.enter label body K)) := by
  unfold Stmt.code at hg
  obtain ⟨k0, hg, ho, hsize⟩ := Occurs.statement hg ho
  rw [← hsize] at hK
  obtain ⟨value, hvalue, hg⟩ := Gives.bind hg
  obtain ⟨tests, htests, hg⟩ := hg.bind
  obtain ⟨⟨kb, brs, start⟩, hswitch, hg⟩ := hg.bind
  obtain ⟨skip, hskip, hg⟩ := Gives.bind hg
  have hc := hg.inReach
  have ho := ho.close hc
  rw [(Code.closeLoop_rewrites hc).size_eq] at hK
  refine ⟨p, value, .refl p, hvalue, ho.left.left.left.left.bare, ho.left.left.left.right.instr, ?_⟩
  have hparts : value ++ plain [.store c.returnSlot] ++ Coder.joinTests tests brs ++ plain [skip] ++ kb =
      (value ++ plain [.store c.returnSlot]) ++ (Coder.joinTests tests brs ++ plain [skip] ++ kb) := by
    simp only [List.append_assoc]
  have hfront : size (value ++ plain [.store c.returnSlot]) = size value + 1 := Code.size_append ..
  rw [hparts] at ho hK
  refine (Switched.of_code htests hswitch).enters hbody hskip.inReach (ho.right_at ?_) ?_ hK
  · rw [hfront, Nat.add_assoc]
  · simp only [Code.size_append, hfront]
    omega

end

theorem start_exit {kind : LoopExit} (hg : ((Stmt.exit span kind label).code c K.flows).Gives k) :
    (Control.start (.exit span kind label) K).Lies c W p := by
  unfold Stmt.code at hg
  obtain ⟨k0, hg, ho, -⟩ := Occurs.statement hg ho
  obtain ⟨d, hd, hg⟩ := Gives.bind hg
  obtain rfl := hg.pure
  obtain ⟨hd, hagain⟩ := Flow.depth_eq_ok hd.lift
  obtain ⟨t, ht, hjump⟩ := hK.exit hd hagain
  obtain ⟨K', ts', hexit, hK'⟩ := hjump p (ho [] _ [] rfl t ht)
  simp only [Control.start, hexit]
  exact ⟨ts', hK'⟩

/-- The move of a statement. -/
theorem start {s : Stmt} (hs : s.isStructured = true) (hg : (s.code c K.flows).Gives k) :
    (Control.start s K).Lies c W p := by
  cases s with
  | whenever | rangeFor | goto => cases hs
  | varDecl | constDecl | expr | native | callSub | emit | empty =>
    exact ⟨ts, p, k, .refl p, ⟨_, hg⟩, ho.bare, hK⟩
  | case span value | default span | label span name =>
    unfold Stmt.code at hg
    obtain ⟨k0, hg, -, hsize⟩ := Occurs.statement hg ho
    obtain rfl := hg.pure
    rw [← hsize] at hK
    exact ⟨ts, hK⟩
  | branch span arms =>
    unfold Stmt.code at hg
    obtain ⟨k0, hg, ho, hsize⟩ := Occurs.statement hg ho
    exact ⟨ts, .arms hs hg ho (hsize ▸ hK)⟩
  | block span body =>
    unfold Stmt.code at hg
    obtain ⟨k0, hg, ho, hsize⟩ := Occurs.statement hg ho
    exact ⟨ts, .block (.of_block hs hg ho) (hsize ▸ hK)⟩
  | whileLoop span label cond body => exact ⟨ts, start_while ho hK hs hg⟩
  | doWhile span label body cond => exact start_do ho hK hs hg
  | forLoop span label init cond step body =>
    rw [Stmt.isStructured, Bool.and_eq_true] at hs
    exact ⟨ts, start_for ho hK hs.2 hs.1 hg⟩
  | switch span label subject body => exact start_switch ho hK hs hg
  | exit span kind label => exact start_exit ho hK hg
  | ret span value => exact start_ret hg ho

/-- The move of the arms of an `if`. -/
theorem next_arms {arms : Arms} (hs : arms.isStructured = true)
    (hg : (Stmt.armsCode c K.flows arms).Gives k) : (Control.next (.arms arms :: K)).Lies c W p := by
  cases arms with
  | done =>
    unfold Stmt.armsCode at hg
    obtain rfl := hg.pure
    exact ⟨ts, hK⟩
  | otherwise body =>
    unfold Stmt.armsCode at hg
    exact ⟨ts, .block (.of_block hs hg ho) hK⟩
  | arm span cond body rest =>
    rw [Arms.isStructured, Bool.and_eq_true] at hs
    unfold Stmt.armsCode at hg
    obtain ⟨test, ht, hg⟩ := Gives.bind hg
    obtain ⟨kb, hb, hg⟩ := hg.bind
    obtain ⟨i, hi, hg⟩ := Gives.bind hg
    obtain ⟨others, hrest, hg⟩ := hg.bind
    have hi := hi.inReach
    -- behind the body there is a jump over the other arms, if there are any
    obtain ⟨skip, rfl, hskip, hover⟩ : ∃ skip : List Instr,
        k = test ++ plain [i] ++ kb ++ plain skip ++ others ∧
        (size (plain skip) : Int) = (if rest.isDone then 0 else 1) ∧
        (Occurs W ts p k → W.Leads (p + size (test ++ plain [i] ++ kb)) (p + size k)) := by
      cases rest with
      | done =>
        unfold Stmt.armsCode at hrest
        obtain rfl := hrest.pure
        obtain ⟨skip, hskip, hg⟩ := Gives.bind hg
        obtain rfl := hskip.pure
        obtain rfl := hg.pure
        refine ⟨[], rfl, rfl, fun _ => ?_⟩
        rw [Code.size_append _ [], Code.size_append _ (plain [])]
        exact .refl _
      | _ =>
        obtain ⟨j, hj, hg⟩ := Gives.bind hg
        obtain ⟨skip, hskip, hg⟩ := Gives.bind hg
        obtain rfl := hskip.pure
        obtain rfl := hg.pure
        have hj := hj.inReach
        refine ⟨[j], rfl, congrArg Nat.cast (Code.size_jump hj), fun ho => ?_⟩
        refine .jump ⟨_, j, hj, ho.left.right.instr, ?_⟩ (.refl _)
        simp only [Code.size_append, Code.size_jump hj]
        omega
    have hbranch : size (plain [i]) = 2 := Code.size_branch hi
    have hover := hover ho
    rw [← hskip] at hi
    refine ⟨ts, ts, p, p + size test + 2, p + size test + 2 + size kb + size (plain skip), .refl p,
      .some ht ho.left.left.left.left.bare ⟨_, i, hi, ho.left.left.left.right.instr, by omega⟩,
      .block (.of_block hs.1 hb (ho.left.left.right_at ?_)) (.leads ?_ hK),
      .arms hs.2 hrest (ho.right_at ?_) ?_⟩
    · rw [Code.size_append, hbranch, Nat.add_assoc]
    · simpa only [Code.size_append, hbranch, Nat.add_assoc] using hover
    · simp only [Code.size_append, hbranch, Nat.add_assoc]
    · simpa only [Code.size_append, hbranch, Nat.add_assoc] using hK

end

/-- What comes next lies where control is. -/
theorem next (h : Placed c W K ts p) : K.next.Lies c W p := by
  induction h with
  | done => exact Code.Leads.refl _
  | ret hexit => exact ⟨_, .refl _, hexit⟩
  | jump hj _ ih => exact ih.jump hj
  | block hss hK _ =>
    cases hss with
    | nil => exact ⟨_, hK⟩
    | cons hs hg ho hrest => exact start ho (.block hrest hK) hs hg
    | case hrest => exact ⟨_, .block hrest hK⟩
    | default hrest => exact ⟨_, .block hrest hK⟩
  | arms hs hg ho hK _ => exact next_arms ho hK hs hg
  | loopTest hl hK _ =>
    cases hl with
    | intro htest hbody hstep hback hnext =>
      have hin := Placed.block hbody (.loopStep (.intro htest hbody hstep hback hnext) hstep hback hK)
      cases htest with
      | none => exact ⟨_, hin⟩
      | some hg ho hb => exact ⟨_, _, _, _, _, .refl _, .some hg ho hb, hin, hK⟩
  | loopStep hl hstep hback hK _ =>
    cases hstep with
    | none => exact ⟨_, _, hback, .loopTest hl hK⟩
    | some hg ho => exact ⟨_, _, _, .refl _, hg, ho, .jump hback (.loopTest hl hK)⟩
  | doTest hl hK _ =>
    cases hl with
    | intro hbody htest hback =>
      have hin := Placed.block hbody (.doTest (.intro hbody htest hback) hK)
      exact ⟨_, _, _, _, _, .refl _, htest, .jump hback hin, hK⟩
  | switchEnd hK _ => exact ⟨_, hK⟩

end Placed

end RobotScript
