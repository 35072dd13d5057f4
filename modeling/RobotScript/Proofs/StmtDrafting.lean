/-
# Drafts of the code of statements

All code that is generated for statements has a draft. It is made of the drafts
of the expressions in them; the jumps out of a loop are resolved in a draft as
they are in its code.

Key theorem: `Stmt.blockCode_brings`.
-/
import RobotScript.Proofs.Drafting

namespace RobotScript

open Machine (Instr Binary)
open Draft (plain)
open Coding (Brings)

variable {c : Coder} {t t' : Nat}

namespace Coder

theorem pushWords_brings (e : Expr) (t : Nat) : Brings c t (c.pushWords e) fun x t' =>
    Job.Made c (.words e x.2) t x.1 t' := by
  have hvalue : Brings c t (do return (← e.code c .value, 1) : Coding (Code × Nat)) fun x t' =>
      Job.Made c (.words e x.2) t x.1 t' := by
    refine ((Expr.drafted e).code .value t).draft fun K t' hK => ?_
    exact .pure ⟨K, rfl, .word hK⟩
  have hloads (s : Storage) (js : List Nat) (t : Nat) :
      Brings c t (concat js fun k => Place.load c ⟨s, .known k⟩) (Job.Made c (.each s js) t) := by
    refine Brings.bind (Q := fun ks t' => Job.Made c (.each s js) t ks.flatten t') ?_ fun ks t' hks =>
      .pure hks
    induction js generalizing t with
    | nil =>
      rw [List.mapM_nil]
      exact .pure ⟨[], rfl, .none⟩
    | cons j js ih =>
      rw [List.mapM_cons]
      refine (Place.use_brings .load (Spot.drafted_known s j)).draft fun K t1 hK => ?_
      refine (ih t1).bind ?_
      rintro ks t2 ⟨K', hks, hK'⟩
      exact .pure ⟨K ++ K', by simp [hks], .each hK hK'⟩
  unfold pushWords
  split
  · refine (Expr.valuesCode_brings (fun a _ => Expr.drafted a) t).draft fun K t' hK => ?_
    exact .pure ⟨K, rfl, .arrayWords hK⟩
  · rename_i i v
    split
    · exact hvalue
    · rename_i hsize
      refine (stored_brings v).bind ?_
      rintro s _ ⟨rfl, hv⟩
      refine (hloads s _ t).draft fun K t' hK => ?_
      exact .pure ⟨K, rfl, .varWords hsize hv hK⟩
  · exact hvalue

end Coder

/-- An argument of a native call, as code is generated for it. -/
def Passed.arg (c : Coder) : Passed → NativeArg
  | .place s spot => .place (spot.place c s)
  | .words n => .words n

/-- The code of the place has a draft. -/
def Passed.Drafted (c : Coder) : Passed → Prop
  | .place s spot => spot.Drafted c s
  | .words _ => True

/-- Push the address of an argument of a native call. -/
def Found.push (c : Coder) : Found → Coding Code
  | .place s spot => (spot.place c s).push c
  | .temp base => return .plain [Coder.pushNat base]

namespace Coder

theorem pushNativeArgs_brings : ∀ (es : List Expr) (t : Nat), Brings c t (c.pushNativeArgs es) fun x t' =>
    ∃ args : List Passed, x.2 = args.map (Passed.arg c) ∧ (∀ a ∈ args, a.Drafted c) ∧
      Job.Made c (.nativeArgs es args) t x.1 t'
  | [], _ => .pure ⟨[], rfl, nofun, [], rfl, .noArg⟩
  | e :: es, t => by
    unfold pushNativeArgs
    split
    · refine ((Expr.drafted e).place false t).bind ?_
      rintro _ t1 ⟨K, s, spot, rfl, hK, hspot⟩
      refine (pushNativeArgs_brings es t1).bind ?_
      rintro ⟨k, _⟩ t2 ⟨args, rfl, hargs, K', rfl, hK'⟩
      exact .pure ⟨.place s spot :: args, rfl, List.forall_mem_cons.mpr ⟨hspot, hargs⟩, K ++ K',
        by simp, .placeArg hK hK'⟩
    · rename_i he
      refine (pushWords_brings e t).bind ?_
      rintro ⟨_, n⟩ t1 ⟨K, rfl, hK⟩
      refine (pushNativeArgs_brings es t1).bind ?_
      rintro ⟨k, _⟩ t2 ⟨args, rfl, hargs, K', rfl, hK'⟩
      exact .pure ⟨.words n :: args, rfl, List.forall_mem_cons.mpr ⟨trivial, hargs⟩, K ++ K',
        by simp, .wordsArg (Bool.not_eq_true _ ▸ he) hK hK'⟩

theorem popNativeArgs_brings : ∀ (args : List Passed) (t : Nat),
    Brings c t (c.popNativeArgs (args.map (Passed.arg c))) fun x t' => ∃ (K : Draft) (found : List Found),
      K.code = x.1 ∧ x.2 = found.map (Found.push c) ∧ Popped c args t K found t' ∧
        ∀ s spot, .place s spot ∈ found → .place s spot ∈ args
  | [], _ => .pure ⟨[], [], rfl, rfl, .nil, nofun⟩
  | .place s spot :: args, t => by
    refine (popNativeArgs_brings args t).bind ?_
    rintro ⟨_, _⟩ t1 ⟨K, found, rfl, rfl, hK, hfound⟩
    refine .pure ⟨K, .place s spot :: found, rfl, rfl, .place hK, fun s' spot' h => ?_⟩
    rcases List.mem_cons.mp h with h | h
    · cases h
      exact List.mem_cons_self
    · exact List.mem_cons_of_mem _ (hfound s' spot' h)
  | .words n :: args, t => by
    refine (popNativeArgs_brings args t).bind ?_
    rintro ⟨_, _⟩ t1 ⟨K, found, rfl, rfl, hK, hfound⟩
    refine (popToTemps_brings n).bind ?_
    rintro _ base ⟨rfl, rfl, hbase⟩
    refine .pure ⟨K ++ .note (.temps c.frameSize base) :: plain (pops base n), .temp base :: found,
      by simp, rfl, .words hK hbase, fun s' spot' h => ?_⟩
    rcases List.mem_cons.mp h with h | h
    · cases h
    · exact List.mem_cons_of_mem _ (hfound s' spot' h)

theorem addresses_make : ∀ (found : List Found) (t : Nat),
    (∀ s spot, .place s spot ∈ found → spot.Drafted c s) →
    Brings c t (lastFirst (found.map (Found.push c))) (Job.Made c (.addresses found) t)
  | [], _, _ => .pure ⟨[], rfl, .noAddress⟩
  | a :: found, t, h => by
    refine (addresses_make found t fun s spot hs => h s spot (List.mem_cons_of_mem _ hs)).draft fun K t1 hK => ?_
    cases a with
    | place s spot =>
      refine (Place.use_brings .address (h s spot List.mem_cons_self)).draft fun K' t2 hK' => ?_
      exact .pure ⟨K ++ K', by simp, .placeAddress hK hK'⟩
    | temp base => exact .pure ⟨K ++ plain [pushNat base], by simp [Code.plain], .tempAddress hK⟩

theorem emitFrom_brings (e : Expr) (t : Nat) : Brings c t (c.emitFrom e) fun x t' =>
    ∃ K : Draft, K.code = x.1 ∧ Sends c (some e) t K x.2 t' := by
  have hwords : Brings c t (do
      let pushed ← c.pushWords e
      let popped ← c.popToTemps pushed.2
      return (pushed.1 ++ popped.1, popped.2) : Coding (Code × Nat)) fun x t' =>
      ∃ K : Draft, K.code = x.1 ∧ Sends c (some e) t K x.2 t' := by
    refine (pushWords_brings e t).bind ?_
    rintro ⟨_, n⟩ t1 ⟨K, rfl, hK⟩
    refine (popToTemps_brings n).bind ?_
    rintro _ base ⟨rfl, rfl, hbase⟩
    exact .pure ⟨_, by simp, .words hK hbase⟩
  unfold emitFrom
  dsimp only
  split
  · rename_i i v
    refine (stored_brings v).bind ?_
    rintro s _ ⟨rfl, hv⟩
    by_cases hs : s.mode = .absolute
    · rw [if_pos hs]
      exact .pure ⟨[], rfl, .inPlace hv hs⟩
    · rw [if_neg hs]
      exact hwords
  · exact hwords

theorem nativeStatement_brings (name : String) (args : List Expr) (span : Span) (t : Nat)
    (flows : List Flow) : Brings c t (c.nativeStatement name args span) fun k t' =>
      ∃ K : Draft, K.code = k ∧ Stmt.Emits c (.inner flows (.native span name args)) t K t' := by
  unfold nativeStatement
  refine (pushNativeArgs_brings args t).bind ?_
  rintro ⟨_, _⟩ t1 ⟨passed, rfl, hpassed, K, rfl, hK⟩
  refine (popNativeArgs_brings passed t1).bind ?_
  rintro ⟨_, _⟩ t2 ⟨K1, found, rfl, rfl, hK1, hfound⟩
  refine (callNative_brings (addresses_make found t2 fun s spot hs =>
    hpassed _ (hfound s spot hs))).bind ?_
  rintro _ t3 ⟨id, groups, free, _, hcall, ⟨K2, rfl, hK2⟩, rfl⟩
  exact .pure ⟨_, by simp [nativeDraft], .native hK hK1 hcall hK2⟩

theorem emit_brings (event : String) (value : Option Expr) (span : Span) (t : Nat)
    (flows : List Flow) : Brings c t (c.emit event value span) fun k t' =>
      ∃ K : Draft, K.code = k ∧ Stmt.Emits c (.inner flows (.emit span event value)) t K t' := by
  unfold emit
  split
  · exact .fail
  · rename_i id decl hevent
    dsimp only
    split
    · exact .fail
    · split
      · refine (emitFrom_brings _ t).bind ?_
        rintro ⟨_, addr⟩ t1 ⟨K, rfl, hK⟩
        refine (address_brings addr).bind ?_
        rintro _ _ ⟨rfl, rfl, -⟩
        exact .pure ⟨_, by simp, .emit hevent hK⟩
      · refine Brings.bind (.pure ⟨rfl, rfl⟩) (Q := fun x t' => t = t' ∧ x = ([], 0)) ?_
        rintro _ _ ⟨rfl, rfl⟩
        refine (address_brings 0).bind ?_
        rintro _ _ ⟨rfl, rfl, -⟩
        exact .pure ⟨_, by simp, .emit hevent .nothing⟩

/-- The tests of a switch have drafts. -/
theorem switchTests_brings : ∀ (ss : List Stmt) (t : Nat), Brings c t (c.switchTests ss) fun ks t' =>
    ∃ Ks : List Draft, ks = Ks.map (·.code) ∧ CaseTests c ss t Ks t'
  | [], _ => .pure ⟨[], rfl, .nil⟩
  | s :: ss, t => by
    have hother (hs : ∀ span value, s ≠ .case span value) :
        Brings c t (c.switchTests ss) fun ks t' =>
          ∃ Ks : List Draft, ks = Ks.map (·.code) ∧ CaseTests c (s :: ss) t Ks t' := by
      refine (switchTests_brings ss t).mono ?_
      rintro _ t' ⟨Ks, rfl, hKs⟩
      exact ⟨Ks, rfl, .other hs hKs⟩
    cases s with
    | case span value =>
      refine ((Expr.drafted value).code .value t).draft fun K t1 hK => ?_
      refine (switchTests_brings ss t1).bind ?_
      rintro _ t2 ⟨Ks, rfl, hKs⟩
      exact .pure ⟨_, by simp, .case hK hKs⟩
    | _ => exact hother nofun

theorem code_joinTests : ∀ (Ks : List Draft) (branches : List Instr),
    (Draft.joinTests Ks branches).code = joinTests (Ks.map (·.code)) branches
  | [], _ => rfl
  | _ :: _, [] => rfl
  | K :: Ks, b :: bs => by
    rw [List.map_cons, Draft.joinTests, joinTests, Draft.code_append, Draft.code_append,
      code_joinTests Ks bs, Draft.code_plain]

end Coder

namespace Draft

theorem closeLoop_cons (next stop here : Nat) (i : Item) (k : Code) :
    Code.closeLoop next stop here (i :: k) =
      (do return (← i.close next stop here) :: (← Code.closeLoop next stop (here + i.size) k)) := by
  cases i with
  | exit kind d =>
    cases d with
    | zero => cases kind with
      | leave | again =>
        simp only [Item.close, Option.bind_eq_bind, Option.bind_map]
        rfl
    | succ d => simp [Code.closeLoop, Item.close, Item.size]
  | _ => rfl

/-- A draft of a loop is one of the loop as it is closed. -/
theorem closeLoop_code {next stop : Nat} : ∀ {K : Draft} {here : Nat} {k : Code},
    Code.closeLoop next stop here K.code = some k →
    ∃ K', closeLoop next stop here K = some K' ∧ K'.code = k
  | [], _, _, h => ⟨[], rfl, Option.some.inj h⟩
  | .note n :: K, here, k, h => by
    obtain ⟨K', hK', hk⟩ := closeLoop_code (K := K) h
    exact ⟨.note n :: K', by simp [closeLoop, hK'], hk⟩
  | .item i :: K, here, k, h => by
    rw [code_item, closeLoop_cons] at h
    obtain ⟨i', hi, h⟩ := Option.bind_eq_some_iff.mp h
    obtain ⟨k', hk', h⟩ := Option.bind_eq_some_iff.mp h
    obtain ⟨K', hK', rfl⟩ := closeLoop_code hk'
    exact ⟨.item i' :: K', by simp [closeLoop, hi, hK'], Option.some.inj h⟩

end Draft

namespace Stmt

/-- There is a draft of statements with the code given. -/
def Job.Made (c : Coder) (job : Job) (t : Nat) (k : Code) (t' : Nat) : Prop :=
  ∃ K : Draft, K.code = k ∧ Emits c job t K t'

variable {flows : List Flow}

theorem statement_brings {s : Stmt} {x : Coding Code}
    (h : Brings c c.tempTop x (Job.Made c (.inner flows s) c.tempTop)) :
    Brings c t (c.statement s.span s.isMarked x) (Job.Made c (.stmt flows s) t) := by
  refine Brings.placedAt ?_
  refine Brings.bind (Q := fun _ t' => c.tempTop = t') ?_ ?_
  · rintro s _ _ - ⟨⟩
    exact ⟨⟨_, .begin⟩, rfl⟩
  · rintro _ _ rfl
    refine h.draft fun K t' hK => ?_
    refine .pure ⟨_, ?_, .stmt hK⟩
    split <;> rfl

/-- A test, if there is one. -/
theorem test_brings (cond : Option Expr) (t : Nat) : Brings c t (match cond with
    | some e => e.code c .test
    | none => pure []) fun k t' => ∃ K : Draft, K.code = k ∧ Tests c cond t K t' := by
  cases cond with
  | none => exact .pure ⟨[], rfl, .none⟩
  | some e =>
    refine ((Expr.drafted e).code .test t).mono ?_
    rintro _ t' ⟨K, rfl, hK⟩
    exact ⟨K, rfl, .some hK⟩

theorem testBranch_brings (op : Option Binary) (distance : Nat) :
    Brings c t (Coder.testBranch op distance) fun k t' =>
      t = t' ∧ ∃ K : Draft, K.code = k ∧ Branches op distance K := by
  unfold Coder.testBranch
  split
  · exact Brings.inReach_bind fun i hi => .pure ⟨rfl, plain [i], by simp, .some rfl hi⟩
  · exact .pure ⟨rfl, [], rfl, .none rfl⟩

/-- A loop or switch is closed. -/
theorem close_brings {k : Code} {K : Draft} {next : Nat} {Q : Code → Nat → Prop} (hk : K.code = k)
    (h : ∀ L, Draft.closeLoop next K.size 0 K = some L → Q L.code t) : Brings c t (Coder.close next k) Q := by
  subst hk
  refine .inReach fun k hk => ?_
  obtain ⟨L, hL, rfl⟩ := Draft.closeLoop_code hk
  exact h L hL

/-- A loop is closed behind the jump back to its start. -/
theorem loop_brings {k : Code} (K : Draft) {next : Nat} {Q : Code → Nat → Prop} (hk : K.code = k)
    (h : ∀ i L, jumpBy? (-(K.size : Int)) = some i →
      Draft.closeLoop next (K ++ plain [i]).size 0 (K ++ plain [i]) = some L → Q L.code t) :
    Brings c t (do Coder.close next (k ++ (← Coder.jumpBack k))) Q := by
  subst hk
  refine Brings.bind (Q := fun k t' => t = t' ∧ ∃ i, k = Code.plain [i] ∧
    jumpBy? (-(K.size : Int)) = some i) ?_ ?_
  · exact Brings.inReach_bind fun i hi => .pure ⟨rfl, i, rfl, hi⟩
  · rintro _ _ ⟨rfl, i, rfl, hi⟩
    exact close_brings (K := K ++ plain [i]) (by simp) fun L hL => h i L hi hL

mutual

/-- The code of a statement has a draft. -/
theorem code_brings : ∀ (s : Stmt) (flows : List Flow) (t : Nat),
    Brings c t (code c flows s) (Job.Made c (.stmt flows s) t)
  | .expr span e, flows, t => by
    unfold code
    refine statement_brings (((Expr.drafted e).code .effect _).mono ?_)
    rintro _ t' ⟨K, rfl, hK⟩
    exact ⟨K, rfl, .expr hK⟩
  | .branch span arms, flows, t => by
    unfold code
    refine statement_brings ((armsCode_brings arms flows _).mono ?_)
    rintro _ t' ⟨K, rfl, hK⟩
    exact ⟨K, rfl, .branch hK⟩
  | .whenever span cond body, flows, t => by
    unfold code
    refine statement_brings (((Expr.drafted cond).code .test _).draft fun K t1 hK => ?_)
    refine (blockCode_brings body flows t1).draft fun K' t2 hK' => ?_
    exact Brings.inReach_bind fun i hi => .pure ⟨_, by simp, .whenever hK hK' hi⟩
  | .whileLoop span tag cond body, flows, t => by
    have hloop (test : Code) (t1 : Nat) (htest : ∃ K : Draft, K.code = test ∧ Tests c cond c.tempTop K t1) :
        Brings c t1 (do
          let body ← blockCode c (⟨tag, false⟩ :: flows) body
          Coder.whileLoop test (cond.map (·.testOp)) body)
        (Job.Made c (.inner flows (.whileLoop span tag cond body)) c.tempTop) := by
      obtain ⟨K, rfl, hK⟩ := htest
      refine (blockCode_brings body _ t1).draft fun K' t2 hK' => ?_
      unfold Coder.whileLoop
      refine (testBranch_brings _ _).bind ?_
      rintro _ _ ⟨rfl, b, rfl, hb⟩
      exact loop_brings (K ++ b ++ K') (by simp) fun i L hi hL => ⟨L, rfl, .whileLoop hK hK' hb hi hL⟩
    have htest := test_brings (c := c) cond c.tempTop
    unfold code
    refine statement_brings ?_
    cases cond with
    | none => exact hloop [] _ ⟨[], rfl, .none⟩
    | some e => exact htest.bind hloop
  | .doWhile span tag body cond, flows, t => by
    unfold code
    refine statement_brings ((blockCode_brings body _ _).draft fun K t1 hK => ?_)
    refine ((Expr.drafted cond).code .test t1).draft fun K' t2 hK' => ?_
    exact loop_brings (K ++ K' ++ plain [.branch cond.testOp false 3]) (by simp) fun i L hi hL =>
      ⟨L, rfl, .doWhile hK hK' hi hL⟩
  | .rangeFor span tag var first last step body, flows, t => by
    unfold code
    refine statement_brings (((Expr.drafted var).place false _).bind ?_)
    rintro _ t1 ⟨K, s, spot, rfl, hK, hspot⟩
    refine ((Expr.drafted first).code .value t1).draft fun K1 t2 hK1 => ?_
    refine (Place.use_brings .store hspot).draft fun K2 t3 hK2 => ?_
    refine (Place.use_brings .load hspot).draft fun K3 t4 hK3 => ?_
    refine ((Expr.drafted last).code .value t4).draft fun K4 t5 hK4 => ?_
    refine (blockCode_brings body _ t5).draft fun K5 t6 hK5 => ?_
    refine (Place.use_brings .load hspot).draft fun K6 t7 hK6 => ?_
    refine (Place.use_brings .store hspot).draft fun K7 t8 hK7 => ?_
    refine Brings.bind (Q := fun k t' => ∃ L : Draft, L.code = k ∧
      Emits c (.inner flows (.rangeFor span tag var first last step body)) c.tempTop
        (K ++ K1 ++ K2 ++ L) t') ?_ ?_
    · unfold Coder.stepLoop
      refine (testBranch_brings _ _).bind ?_
      rintro _ _ ⟨rfl, b, rfl, hb⟩
      have hsize : Code.size (K3.code ++ K4.code ++ b.code ++ K5.code) =
          (K3 ++ K4 ++ b ++ K5).size := by simp [Draft.size]
      dsimp only
      rw [hsize]
      refine loop_brings (K3 ++ K4 ++ b ++ K5 ++ (K6 ++ plain [.immediate
        ((step.bind Expr.number?).getD 1), .binary .add] ++ K7)) (by simp) fun i L hi hL =>
        ⟨L, rfl, .rangeFor rfl hK hK1 hK2 hK3 hK4 hK5 hK6 hK7 ?_ hi hL⟩
      simpa [Draft.size] using hb
    · rintro _ t9 ⟨L, rfl, hL⟩
      exact .pure ⟨_, by simp, hL⟩
  | .forLoop span tag init cond step body, flows, t => by
    have hloop (K K1 K2 K3 : Draft) (t1 t2 t3 t4 : Nat) (hK : Emits c (.block flows init) c.tempTop K t1)
        (hK1 : Tests c cond t1 K1 t2) (hK2 : Emits c (.block (⟨tag, false⟩ :: flows) body) t2 K2 t3)
        (hK3 : Advances c step t3 K3 t4) :
        Brings c t4 (do
          return K.code ++ (← Coder.stepLoop K1.code (cond.map (·.testOp)) K2.code K3.code))
        (Job.Made c (.inner flows (.forLoop span tag init cond step body)) c.tempTop) := by
      refine Brings.bind (Q := fun k t' => ∃ L : Draft, L.code = k ∧
        Emits c (.inner flows (.forLoop span tag init cond step body)) c.tempTop (K ++ L) t') ?_ ?_
      · unfold Coder.stepLoop
        refine (testBranch_brings _ _).bind ?_
        rintro _ _ ⟨rfl, b, rfl, hb⟩
        have hsize : Code.size (K1.code ++ b.code ++ K2.code) = (K1 ++ b ++ K2).size := by
          simp [Draft.size]
        dsimp only
        rw [hsize]
        exact loop_brings (K1 ++ b ++ K2 ++ K3) (by simp) fun i L hi hL =>
          ⟨L, rfl, .forLoop hK hK1 hK2 hK3 hb hi hL⟩
      · rintro _ t' ⟨L, rfl, hL⟩
        exact .pure ⟨_, by simp, hL⟩
    have hrounds (K : Draft) (t1 : Nat) (hK : Emits c (.block flows init) c.tempTop K t1) (test : Code)
        (t2 : Nat) (htest : ∃ K1 : Draft, K1.code = test ∧ Tests c cond t1 K1 t2) :
        Brings c t2 (do
          let body ← blockCode c (⟨tag, false⟩ :: flows) body
          let step ← match step with
            | some e => do c.freeTemps; e.code c .effect
            | none => pure []
          return K.code ++ (← Coder.stepLoop test (cond.map (·.testOp)) body step))
        (Job.Made c (.inner flows (.forLoop span tag init cond step body)) c.tempTop) := by
      obtain ⟨K1, rfl, hK1⟩ := htest
      refine (blockCode_brings body _ t2).draft fun K2 t3 hK2 => ?_
      cases step with
      | none => exact hloop K K1 K2 [] t1 t2 t3 t3 hK hK1 hK2 .none
      | some e =>
        refine Brings.bind (Q := fun _ t' => c.tempTop = t') ?_ ?_
        · rintro s _ _ - hfree
          exact ⟨⟨_, .freeTemps hfree⟩, by cases hfree; rfl⟩
        · rintro _ _ rfl
          refine ((Expr.drafted e).code .effect _).draft fun K3 t4 hK3 => ?_
          exact hloop K K1 K2 K3 t1 t2 t3 t4 hK hK1 hK2 (.some hK3)
    unfold code
    refine statement_brings ((blockCode_brings init flows _).draft fun K t1 hK => ?_)
    have htest := test_brings (c := c) cond t1
    cases cond with
    | none => exact hrounds K t1 hK [] t1 ⟨[], rfl, .none⟩
    | some e => exact htest.bind (hrounds K t1 hK)
  | .switch span tag subject body, flows, t => by
    unfold code
    refine statement_brings (((Expr.drafted subject).code .value _).draft fun K t1 hK => ?_)
    refine (Coder.switchTests_brings body t1).bind ?_
    rintro _ t2 ⟨Ks, rfl, hKs⟩
    refine (switchCode_brings body _ _ _ t2).bind ?_
    rintro ⟨_, branches, start⟩ t3 ⟨K', rfl, hK'⟩
    refine Brings.inReach_bind fun skip hskip => ?_
    let L := K ++ plain [.store c.returnSlot] ++ Draft.joinTests Ks branches ++ plain [skip] ++ K'
    have hL : L.code = K.code ++ Code.plain [.store c.returnSlot] ++
        Coder.joinTests (Ks.map (·.code)) branches ++ Code.plain [skip] ++ K'.code := by
      simp [L, Coder.code_joinTests]
    dsimp only
    rw [← hL]
    exact close_brings rfl fun L' hL' => ⟨L', rfl, .switch hK hKs hK' hskip hL'⟩
  | .block span body, flows, t => by
    unfold code
    refine statement_brings ((blockCode_brings body flows _).mono ?_)
    rintro _ t' ⟨K, rfl, hK⟩
    exact ⟨K, rfl, .block hK⟩
  | .exit span kind tag, flows, t => by
    unfold code
    refine statement_brings (Brings.bind (Q := fun d t' => c.tempTop = t' ∧
      Flow.depth flows kind tag span = .ok d) (.lift fun d hd => ⟨rfl, hd⟩) ?_)
    rintro d _ ⟨rfl, hd⟩
    exact .pure ⟨_, rfl, .exit hd⟩
  | .native span name args, flows, t => by
    unfold code
    exact statement_brings (Coder.nativeStatement_brings name args span _ flows)
  | .emit span event value, flows, t => by
    unfold code
    exact statement_brings (Coder.emit_brings event value span _ flows)
  | .ret span value, flows, t => by
    unfold code
    refine statement_brings ?_
    cases value with
    | none => exact .pure ⟨_, by simp, .ret⟩
    | some e =>
      refine ((Expr.drafted e).code .value _).draft fun K t' hK => ?_
      exact .pure ⟨_, by simp, .retValue hK⟩
  | .label span name, flows, t => by
    unfold code
    exact statement_brings (.pure ⟨_, rfl, .label⟩)
  | .goto span name, flows, t => by
    unfold code
    exact statement_brings (.pure ⟨_, rfl, .goto⟩)
  | .callSub span name, flows, t => by
    unfold code
    exact statement_brings (.pure ⟨_, rfl, .callSub⟩)
  | .varDecl span d, flows, t => by
    unfold code
    exact statement_brings (.pure ⟨[], rfl, .nothing (.inl ⟨span, d, rfl⟩)⟩)
  | .constDecl span name e, flows, t => by
    unfold code
    exact statement_brings (.pure ⟨[], rfl, .nothing (.inr (.inl ⟨span, name, e, rfl⟩))⟩)
  | .empty span, flows, t => by
    unfold code
    exact statement_brings (.pure ⟨[], rfl, .nothing (.inr (.inr (.inl ⟨span, rfl⟩)))⟩)
  | .case span e, flows, t => by
    unfold code
    exact statement_brings (.pure ⟨[], rfl, .nothing (.inr (.inr (.inr (.inl ⟨span, e, rfl⟩))))⟩)
  | .default span, flows, t => by
    unfold code
    exact statement_brings (.pure ⟨[], rfl, .nothing (.inr (.inr (.inr (.inr ⟨span, rfl⟩))))⟩)

theorem armsCode_brings : ∀ (arms : Arms) (flows : List Flow) (t : Nat),
    Brings c t (armsCode c flows arms) (Job.Made c (.arms flows arms) t)
  | .done, flows, t => .pure ⟨[], rfl, .noArm⟩
  | .otherwise body, flows, t => by
    refine (blockCode_brings body flows t).mono ?_
    rintro _ t' ⟨K, rfl, hK⟩
    exact ⟨K, rfl, .otherwise hK⟩
  | .arm span cond body rest, flows, t => by
    unfold armsCode
    refine ((Expr.drafted cond).code .test t).draft fun K t1 hK => ?_
    refine (blockCode_brings body flows t1).draft fun K1 t2 hK1 => ?_
    refine Brings.inReach_bind fun i hi => ?_
    refine (armsCode_brings rest flows t2).draft fun K2 t3 hK2 => ?_
    split
    · rename_i hdone
      exact .pure ⟨_, by simp, .arm hK hK1 hi hK2 (.inl ⟨hdone, rfl⟩)⟩
    · rename_i hdone
      refine Brings.inReach_bind fun j hj => ?_
      exact .pure ⟨_, by simp, .arm hK hK1 hi hK2 (.inr ⟨Bool.not_eq_true _ ▸ hdone, j, hj, rfl⟩)⟩

/-- The code of a block has a draft. -/
theorem blockCode_brings : ∀ (ss : List Stmt) (flows : List Flow) (t : Nat),
    Brings c t (blockCode c flows ss) (Job.Made c (.block flows ss) t)
  | [], flows, t => .pure ⟨[], rfl, .nil⟩
  | s :: ss, flows, t => by
    unfold blockCode
    refine (code_brings s flows t).draft fun K t1 hK => ?_
    refine (blockCode_brings ss flows t1).draft fun K' t2 hK' => ?_
    exact .pure ⟨K ++ K', by simp, .cons hK hK'⟩

theorem switchCode_brings : ∀ (ss : List Stmt) (flows : List Flow) (gaps : List Nat) (here t : Nat),
    Brings c t (switchCode c flows gaps here ss) fun x t' =>
      Job.Made c (.cases flows gaps here ss x.2.1 x.2.2) t x.1 t'
  | [], flows, gaps, here, t => by
    unfold switchCode
    exact .pure ⟨[], rfl, .noCase⟩
  | s :: ss, flows, gaps, here, t => by
    unfold switchCode
    split
    · refine Brings.inReach_bind fun i hi => ?_
      refine (switchCode_brings ss flows _ here t).bind ?_
      rintro ⟨_, branches, start⟩ t' ⟨K, rfl, hK⟩
      exact .pure ⟨K, rfl, .case hi hK⟩
    · refine (switchCode_brings ss flows [] here t).mono ?_
      rintro ⟨_, branches, start⟩ t' ⟨K, rfl, hK⟩
      exact ⟨K, rfl, .lateCase hK⟩
    · refine (switchCode_brings ss flows gaps here t).bind ?_
      rintro ⟨_, branches, start⟩ t' ⟨K, rfl, hK⟩
      exact .pure ⟨K, rfl, .default hK⟩
    · rename_i hdefault hcase hlate
      refine (code_brings s flows t).draft fun K t1 hK => ?_
      refine (switchCode_brings ss flows gaps _ t1).bind ?_
      rintro ⟨_, branches, start⟩ t' ⟨K', rfl, hK'⟩
      refine .pure ⟨K ++ K', by simp, .among ⟨fun span value hs => ?_, fun span hs => ?_⟩ hK hK'⟩
      · cases gaps with
        | nil => exact hlate span value hs rfl
        | cons gap gaps => exact hcase span value gap gaps hs rfl
      · exact hdefault span hs

end

end Stmt
end RobotScript
