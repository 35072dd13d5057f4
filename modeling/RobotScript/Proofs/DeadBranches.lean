/-
# Folding drops nothing that runs

Statements do the same before and after folding, if the expressions in them
mean the same: the same effects in the same order, and the same end, if there
is one. An arm that is dropped has a condition that is false, or stands behind
one that is true; a loop that is dropped has a condition that is false at once.
The marks of a switch stay where they are, so that it is entered at the same
statements.

What is constant is decided by the number as it is written, but the machine
decides by the word that the number is scaled to. The two differ for fixed-point
numbers so near to zero that they have no word of their own, and for some that
are too large for a word; a statement whose condition is folded to such a number
does something else than before.

Key definitions: `Meaning.Keeps`, `Meaning.Decides`, `Stmt.KeepsMeaning`.
Key theorems: `Stmt.run_fold`, `Stmt.runArms_fold`, `Stmt.runSwitch_fold`,
`fold_keeps_behaviour`.
-/
import RobotScript.Proofs.ElementOrder
import RobotScript.Proofs.Folded
import RobotScript.Proofs.Pairing
import RobotScript.Proofs.ProgramTypes

namespace RobotScript

variable {σ ω π : Type} {M : Meaning σ ω π} {result : Option Ty}

/-! ### Conversions -/

namespace Expr

theorem cast_void (e : Expr) : e.cast .void = e := if_pos (.inr (.inr (.inl rfl)))

theorem cast_cast (e : Expr) (ty : Ty) : (e.cast ty).cast ty = e.cast ty := by
  by_cases hsame : e.ty = ty ∨ ty = .undefined ∨ ty = .void ∨ e.ty = .void
  · have hcast : e.cast ty = e := if_pos hsame
    rw [hcast, hcast]
  · simp only [not_or] at hsame
    exact cast_self (cast_ty ⟨hsame.2.1, hsame.2.2.1⟩ hsame.2.2.2)

end Expr

/-- Converted to a type, the expression means the same before and after folding.
Nothing is converted to `void`. -/
def Meaning.Keeps (M : Meaning σ ω π) (e : Expr) (ty : Ty) : Prop :=
  ∀ e', e.fold = .ok e' → M.sense (e'.cast ty) = M.sense (e.cast ty)

theorem Meaning.Keeps.sense {e e' : Expr} (h : M.Keeps e .void) (hfold : e.fold = .ok e') :
    M.sense e' = M.sense e := by
  have hsense := h e' hfold
  rwa [Expr.cast_void, Expr.cast_void] at hsense

/-- A fixed-point number that a condition is folded to is zero just if its word
is. -/
def Meaning.Decides (M : Meaning σ ω π) (e : Expr) : Prop :=
  ∀ i f, e.fold = .ok (.fixed i f) → (f != 0.0) = (M.settings.scaled f != 0)

/-- A condition that is folded to a literal holds or does not as the literal says. -/
theorem Meaning.Decides.holds {e e' : Expr} {b : Bool} (h : M.Decides e) (hfold : e.fold = .ok e')
    (htruth : e'.truth? = some b) : (M.sense e').holds = pure b := by
  unfold Sense.holds
  cases e' with
  | number i n =>
    cases htruth
    rw [M.word_number, pure_bind]
  | fixed i f =>
    obtain rfl : (f != 0.0) = b := Option.some.inj htruth
    rw [M.word_fixed, pure_bind, h i f hfold]
  | _ => cases htruth

namespace Stmt

theorem given_fold? {α : Type} (f : Sense σ ω π → α) (a : α) {e e' : Option Expr}
    (h : fold? e = .ok e') (hkeeps : ∀ x ∈ e, M.Keeps x .void) : given M f a e' = given M f a e := by
  cases e with
  | none =>
    cases h
    rfl
  | some x =>
    obtain ⟨x', hx, h⟩ := bind_eq_ok.mp h
    cases h
    exact congrArg f ((hkeeps x rfl).sense hx)

theorem stride_foldStep {e e' : Option Expr} (h : foldStep e = .ok e')
    (hkeeps : ∀ x ∈ e, M.Keeps x .void) : stride M e' = stride M e := by
  obtain ⟨e1, he, h⟩ := bind_eq_ok.mp h
  have hsame : e' = e1 := by
    split at h
    · split at h
      · cases h
      · cases h
        rfl
    · cases h
      rfl
  rw [hsame]
  exact given_fold? _ _ he hkeeps

theorem test_of_truth {e e' : Option Expr} {b : Bool} (h : fold? e = .ok e') (hdecides : ∀ x ∈ e, M.Decides x)
    (htruth : e'.bind Expr.truth? = some b) : test M e' = pure b := by
  obtain ⟨x', rfl, hx'⟩ := Option.bind_eq_some_iff.mp htruth
  cases e with
  | none => cases h
  | some x =>
    obtain ⟨y, hfold, h⟩ := bind_eq_ok.mp h
    cases h
    exact (hdecides x rfl).holds hfold hx'

/-- A condition that is true can be left out. -/
theorem test_filter {e e' : Option Expr} (h : fold? e = .ok e') (hdecides : ∀ x ∈ e, M.Decides x) :
    test M (e'.filter (·.truth? != some true)) = test M e' := by
  cases e' with
  | none => rfl
  | some x =>
    by_cases hx : x.truth? = some true
    · rw [Option.filter_some, if_neg (by simp [hx]), test_of_truth h hdecides hx]
      rfl
    · rw [Option.filter_some, if_pos (by simp [hx])]

theorem map_sense_foldAll : ∀ {es es' : List Expr}, Expr.foldAll es = .ok es' → (∀ e ∈ es, M.Keeps e .void) →
    es'.map M.sense = es.map M.sense
  | [], es', h, _ => by
    rw [Expr.foldAll] at h
    cases h
    rfl
  | e :: es, es', h, hkeeps => by
    rw [Expr.foldAll] at h
    obtain ⟨e', he, h⟩ := bind_eq_ok.mp h
    obtain ⟨es1, hes, h⟩ := bind_eq_ok.mp h
    cases h
    rw [List.map_cons, List.map_cons, (hkeeps e List.mem_cons_self).sense he,
      map_sense_foldAll hes fun a ha => hkeeps a (List.mem_cons_of_mem _ ha)]

variable {e e' : Expr}

theorem int_foldInt (h : foldInt e = .ok e') (hkeeps : M.Keeps e .int) : int M e' = int M e := by
  obtain ⟨e1, he, h⟩ := bind_eq_ok.mp h
  cases h
  unfold int
  rw [Expr.cast_cast, hkeeps e1 he]

theorem runBlock_singleton (s : Stmt) : runBlock M result [s] = run M result s := by
  rw [runBlock, runBlock]
  exact Exit.seq_pure _

theorem runBlock_append (ss ts : List Stmt) :
    runBlock M result (ss ++ ts) = Exit.seq (runBlock M result ss) (runBlock M result ts) := by
  induction ss with
  | nil => rw [List.nil_append, runBlock, Exit.pure_seq]
  | cons s ss ih => rw [List.cons_append, runBlock, runBlock, ih, Exit.seq_assoc]

/-! ### Assignments of arrays -/

theorem steps_single (h : ¬isArrayAssignment e = true) : steps e = [e] := by
  unfold steps
  split
  · rw [if_pos (by simpa [isArrayAssignment] using h)]
  · rfl

theorem steps_of_fold (h : e.fold = .ok e') : steps e' = [e'] := by
  have hfolded : e'.IsFolded := ((Expr.fold_isFolded e).of_ok h).top
  apply steps_single
  cases e' with
  | op i o es =>
    by_cases ho : o = .assign
    · subst ho
      have hwords := hfolded.words rfl
      simpa [isArrayAssignment] using hwords
    · unfold isArrayAssignment
      split
      · rename_i heq
        exact (ho (Expr.op.inj heq).2.1).elim
      · exact Bool.false_ne_true
  | _ => exact Bool.false_ne_true

/-- A folded expression is run for its effect. -/
theorem run_expr {span : Span} (h : e.fold = .ok e') (hkeeps : M.Keeps e .void) :
    run M result (expr span e') = perform M [e] := by
  rw [run, steps_of_fold h]
  simp only [perform, hkeeps.sense h]

theorem perform_seq (e : Expr) (y : Behaviour σ (Visible ω) Exit) :
    Exit.seq (perform M [e]) y = (M.sense e).effect >>= fun _ => y := by
  rw [perform, perform, Exit.seq, bind_assoc]
  congr 1
  funext _
  exact pure_bind _ _

/-- Statements that expressions are folded to perform these. -/
theorem runBlock_folded {span : Span} {as es : List Expr} (h : List.Forall₂ (fun a e => Expr.fold a = .ok e) as es)
    (hkeeps : ∀ a ∈ as, M.Keeps a .void) : runBlock M result (es.map (expr span)) = perform M as := by
  induction h with
  | nil => rw [List.map_nil, runBlock, perform]
  | cons he _ ih =>
    rw [List.map_cons, runBlock, run_expr he (hkeeps _ List.mem_cons_self), perform_seq, perform,
      ih fun b hb => hkeeps b (List.mem_cons_of_mem _ hb)]

/-! ### The marks of a switch -/

theorem runSwitch_append {value : Cell} {otherwise : Behaviour σ (Visible ω) Exit} {ss : List Stmt} :
    ∀ {ts : List Stmt}, (∀ t ∈ ts, t.isMark = false) →
      runSwitch M result value otherwise (ts ++ ss) = runSwitch M result value otherwise ss
  | [], _ => rfl
  | t :: ts, h => by
    have ht : t.isMark = false := h t List.mem_cons_self
    have hrest : runSwitch M result value otherwise (ts ++ ss) = runSwitch M result value otherwise ss :=
      runSwitch_append fun a ha => h a (List.mem_cons_of_mem t ha)
    cases t with
    | case span e | default span => cases ht
    | _ =>
      rw [List.cons_append, runSwitch]
      · exact hrest
      all_goals nofun

/-- Folding makes no marks. -/
theorem fold_marks {s : Stmt} {ss : List Stmt} (h : fold result s = .ok ss) (hs : s.isMark = false) :
    ∀ t ∈ ss, t.isMark = false := by
  have hone : ∀ {x : Stmt}, x.isMark = false → ∀ t ∈ [x], t.isMark = false := fun hx t ht => by
    rwa [List.mem_singleton.mp ht]
  cases s with
  | case span e | default span => cases hs
  | expr span e =>
    rw [fold] at h
    split at h
    · rename_i harray
      obtain ⟨_, _, _, _, _, -, -, -, h⟩ := assignArray_eq_ok harray h
      obtain ⟨es, rfl, -⟩ := assignItems_eq_ok h
      intro t ht
      obtain ⟨e', -, rfl⟩ := List.mem_map.mp ht
      rfl
    · obtain ⟨e', -, h⟩ := bind_eq_ok.mp h
      cases h
      exact hone rfl
  | branch span arms =>
    rw [fold] at h
    obtain ⟨arms', -, h⟩ := bind_eq_ok.mp h
    cases h
    unfold ofArms
    split
    · rintro _ ⟨⟩
    · rintro _ ⟨⟩
    · exact hone rfl
    · exact hone rfl
  | whileLoop span tag cond body =>
    rw [fold] at h
    obtain ⟨body', -, h⟩ := bind_eq_ok.mp h
    obtain ⟨cond', -, h⟩ := bind_eq_ok.mp h
    split at h
    · cases h
      split
      · exact hone rfl
      · rintro _ ⟨⟩
    all_goals
      cases h
      exact hone rfl
  | ret span value =>
    cases value with
    | none =>
      rw [fold] at h
      cases h
      exact hone rfl
    | some e =>
      rw [fold] at h
      obtain ⟨e', -, h⟩ := bind_eq_ok.mp h
      cases h
      exact hone rfl
  | _ =>
    rw [fold] at h
    repeat obtain ⟨_, -, h⟩ := bind_eq_ok.mp h
    cases h
    exact hone rfl

/-! ### Statements -/

/-- The expressions in a statement itself, of a routine with a given result type,
mean the same before and after folding, converted as the statement asks. -/
def KeepsMeaning (M : Meaning σ ω π) (result : Option Ty) : Stmt → Prop
  | expr _ e => ∀ a ∈ steps e, M.Keeps a .void
  | branch _ arms => ∀ e ∈ arms.conditions, M.Keeps e .void
  | whenever _ e _ | doWhile _ _ _ e => M.Keeps e .void
  | whileLoop _ _ cond _ => ∀ e ∈ cond, M.Keeps e .void
  | rangeFor _ _ _ first last step _ =>
    M.Keeps first .int ∧ M.Keeps last .int ∧ ∀ e ∈ step, M.Keeps e .void
  | forLoop _ _ _ cond step _ => (∀ e ∈ cond, M.Keeps e .void) ∧ ∀ e ∈ step, M.Keeps e .void
  | switch _ _ e _ | case _ e => M.Keeps e .int
  | native _ _ args => ∀ e ∈ args, M.Keeps e .void
  | emit _ _ value => ∀ e ∈ value, M.Keeps e .void
  | ret _ value => ∀ e ∈ value, M.Keeps e (result.getD .void)
  | varDecl _ _ | constDecl _ _ _ | default _ | block _ _ | label _ _ | goto _ _ | exit _ _ _
  | callSub _ _ | empty _ => True

/-- The conditions by which folding decides what to drop. -/
def tests : Stmt → List Expr
  | branch _ arms => arms.conditions
  | whileLoop _ _ cond _ | forLoop _ _ _ cond _ _ => cond.toList
  | _ => []

/-- The sizes of arrays that are assigned are the ones there are. -/
def IsSized : Stmt → Prop
  | expr _ e => isArrayAssignment e = true → ∀ a ∈ e.operands, a.IsSized
  | _ => True

/-- What is asked of a statement for folding to keep what it does. -/
structure Kept (M : Meaning σ ω π) (result : Option Ty) (s : Stmt) : Prop where
  keeps : s.KeepsMeaning M result
  decides : ∀ e ∈ s.tests, M.Decides e
  sized : s.IsSized

/-- It holds of all the statements. -/
def AllKept (M : Meaning σ ω π) (result : Option Ty) (ss : List Stmt) : Prop := ∀ s ∈ ss, s.Kept M result

theorem AllKept.left {ss ts : List Stmt} (h : AllKept M result (ss ++ ts)) : AllKept M result ss :=
  fun s hs => h s (List.mem_append_left _ hs)

theorem AllKept.right {ss ts : List Stmt} (h : AllKept M result (ss ++ ts)) : AllKept M result ts :=
  fun s hs => h s (List.mem_append_right _ hs)

theorem runBlock_ofArms (span : Span) (arms : Arms) :
    runBlock M result (ofArms span arms) = runArms M result arms := by
  unfold ofArms
  split
  · rw [runBlock, runArms]
  · rw [runArms]
  · rw [runBlock_singleton, run, runArms]
  · rw [runBlock_singleton, run]

mutual

theorem run_fold : ∀ (s : Stmt) {ss : List Stmt}, fold result s = .ok ss →
    s.Kept M result → AllKept M result s.inner → runBlock M result ss = run M result s
  | expr span e, ss, h, ⟨hkeeps, _, hsized⟩, _ => by
    rw [fold] at h
    rw [run]
    split at h
    · rename_i harray
      obtain ⟨es, rfl, hes⟩ := steps_folded harray (hsized harray) h
      exact runBlock_folded hes hkeeps
    · rename_i harray
      obtain ⟨e', he, h⟩ := bind_eq_ok.mp h
      cases h
      have hsteps : steps e = [e] := steps_single harray
      have hself : M.Keeps e .void := hkeeps e (hsteps ▸ List.mem_cons_self)
      rw [runBlock_singleton, run_expr he hself, hsteps]
  | branch span arms, ss, h, ⟨hkeeps, hdecides, _⟩, hinner => by
    rw [fold] at h
    obtain ⟨arms', harms, h⟩ := bind_eq_ok.mp h
    cases h
    rw [runBlock_ofArms, run]
    exact runArms_fold arms harms hkeeps hdecides hinner
  | whenever span cond body, ss, h, ⟨hkeeps, _, _⟩, hinner => by
    rw [fold] at h
    obtain ⟨cond', hcond, h⟩ := bind_eq_ok.mp h
    obtain ⟨body', hbody, h⟩ := bind_eq_ok.mp h
    cases h
    rw [runBlock_singleton, run, run, hkeeps.sense hcond,
      runBlock_fold body hbody hinner]
  | whileLoop span tag cond body, ss, h, ⟨hkeeps, hdecides, _⟩, hinner => by
    rw [fold] at h
    obtain ⟨body', hbody, h⟩ := bind_eq_ok.mp h
    obtain ⟨cond', hcond, h⟩ := bind_eq_ok.mp h
    have hblock := runBlock_fold body hbody hinner
    have htest : test M cond' = test M cond := given_fold? _ _ hcond hkeeps
    have hdecides : ∀ e ∈ cond, M.Decides e := fun e he => hdecides e (Option.mem_toList.mpr he)
    have hkept : runBlock M result [whileLoop span tag cond' body'] =
        run M result (whileLoop span tag cond body) := by
      rw [runBlock_singleton, run, run, htest, hblock]
    split at h
    · rename_i hfalse
      cases h
      split
      · exact hkept
      · rw [run, ← htest, test_of_truth hcond hdecides hfalse, Exit.loop_false, runBlock]
    · rename_i htrue
      cases h
      rw [runBlock_singleton, run, run, ← htest, test_of_truth hcond hdecides htrue, hblock]
      rfl
    · cases h
      exact hkept
  | doWhile span tag body cond, ss, h, ⟨hkeeps, _, _⟩, hinner => by
    rw [fold] at h
    obtain ⟨body', hbody, h⟩ := bind_eq_ok.mp h
    obtain ⟨cond', hcond, h⟩ := bind_eq_ok.mp h
    cases h
    rw [runBlock_singleton, run, run, hkeeps.sense hcond,
      runBlock_fold body hbody hinner]
  | rangeFor span tag var first last step body, ss, h, ⟨hkeeps, _, _⟩, hinner => by
    rw [fold] at h
    obtain ⟨step', hstep, h⟩ := bind_eq_ok.mp h
    obtain ⟨first', hfirst, h⟩ := bind_eq_ok.mp h
    obtain ⟨last', hlast, h⟩ := bind_eq_ok.mp h
    obtain ⟨body', hbody, h⟩ := bind_eq_ok.mp h
    cases h
    obtain ⟨hkeeps1, hkeeps2, hkeeps3⟩ := hkeeps
    rw [runBlock_singleton, run, run, stride_foldStep hstep hkeeps3, int_foldInt hfirst hkeeps1,
      int_foldInt hlast hkeeps2, runBlock_fold body hbody hinner]
  | forLoop span tag init cond step body, ss, h, ⟨hkeeps, hdecides, _⟩, hinner => by
    rw [fold] at h
    obtain ⟨cond', hcond, h⟩ := bind_eq_ok.mp h
    obtain ⟨init', hinit, h⟩ := bind_eq_ok.mp h
    obtain ⟨step', hstep, h⟩ := bind_eq_ok.mp h
    obtain ⟨body', hbody, h⟩ := bind_eq_ok.mp h
    cases h
    have htest : test M cond' = test M cond := given_fold? _ _ hcond hkeeps.1
    have hnext : Stmt.step M step' = Stmt.step M step := given_fold? _ _ hstep hkeeps.2
    have hfilter := test_filter hcond fun e he => hdecides e (Option.mem_toList.mpr he)
    rw [runBlock_singleton, run, run, hfilter, htest, hnext,
      runBlock_fold init hinit (AllKept.left hinner), runBlock_fold body hbody (AllKept.right hinner)]
  | switch span tag subject body, ss, h, ⟨hkeeps, _, _⟩, hinner => by
    rw [fold] at h
    obtain ⟨subject', hsubject, h⟩ := bind_eq_ok.mp h
    obtain ⟨body', hbody, h⟩ := bind_eq_ok.mp h
    cases h
    have hbodies : ∀ value, runSwitch M result value (pure .normal) body' =
        runSwitch M result value (pure .normal) body :=
      fun value => runSwitch_fold value body hbody hinner
    rw [runBlock_singleton, run, run, int_foldInt hsubject hkeeps]
    simp only [hbodies]
  | case span value, ss, h, _, _ => by
    rw [fold] at h
    obtain ⟨value', hvalue, h⟩ := bind_eq_ok.mp h
    split at h
    · cases h
    · cases h
      rw [runBlock_singleton, run, run]
  | block span body, ss, h, _, hinner => by
    rw [fold] at h
    obtain ⟨body', hbody, h⟩ := bind_eq_ok.mp h
    cases h
    rw [runBlock_singleton, run, run]
    exact runBlock_fold body hbody hinner
  | native span name args, ss, h, ⟨hkeeps, _, _⟩, _ => by
    rw [fold] at h
    obtain ⟨args', hargs, h⟩ := bind_eq_ok.mp h
    cases h
    rw [runBlock_singleton, run, run, map_sense_foldAll hargs hkeeps]
  | emit span event value, ss, h, ⟨hkeeps, _, _⟩, _ => by
    rw [fold] at h
    obtain ⟨value', hvalue, h⟩ := bind_eq_ok.mp h
    cases h
    have hwords : words M value' = words M value := given_fold? _ _ hvalue hkeeps
    rw [runBlock_singleton, run, run, hwords]
  | ret span value, ss, h, ⟨hkeeps, _, _⟩, _ => by
    cases value with
    | none =>
      rw [fold] at h
      cases h
      exact runBlock_singleton _
    | some e =>
      rw [fold] at h
      obtain ⟨e', he, h⟩ := bind_eq_ok.mp h
      cases h
      have hcast : M.sense ((e'.cast (result.getD e'.ty)).cast
          (result.getD (e'.cast (result.getD e'.ty)).ty)) = M.sense (e.cast (result.getD e.ty)) := by
        cases result with
        | none =>
          simp only [Option.getD_none, Expr.cast_self]
          exact (hkeeps e rfl).sense he
        | some ty =>
          simp only [Option.getD_some, Expr.cast_cast]
          exact hkeeps e rfl e' he
      rw [runBlock_singleton, run, run]
      simp only [hcast]
  | varDecl _ _, ss, h, _, _ | constDecl _ _ _, ss, h, _, _ | default _, ss, h, _, _ | label _ _, ss, h, _, _
  | goto _ _, ss, h, _, _ | exit _ _ _, ss, h, _, _ | callSub _ _, ss, h, _, _ | empty _, ss, h, _, _ => by
    rw [fold] at h
    cases h
    exact runBlock_singleton _

/-- The arms that are left do what all arms do. -/
theorem runArms_fold : ∀ (arms : Arms) {kept : Bool} {arms' : Arms}, foldArms result kept arms = .ok arms' →
    (∀ e ∈ arms.conditions, M.Keeps e .void) → (∀ e ∈ arms.conditions, M.Decides e) →
    AllKept M result arms.inner → runArms M result arms' = runArms M result arms
  | .done, kept, arms', h, _, _, _ => by
    rw [foldArms] at h
    cases h
    rfl
  | .otherwise body, kept, arms', h, _, _, hinner => by
    rw [foldArms] at h
    obtain ⟨body', hbody, h⟩ := bind_eq_ok.mp h
    cases h
    rw [runArms, runArms, runBlock_fold body hbody hinner]
  | .arm span cond body rest, kept, arms', h, hkeeps, hdecides, hinner => by
    rw [foldArms] at h
    obtain ⟨cond', hcond, h⟩ := bind_eq_ok.mp h
    obtain ⟨body', hbody, h⟩ := bind_eq_ok.mp h
    have hsense : M.sense cond' = M.sense cond := (hkeeps cond List.mem_cons_self).sense hcond
    have hholds : ∀ {b : Bool}, cond'.truth? = some b → (M.sense cond).holds = pure b := fun hb => by
      rw [← hsense, (hdecides cond List.mem_cons_self).holds hcond hb]
    have hblock := runBlock_fold body hbody (AllKept.left hinner)
    have hrest : ∀ {kept' : Bool} {rest' : Arms}, foldArms result kept' rest = .ok rest' →
        runArms M result rest' = runArms M result rest := fun hfold =>
      runArms_fold rest hfold (fun e he => hkeeps e (List.mem_cons_of_mem _ he))
        (fun e he => hdecides e (List.mem_cons_of_mem _ he)) (AllKept.right hinner)
    -- the arm stays where it is
    have hkept : ∀ {kept' : Bool} {rest' : Arms}, foldArms result kept' rest = .ok rest' →
        runArms M result (.arm span cond' body' rest') = runArms M result (.arm span cond body rest) := by
      intro kept' rest' hfold
      rw [runArms, runArms, hsense, hblock, hrest hfold]
    split at h
    · rename_i hfalse _
      rw [hrest h, runArms, hholds hfalse, pure_bind, if_neg Bool.false_ne_true]
    · rename_i htrue _
      split at h
      · obtain ⟨rest', hfold, h⟩ := bind_eq_ok.mp h
        cases h
        exact hkept hfold
      · cases h
        rw [runArms, runArms, hholds htrue, pure_bind, if_pos rfl, hblock]
    · obtain ⟨rest', hfold, h⟩ := bind_eq_ok.mp h
      cases h
      exact hkept hfold

theorem runBlock_fold : ∀ (ss : List Stmt) {ss' : List Stmt}, foldBlock result ss = .ok ss' →
    AllKept M result (within ss) → runBlock M result ss' = runBlock M result ss
  | [], ss', h, _ => by
    rw [foldBlock] at h
    cases h
    rfl
  | s :: ss, ss', h, hkept => by
    rw [foldBlock] at h
    obtain ⟨first, hfirst, h⟩ := bind_eq_ok.mp h
    obtain ⟨rest, hrest, h⟩ := bind_eq_ok.mp h
    cases h
    have hs : AllKept M result (s :: s.inner) := AllKept.left hkept
    rw [runBlock_append, runBlock, run_fold s hfirst (hs s List.mem_cons_self)
      (fun t ht => hs t (List.mem_cons_of_mem _ ht)), runBlock_fold ss hrest (AllKept.right hkept)]

/-- The body of a switch is entered at the same statement. -/
theorem runSwitch_fold (value : Cell) : ∀ (ss : List Stmt) {ss' : List Stmt}
    {otherwise : Behaviour σ (Visible ω) Exit}, foldBlock result ss = .ok ss' → AllKept M result (within ss) →
    runSwitch M result value otherwise ss' = runSwitch M result value otherwise ss
  | [], ss', otherwise, h, _ => by
    rw [foldBlock] at h
    cases h
    rfl
  | s :: ss, ss', otherwise, h, hkept => by
    rw [foldBlock] at h
    obtain ⟨first, hfirst, h⟩ := bind_eq_ok.mp h
    obtain ⟨rest, hrest, h⟩ := bind_eq_ok.mp h
    cases h
    have hs : AllKept M result (s :: s.inner) := AllKept.left hkept
    have hblock := runBlock_fold ss hrest (AllKept.right hkept)
    have hswitch : ∀ otherwise, runSwitch M result value otherwise rest =
        runSwitch M result value otherwise ss :=
      fun otherwise => runSwitch_fold value ss hrest (AllKept.right hkept)
    cases hmark : s.isMark with
    | true =>
      cases s with
      | case span e =>
        rw [fold] at hfirst
        obtain ⟨e', he, hfirst⟩ := bind_eq_ok.mp hfirst
        split at hfirst
        · cases hfirst
        · cases hfirst
          have hint : int M e' = int M e := int_foldInt he (hs _ List.mem_cons_self).keeps
          rw [List.singleton_append, runSwitch, runSwitch, hint, hblock, hswitch]
      | default span =>
        rw [fold] at hfirst
        cases hfirst
        rw [List.singleton_append, runSwitch, runSwitch, hblock, hswitch]
      | _ => cases hmark
    | false =>
      rw [runSwitch_append (fold_marks hfirst hmark), hswitch]
      have hone : ∀ t ∈ [s], t.isMark = false := by simpa using hmark
      exact (runSwitch_append hone).symm

end

end Stmt

/-- Statements behave the same before and after folding, if their expressions
mean the same and no condition is folded to a number whose word is zero though
it is not: from every state they perform the same effects, events among them,
and end, if they do, with the same exit in the same state. -/
theorem fold_keeps_behaviour {ss ss' : List Stmt} (hfold : Stmt.foldBlock result ss = .ok ss')
    (hkeeps : ∀ s ∈ Stmt.within ss, s.KeepsMeaning M result)
    (hdecides : ∀ s ∈ Stmt.within ss, ∀ e ∈ s.tests, M.Decides e)
    (hsized : ∀ s ∈ Stmt.within ss, s.IsSized) (m : σ) :
    (∀ effects, (Stmt.runBlock M result ss').performs m effects ↔
      (Stmt.runBlock M result ss).performs m effects) ∧
    ∀ effects exit m', (Stmt.runBlock M result ss').ends m effects exit m' ↔
      (Stmt.runBlock M result ss).ends m effects exit m' := by
  have hsame := Stmt.runBlock_fold ss hfold fun s hs => ⟨hkeeps s hs, hdecides s hs, hsized s hs⟩
  rw [hsame]
  exact ⟨fun _ => Iff.rfl, fun _ _ _ => Iff.rfl⟩

/-- The value of an expression over words at fixed addresses, or its fault as
the last effect. -/
def Meaning.valued {α : Type} (e : Expr) (f : Cell → α) :
    Behaviour (Nat → Cell) (Visible ((Nat × Cell) ⊕ ValueFault)) α :=
  .act fun m => match e.eval fun s k => m (s.offset + k) with
    | .ok v => ([], some (f v, m))
    | .error fault => ([.other (.inr fault)], none)

/-- A word is written, which is seen. -/
def Meaning.written (k : Nat) (v : Cell) :
    Behaviour (Nat → Cell) (Visible ((Nat × Cell) ⊕ ValueFault)) Unit :=
  .act fun m => ([.other (.inl (k, v))], some ((), fun j => if j = k then v else m j))

/-- The word of a variable, or of an element with constant indices. -/
def Meaning.address? : Expr → Option Nat
  | .var _ ⟨_, some s⟩ => some s.offset
  | .index _ ⟨_, some s⟩ es =>
    (es.mapM Expr.number?).map fun ks => s.offset + storagePosition s.dims (ks.map (·.toInt.toNat))
  | _ => none

/-- Expressions over words at fixed addresses, with assignments to words that are
known. -/
def Meaning.ofWords : Meaning (Nat → Cell) ((Nat × Cell) ⊕ ValueFault) Nat where
  settings := ⟨.l2, Settings.defaultFactor, []⟩
  sense e :=
    { word := match e with
        | .fixed _ f => pure (Settings.scaled ⟨.l2, Settings.defaultFactor, []⟩ f)
        | e => valued e id
      words := valued e ([·])
      effect := match e with
        | .op _ .assign [target, value] => match address? target with
          | some k => valued value id >>= written k
          | none => valued e fun _ => ()
        | e => valued e fun _ => ()
      place := match address? e with
        | some k => pure k
        | none => valued e (·.toInt.toNat) }
  load k := .act fun m => ([], some (m k, m))
  store := written
  starts _ now := pure now
  native _ _ := pure ()
  callSub _ := pure ()
  word_number _ n := Behaviour.act_value n
  word_fixed _ _ := rfl

/-- Of `a = [1, 2, 3, 4]; while (0) x = 1; if (1 - 1) emit a; else if (x) emit b;
else if (1) emit c; else emit d;` with two rows and columns in `a`, the loop and
the first arm are dropped, and the arms behind the second stay. -/
theorem fold_keeps_behaviour_arms : ∃ ss words arms,
    Stmt.foldBlock none ss = .ok (words ++ [.branch default arms]) ∧ words.length = 4 ∧ arms.conditions.length = 2 ∧
    ∀ m, (∀ effects, (Stmt.runBlock Meaning.ofWords none (words ++ [.branch default arms])).performs m effects ↔
      (Stmt.runBlock Meaning.ofWords none ss).performs m effects) ∧
    ∀ effects exit m', (Stmt.runBlock Meaning.ofWords none (words ++ [.branch default arms])).ends m effects exit m' ↔
      (Stmt.runBlock Meaning.ofWords none ss).ends m effects exit m' := by
  let num : Info := .scalar default .int
  let x : Expr := .var num ⟨"x", some ⟨0, [], .int, .absolute⟩⟩
  let table : Variable := ⟨"a", some ⟨1, [2, 2], .int, .absolute⟩⟩
  let literal (n : Cell) : Expr := .int n default
  let rows : Expr := .array ⟨default, .int, [4]⟩ [literal 1, literal 2, literal 3, literal 4]
  let fill : Expr := .op num .assign [.var ⟨default, .int, [2, 2]⟩ table, rows]
  let set (ks : List Cell) (n : Cell) : Expr := .op num .assign [.index num table (ks.map literal), literal n]
  let difference : Expr := .op num (.binary .sub) [literal 1, literal 1]
  let assign : Expr := .op num .assign [x, literal 1]
  let send (name : String) : List Stmt := [.emit default name none]
  let others : Arms := .arm default x (send "b") (.arm default (literal 1) (send "c") (.otherwise (send "d")))
  let words : List Stmt := [set [0] 1, set [1] 2, set [2] 3, set [3] 4].map (.expr default)
  let ss : List Stmt :=
    [.expr default fill, .whileLoop default none (some (literal 0)) [.expr default assign],
      .branch default (.arm default difference (send "a") others)]
  have hfold : Stmt.foldBlock none ss = .ok (words ++ [.branch default others]) := rfl
  have hkeeps : ∀ e e' : Expr, e.fold = .ok e' → Meaning.ofWords.sense e' = Meaning.ofWords.sense e →
      Meaning.ofWords.Keeps e .void := by
    intro e e' he hsense a ha
    obtain rfl : e' = a := Except.ok.inj (he.symm.trans ha)
    rw [Expr.cast_void, Expr.cast_void, hsense]
  have hdifference : Meaning.ofWords.sense (literal 0) = Meaning.ofWords.sense difference := by
    have hvalued : ∀ {α : Type} (f : Cell → α), Meaning.valued (literal 0) f = Meaning.valued difference f :=
      fun f => rfl
    show Sense.mk _ _ _ _ = Sense.mk _ _ _ _
    simp only [hvalued]
    rfl
  have hwithin : Stmt.within ss = [.expr default fill,
      .whileLoop default none (some (literal 0)) [.expr default assign], .expr default assign,
      .branch default (.arm default difference (send "a") others), .emit default "a" none,
      .emit default "b" none, .emit default "c" none, .emit default "d" none] := rfl
  refine ⟨ss, words, others, hfold, rfl, rfl, fold_keeps_behaviour hfold ?_ ?_ ?_⟩ <;>
    rw [hwithin] <;> simp only [List.forall_mem_cons]
  · have hfill : ∀ e ∈ [set [0, 0] 1, set [1, 0] 2, set [0, 1] 3, set [1, 1] 4],
        Meaning.ofWords.Keeps e .void := by
      simp only [List.forall_mem_cons]
      exact ⟨hkeeps _ (set [0] 1) rfl rfl, hkeeps _ (set [1] 2) rfl rfl,
        hkeeps _ (set [2] 3) rfl rfl, hkeeps _ (set [3] 4) rfl rfl, by simp⟩
    have hassign : ∀ e ∈ [assign], Meaning.ofWords.Keeps e .void := by
      simp only [List.forall_mem_cons]
      exact ⟨hkeeps _ assign rfl rfl, by simp⟩
    have hconditions : ∀ e ∈ [difference, x, literal 1], Meaning.ofWords.Keeps e .void := by
      simp only [List.forall_mem_cons]
      exact ⟨hkeeps _ _ rfl hdifference, hkeeps _ x rfl rfl, hkeeps _ (literal 1) rfl rfl, by simp⟩
    have hsent : ∀ name, (Stmt.emit default name none).KeepsMeaning Meaning.ofWords none := by
      rintro name e ⟨⟩
    refine ⟨hfill, ?_, hassign, hconditions, hsent _, hsent _, hsent _, hsent _, by simp⟩
    rintro e ⟨⟩
    exact hkeeps _ (literal 0) rfl rfl
  · have hnumber : ∀ e i n, e.fold = .ok (.number i n) → Meaning.ofWords.Decides e := by
      intro e i n he i' f hf
      cases he.symm.trans hf
    have hvar : Meaning.ofWords.Decides x := by
      intro i f hf
      cases hf
    have hnone : ∀ e ∈ ([] : List Expr), Meaning.ofWords.Decides e := by simp
    refine ⟨hnone, ?_, hnone, ?_, hnone, hnone, hnone, hnone, by simp⟩
    · intro e he
      rw [List.mem_singleton.mp he]
      exact hnumber _ _ _ rfl
    · have hconditions : ∀ e ∈ [difference, x, literal 1], Meaning.ofWords.Decides e := by
        simp only [List.forall_mem_cons]
        exact ⟨hnumber _ _ _ rfl, hvar, hnumber _ _ _ rfl, hnone⟩
      exact hconditions
  · have hfill : ∀ a ∈ fill.operands, a.IsSized := by
      have hall : ∀ a ∈ [.var ⟨default, .int, [2, 2]⟩ table, rows], a.IsSized := by
        simp only [List.forall_mem_cons]
        exact ⟨⟨_, rfl, rfl, by decide⟩, rfl, by simp⟩
      exact hall
    exact ⟨fun _ => hfill, trivial, by rintro ⟨⟩, trivial, trivial, trivial, trivial, trivial, by simp⟩

end RobotScript
