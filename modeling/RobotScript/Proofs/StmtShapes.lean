/-
# Shapes of statements

What a stage promises of expressions it promises of all expressions in the
statements of a routine. The counter of a loop over a range is a name as it is
read, and stays one unless it is that of a constant. A value is returned only
where one is expected. Types and folding carry a promise along all statements
once they carry it along expressions.

Key definitions: `Stmt.Promise`, `Stmt.Keeps`, `Stmt.Types`, `Stmt.Folds`, `Expr.Counter`.
Key theorems: `Stmt.Types.block_ends`, `Stmt.typedBlock_ends`, `Stmt.Folds.block_ends`,
`Stmt.foldBlock_ends`.
-/
import RobotScript.Proofs.Shapes
import RobotScript.Stmt.Folding
import RobotScript.Stmt.Typing

namespace RobotScript

/-- The name of a variable `V` at a place `P`, or the number that a constant
stands for. -/
def Expr.Counter (P : Span → Prop) (V : Variable → Prop) : Expr → Prop
  | .var info v => P info.span ∧ V v
  | .number info _ => P info.span ∧ info.dims = []
  | _ => False

/-- What a stage promises of the parts of statements. -/
structure Stmt.Promise where
  place : Span → Prop
  value : Expr → Prop
  /-- Of the counter of a loop over a range. -/
  counter : Expr → Prop
  /-- Of sizes, initial values and constants in declarations. -/
  declared : Expr → Prop
  /-- Of values that are returned. -/
  returned : Expr → Prop
  /-- Of calls of subroutines. -/
  sub : Prop

mutual

/-- The promise is kept by all parts of a statement. -/
def Stmt.Keeps (p : Stmt.Promise) : Stmt → Prop
  | .varDecl span d =>
    p.place span ∧ (∀ e, some e ∈ d.dims → p.declared e) ∧ (∀ e, d.init = some e → p.declared e) ∧
      d.ty.IsValue
  | .constDecl span _ e => p.place span ∧ p.declared e
  | .expr span e | .case span e => p.place span ∧ p.value e
  | .branch span arms => p.place span ∧ arms.Keeps p
  | .whenever span cond body | .doWhile span _ body cond | .switch span _ cond body =>
    p.place span ∧ p.value cond ∧ Stmt.AllKeep p body
  | .whileLoop span _ cond body =>
    p.place span ∧ (∀ e, cond = some e → p.value e) ∧ Stmt.AllKeep p body
  | .rangeFor span _ var first last step body =>
    p.place span ∧ p.counter var ∧ p.value first ∧ p.value last ∧
      (∀ e, step = some e → p.value e) ∧ Stmt.AllKeep p body
  | .forLoop span _ init cond step body =>
    p.place span ∧ Stmt.AllKeep p init ∧ (∀ e, cond = some e → p.value e) ∧
      (∀ e, step = some e → p.value e) ∧ Stmt.AllKeep p body
  | .block span body => p.place span ∧ Stmt.AllKeep p body
  | .native span _ args => p.place span ∧ ∀ e ∈ args, p.value e
  | .emit span _ value => p.place span ∧ ∀ e, value = some e → p.value e
  | .ret span value => p.place span ∧ ∀ e, value = some e → p.returned e
  | .callSub span _ => p.place span ∧ p.sub
  | .default span | .label span _ | .goto span _ | .exit span _ _ | .empty span => p.place span

/-- The promise is kept by all parts of arms. -/
def Arms.Keeps (p : Stmt.Promise) : Arms → Prop
  | .done => True
  | .otherwise body => Stmt.AllKeep p body
  | .arm span cond body rest => p.place span ∧ p.value cond ∧ Stmt.AllKeep p body ∧ rest.Keeps p

/-- The promise is kept by all statements. -/
def Stmt.AllKeep (p : Stmt.Promise) : List Stmt → Prop
  | [] => True
  | s :: ss => s.Keeps p ∧ Stmt.AllKeep p ss

end

namespace Stmt

/-- The result type of a routine is that of a value. -/
def ReturnsValue (ret : Option Ty) : Prop := ∃ ty, ret = some ty ∧ ty.IsValue

namespace Promise

variable (P : Span → Prop) (ret : Option Ty)

/-- Of statements as they are read. -/
def written : Promise :=
  let tree := Expr.Tree P fun _ => True
  ⟨P, tree, Expr.Counter P fun _ => True, tree, tree, True⟩

/-- Of statements with storage, in a routine with a result type: declarations
have said what they had to. -/
def bound : Promise :=
  ⟨P, Expr.Tree P Variable.Held, Expr.Counter P Variable.Held, fun _ => False,
    fun e => ReturnsValue ret ∧ e.Tree P Variable.Held, True⟩

/-- Of statements behind the types, in a routine with a result type. -/
def typed : Promise :=
  ⟨P, Expr.Typed P, fun e => e.Counter P Variable.Stored ∧ e.Typed P, fun _ => False,
    fun e => ReturnsValue ret ∧ e.Operand P .word, True⟩

/-- Of statements behind folding. -/
def ready : Promise :=
  ⟨P, Expr.Ready P 0, Expr.Counter P Variable.Stored, fun _ => False, Expr.Ready P 0, True⟩

end Promise

variable {P : Span → Prop} {p : Promise} {ret : Option Ty}

theorem allKeep_iff {ss : List Stmt} : AllKeep p ss ↔ ∀ s ∈ ss, s.Keeps p := by
  induction ss with
  | nil => simp [AllKeep]
  | cons s ss ih => simp [AllKeep, ih]

theorem allKeep_append {ss ts : List Stmt} : AllKeep p (ss ++ ts) ↔ AllKeep p ss ∧ AllKeep p ts := by
  simp only [allKeep_iff, List.mem_append, or_imp, forall_and]

/-! ### Types -/

/-- Types turn expressions that keep the promise `p` into such that keep `q`,
or the failure is `fair`. -/
structure Types (fair : CompileError → Prop) (c : Calls) (p q : Promise) : Prop where
  place : ∀ {span : Span}, p.place span → q.place span
  value : ∀ {e : Expr}, p.value e → Ends fair q.value (e.typed c)
  operand : ∀ {e : Expr} (kind : Op.Operand), q.value e → Ends fair q.value (e.asOperand kind)
  /-- The arguments of a call keep the promise if the call does. -/
  args : ∀ {i : Info} {name : String} {args : List Expr}, p.value (.call i name none args) →
    ∀ e ∈ args, p.value e
  counter : ∀ {e : Expr}, p.counter e → Ends fair q.counter (typedCounter c e)
  returned : ∀ {e : Expr}, p.returned e → Ends fair q.returned (e.typedWord c)
  declared : ∀ {e : Expr}, p.declared e → q.declared e
  sub : p.sub → q.sub

namespace Types

variable {fair : CompileError → Prop} {c : Calls} {q : Promise} (ht : Types fair c p q)
include ht

theorem word_ends {e : Expr} (h : p.value e) : Ends fair q.value (e.typedWord c) :=
  (ht.value h).bind fun _ he => ht.operand .word he

theorem value_ends {e : Expr} (h : p.value e) : Ends fair q.value (e.typedValue c) :=
  (ht.value h).bind fun _ he => ht.operand .value he

theorem word?_ends {value : Option Expr} (h : ∀ e, value = some e → p.value e) :
    Ends fair (fun r => ∀ e, r = some e → q.value e) (typedWord? c value) := by
  cases value with
  | none => exact Ends.pure nofun
  | some e =>
    refine (ht.word_ends (h e rfl)).bind fun e' he' => Ends.pure ?_
    rintro _ ⟨⟩
    exact he'

theorem args_ends {kind : Op.Operand} : ∀ {args : List Expr}, (∀ e ∈ args, p.value e) →
    Ends fair (fun r => ∀ e ∈ r, q.value e) (Expr.typedAll c kind args)
  | [], _ => Ends.pure nofun
  | e :: es, h => by
    rw [Expr.typedAll]
    refine (ht.value (h e List.mem_cons_self)).bind fun e he => ?_
    refine (ht.operand kind he).bind fun e' he' => ?_
    refine (args_ends fun a ha => h a (List.mem_cons_of_mem _ ha)).bind fun es' hes' => ?_
    exact Ends.pure (List.forall_mem_cons.mpr ⟨he', hes'⟩)

theorem expr_ends {span : Span} {e : Expr} (hspan : p.place span) (h : p.value e) :
    Ends fair (Keeps q) (typedExpr c span e) := by
  have hplain : Ends fair (Keeps q) (do return expr span (← e.typed c)) :=
    (ht.value h).bind fun e' he' => Ends.pure ⟨ht.place hspan, he'⟩
  unfold typedExpr
  split
  · split
    · exact (ht.args_ends (ht.args h)).bind fun args hargs => Ends.pure ⟨ht.place hspan, hargs⟩
    · exact hplain
  · exact hplain

omit ht

mutual

/-- Types keep the promise along a statement. -/
theorem stmt_ends (ht : Types fair c p q) : ∀ s : Stmt, s.Keeps p → Ends fair (Keeps q) (s.typed c)
  | .expr span e, h => ht.expr_ends h.1 h.2
  | .branch span arms, h =>
    (ht.arms_ends arms h.2).bind fun arms harms => Ends.pure ⟨ht.place h.1, harms⟩
  | .whenever span cond body, h =>
    (ht.word_ends h.2.1).bind fun cond hcond =>
      (ht.block_ends body h.2.2).bind fun body hbody => Ends.pure ⟨ht.place h.1, hcond, hbody⟩
  | .whileLoop span tag cond body, h =>
    (ht.word?_ends h.2.1).bind fun cond hcond =>
      (ht.block_ends body h.2.2).bind fun body hbody => Ends.pure ⟨ht.place h.1, hcond, hbody⟩
  | .doWhile span tag body cond, h =>
    (ht.block_ends body h.2.2).bind fun body hbody =>
      (ht.word_ends h.2.1).bind fun cond hcond => Ends.pure ⟨ht.place h.1, hcond, hbody⟩
  | .rangeFor span tag var first last step body, h =>
    (ht.counter h.2.1).bind fun var hvar =>
      (ht.word_ends h.2.2.1).bind fun first hfirst =>
        (ht.word_ends h.2.2.2.1).bind fun last hlast =>
          (ht.word?_ends h.2.2.2.2.1).bind fun step hstep =>
            (ht.block_ends body h.2.2.2.2.2).bind fun body hbody =>
              Ends.pure ⟨ht.place h.1, hvar, hfirst, hlast, hstep, hbody⟩
  | .forLoop span tag init cond step body, h => by
    unfold typed
    refine (ht.block_ends init h.2.1).bind fun init hinit => ?_
    refine (ht.word?_ends h.2.2.1).bind fun cond hcond => ?_
    have hrest : ∀ step : Option Expr, (∀ e, step = some e → q.value e) →
        Ends fair (Keeps q) (do return forLoop span tag init cond step (← typedBlock c body)) :=
      fun step hstep => (ht.block_ends body h.2.2.2.2).bind fun body hbody =>
        Ends.pure ⟨ht.place h.1, hinit, hcond, hstep, hbody⟩
    cases step with
    | none => exact hrest none nofun
    | some e =>
      refine (ht.value (h.2.2.2.1 e rfl)).map (fun e' he' => ?_) |>.bind hrest
      rintro _ ⟨⟩
      exact he'
  | .switch span tag subject body, h =>
    (ht.word_ends h.2.1).bind fun subject hsubject =>
      (ht.block_ends body h.2.2).bind fun body hbody => Ends.pure ⟨ht.place h.1, hsubject, hbody⟩
  | .case span value, h =>
    (ht.word_ends h.2).bind fun value hvalue => Ends.pure ⟨ht.place h.1, hvalue⟩
  | .block span body, h =>
    (ht.block_ends body h.2).bind fun body hbody => Ends.pure ⟨ht.place h.1, hbody⟩
  | .native span name args, h =>
    (ht.args_ends h.2).bind fun args hargs => Ends.pure ⟨ht.place h.1, hargs⟩
  | .emit span event value, h => by
    unfold typed
    cases value with
    | none => exact Ends.pure ⟨ht.place h.1, nofun⟩
    | some e =>
      refine (ht.value_ends (h.2 e rfl)).bind fun e' he' => Ends.pure ⟨ht.place h.1, ?_⟩
      rintro _ ⟨⟩
      exact he'
  | .ret span value, h => by
    unfold typed
    cases value with
    | none => exact Ends.pure ⟨ht.place h.1, nofun⟩
    | some e =>
      have hvalue : Ends fair (fun r => ∀ e, r = some e → q.returned e) (typedWord? c (some e)) := by
        refine (ht.returned (h.2 e rfl)).bind fun e' he' => Ends.pure ?_
        rintro _ ⟨⟩
        exact he'
      exact hvalue.bind fun value hvalue => Ends.pure ⟨ht.place h.1, hvalue⟩
  | .varDecl span decl, h =>
    Ends.pure ⟨ht.place h.1, fun e he => ht.declared (h.2.1 e he),
      fun e he => ht.declared (h.2.2.1 e he), h.2.2.2⟩
  | .constDecl span name value, h => Ends.pure ⟨ht.place h.1, ht.declared h.2⟩
  | .callSub span _, h => Ends.pure ⟨ht.place h.1, ht.sub h.2⟩
  | .default span, h | .label span _, h | .goto span _, h | .exit span _ _, h | .empty span, h =>
    Ends.pure (ht.place h)

theorem arms_ends (ht : Types fair c p q) : ∀ arms : Arms, arms.Keeps p →
    Ends fair (Arms.Keeps q) (typedArms c arms)
  | .done, _ => Ends.pure trivial
  | .otherwise body, h => (ht.block_ends body h).bind fun _ hbody => Ends.pure hbody
  | .arm _ _ body rest, h =>
    (ht.word_ends h.2.1).bind fun _ hcond =>
      (ht.block_ends body h.2.2.1).bind fun _ hbody =>
        (ht.arms_ends rest h.2.2.2).bind fun _ hrest =>
          Ends.pure ⟨ht.place h.1, hcond, hbody, hrest⟩

/-- Types keep the promise along all statements. -/
theorem block_ends (ht : Types fair c p q) : ∀ ss : List Stmt, AllKeep p ss →
    Ends fair (AllKeep q) (typedBlock c ss)
  | [], _ => Ends.pure trivial
  | s :: ss, h =>
    (ht.stmt_ends s h.1).bind fun _ hs =>
      (ht.block_ends ss h.2).bind fun _ hss => Ends.pure ⟨hs, hss⟩

end

end Types

theorem typedCounter_ends {c : Calls} {e : Expr} (h : e.Counter P Variable.Held) :
    Ends (CompileError.Placed P) (Promise.typed P ret).counter (typedCounter c e) := by
  have htyped : Ends (CompileError.Placed P)
      (fun e => P e.span ∧ (e.isPlace = true → (Promise.typed P ret).counter e)) (e.typed c) := by
    cases e with
    | var info v =>
      obtain ⟨hspan, s, hs, hty⟩ := h
      have hv : v.Stored := by simp [Variable.Stored, hs]
      simp only [Expr.typed, hs]
      exact Ends.pure ⟨hspan, fun _ => ⟨⟨hspan, hv⟩, .var hspan hv hty⟩⟩
    | number info n => exact Ends.pure ⟨h.1, by rintro ⟨⟩⟩
    | _ => exact h.elim
  unfold typedCounter Expr.typedWord
  refine (htyped.bind fun e he => Expr.asOperand_ends .word (fun _ => he) he.1).bind fun e he => ?_
  split
  · rename_i hplace
    exact Ends.pure (he.2 hplace)
  · exact semantic_placed _ he.1

theorem bound_types {c : Calls} (hcalls : c.Sound) :
    Types (CompileError.Placed P) c (.bound P ret) (.typed P ret) where
  place h := h
  value h := (h.typed_parts hcalls).1
  operand kind h := (h.asOperand kind).mono fun _ he => he.typed
  args h := by cases h with | call _ hes => exact hes
  counter h := typedCounter_ends h
  returned h := (h.2.typed_parts hcalls).1.bind fun _ he =>
    (he.asOperand .word).mono fun _ he => ⟨h.1, he⟩
  declared h := h
  sub h := h

/-- What has storage gets types. -/
theorem typedBlock_ends {c : Calls} (hcalls : c.Sound) (ss : List Stmt) (h : AllKeep (.bound P ret) ss) :
    Ends (CompileError.Placed P) (AllKeep (.typed P ret)) (typedBlock c ss) :=
  (bound_types hcalls).block_ends ss h

/-! ### Folding -/

/-- Expressions of a routine with a result type that keep the promise `p` are
folded to such that keep `q`, or the failure is `fair`. -/
structure Folds (fair : CompileError → Prop) (ret : Option Ty) (p q : Promise) : Prop where
  place : ∀ {span : Span}, p.place span → q.place span
  value : ∀ {e : Expr}, p.value e → Ends fair q.value e.fold
  cast : ∀ {e : Expr} (ty : Ty), q.value e → q.value (e.cast ty)
  fails : ∀ {e : Expr} {α : Type} {good : α → Prop} (fault : SemanticFault), q.value e →
    Ends fair good (semantic fault e.span : Result α)
  arrays : ∀ {span : Span} {e : Expr}, p.place span → p.value e → isArrayAssignment e = true →
    Ends fair (AllKeep q) (assignArray span e)
  counter : ∀ {e : Expr}, p.counter e → q.counter e
  returned : ∀ {e : Expr}, p.returned e →
    Ends fair (fun e' => q.returned (e'.cast (ret.getD e'.ty))) e.fold
  declared : ∀ {e : Expr}, p.declared e → q.declared e
  sub : p.sub → q.sub

namespace Folds

variable {fair : CompileError → Prop} {q : Promise} (hq : Folds fair ret p q)
include hq

theorem fold?_ends {value : Option Expr} (h : ∀ e, value = some e → p.value e) :
    Ends fair (fun r => ∀ e, r = some e → q.value e) (fold? value) := by
  cases value with
  | none => exact Ends.pure nofun
  | some e =>
    refine (hq.value (h e rfl)).bind fun e' he' => Ends.pure ?_
    rintro _ ⟨⟩
    exact he'

theorem foldInt_ends {e : Expr} (h : p.value e) : Ends fair q.value (foldInt e) :=
  (hq.value h).bind fun _ he => Ends.pure (hq.cast _ he)

theorem foldStep_ends {step : Option Expr} (h : ∀ e, step = some e → p.value e) :
    Ends fair (fun r => ∀ e, r = some e → q.value e) (foldStep step) := by
  unfold foldStep
  refine (hq.fold?_ends h).bind fun step hstep => ?_
  cases step with
  | none => exact Ends.pure nofun
  | some e =>
    dsimp only
    split
    · exact hq.fails _ (hstep e rfl)
    · exact Ends.pure hstep

theorem foldArgs_ends {args : List Expr} (h : ∀ e ∈ args, p.value e) :
    Ends fair (fun r => ∀ e ∈ r, q.value e) (Expr.foldAll args) :=
  (Expr.foldAll_ends fun e he => hq.value (h e he)).mono fun _ hr => hr.2

omit hq

theorem ofArms_keeps {span : Span} (hspan : q.place span) : ∀ {arms : Arms}, arms.Keeps q →
    AllKeep q (ofArms span arms)
  | .done, _ | .otherwise [], _ => trivial
  | .otherwise (_ :: _), h => ⟨⟨hspan, h⟩, trivial⟩
  | .arm _ _ _ _, h => ⟨⟨hspan, h⟩, trivial⟩

mutual

/-- Folding keeps the promise along a statement. -/
theorem stmt_ends (hq : Folds fair ret p q) : ∀ s : Stmt, s.Keeps p →
    Ends fair (AllKeep q) (s.fold ret)
  | .expr span e, h => by
    unfold fold
    split
    · rename_i harray
      exact hq.arrays h.1 h.2 harray
    · exact (hq.value h.2).bind fun e he => Ends.pure ⟨⟨hq.place h.1, he⟩, trivial⟩
  | .branch span arms, h =>
    (hq.arms_ends false arms h.2).bind fun _ harms => Ends.pure (ofArms_keeps (hq.place h.1) harms)
  | .whenever span cond body, h =>
    (hq.value h.2.1).bind fun _ hcond =>
      (hq.block_ends body h.2.2).bind fun _ hbody =>
        Ends.pure ⟨⟨hq.place h.1, hcond, hbody⟩, trivial⟩
  | .whileLoop span tag cond body, h => by
    unfold fold
    refine (hq.block_ends body h.2.2).bind fun body hbody => ?_
    refine (hq.fold?_ends h.2.1).bind fun cond hcond => ?_
    split
    · split
      · exact Ends.pure ⟨⟨hq.place h.1, hcond, hbody⟩, trivial⟩
      · exact Ends.pure trivial
    · exact Ends.pure ⟨⟨hq.place h.1, nofun, hbody⟩, trivial⟩
    · exact Ends.pure ⟨⟨hq.place h.1, hcond, hbody⟩, trivial⟩
  | .doWhile span tag body cond, h =>
    (hq.block_ends body h.2.2).bind fun _ hbody =>
      (hq.value h.2.1).bind fun _ hcond => Ends.pure ⟨⟨hq.place h.1, hcond, hbody⟩, trivial⟩
  | .rangeFor span tag var first last step body, h =>
    (hq.foldStep_ends h.2.2.2.2.1).bind fun _ hstep =>
      (hq.foldInt_ends h.2.2.1).bind fun _ hfirst =>
        (hq.foldInt_ends h.2.2.2.1).bind fun _ hlast =>
          (hq.block_ends body h.2.2.2.2.2).bind fun _ hbody =>
            Ends.pure ⟨⟨hq.place h.1, hq.counter h.2.1, hfirst, hlast, hstep, hbody⟩, trivial⟩
  | .forLoop span tag init cond step body, h =>
    (hq.fold?_ends h.2.2.1).bind fun cond hcond =>
      (hq.block_ends init h.2.1).bind fun _ hinit =>
        (hq.fold?_ends h.2.2.2.1).bind fun _ hstep =>
          (hq.block_ends body h.2.2.2.2).bind fun _ hbody =>
            Ends.pure ⟨⟨hq.place h.1, hinit, fun e he =>
              hcond e (Option.eq_some_of_filter_eq_some he), hstep, hbody⟩, trivial⟩
  | .switch span tag subject body, h =>
    (hq.foldInt_ends h.2.1).bind fun _ hsubject =>
      (hq.block_ends body h.2.2).bind fun _ hbody =>
        Ends.pure ⟨⟨hq.place h.1, hsubject, hbody⟩, trivial⟩
  | .case span value, h => by
    unfold fold
    refine (hq.foldInt_ends h.2).bind fun value hvalue => ?_
    split
    · exact hq.fails _ hvalue
    · exact Ends.pure ⟨⟨hq.place h.1, hvalue⟩, trivial⟩
  | .block span body, h =>
    (hq.block_ends body h.2).bind fun _ hbody => Ends.pure ⟨⟨hq.place h.1, hbody⟩, trivial⟩
  | .native span name args, h =>
    (hq.foldArgs_ends h.2).bind fun _ hargs => Ends.pure ⟨⟨hq.place h.1, hargs⟩, trivial⟩
  | .emit span event value, h =>
    (hq.fold?_ends h.2).bind fun _ hvalue => Ends.pure ⟨⟨hq.place h.1, hvalue⟩, trivial⟩
  | .ret span value, h => by
    unfold fold
    cases value with
    | none => exact Ends.pure ⟨⟨hq.place h.1, nofun⟩, trivial⟩
    | some e =>
      refine (hq.returned (h.2 e rfl)).bind fun e' he' => Ends.pure ⟨⟨hq.place h.1, ?_⟩, trivial⟩
      rintro _ ⟨⟩
      exact he'
  | .varDecl span decl, h =>
    Ends.pure ⟨⟨hq.place h.1, fun e he => hq.declared (h.2.1 e he),
      fun e he => hq.declared (h.2.2.1 e he), h.2.2.2⟩, trivial⟩
  | .constDecl span name value, h => Ends.pure ⟨⟨hq.place h.1, hq.declared h.2⟩, trivial⟩
  | .callSub span _, h => Ends.pure ⟨⟨hq.place h.1, hq.sub h.2⟩, trivial⟩
  | .default span, h | .label span _, h | .goto span _, h | .exit span _ _, h | .empty span, h =>
    Ends.pure ⟨hq.place h, trivial⟩

theorem arms_ends (hq : Folds fair ret p q) (kept : Bool) : ∀ arms : Arms, arms.Keeps p →
    Ends fair (Arms.Keeps q) (foldArms ret kept arms)
  | .done, _ => Ends.pure trivial
  | .otherwise body, h => (hq.block_ends body h).bind fun _ hbody => Ends.pure hbody
  | .arm span cond body rest, h => by
    unfold foldArms
    refine (hq.value h.2.1).bind fun cond hcond => ?_
    refine (hq.block_ends body h.2.2.1).bind fun body hbody => ?_
    have hrest : Ends fair (Arms.Keeps q)
        (do return .arm span cond body (← foldArms ret true rest)) :=
      (hq.arms_ends true rest h.2.2.2).bind fun _ hrest =>
        Ends.pure ⟨hq.place h.1, hcond, hbody, hrest⟩
    split
    · exact hq.arms_ends kept rest h.2.2.2
    · split
      · exact hrest
      · exact Ends.pure hbody
    · exact hrest

/-- Folding keeps the promise along all statements. -/
theorem block_ends (hq : Folds fair ret p q) : ∀ ss : List Stmt, AllKeep p ss →
    Ends fair (AllKeep q) (foldBlock ret ss)
  | [], _ => Ends.pure trivial
  | s :: ss, h =>
    (hq.stmt_ends s h.1).bind fun _ hs =>
      (hq.block_ends ss h.2).bind fun _ hss => Ends.pure (allKeep_append.mpr ⟨hs, hss⟩)

end

end Folds

/-! ### Typed statements -/

theorem element_typed {v : Variable} {k : Nat} {span : Span} {ty : Ty} (hspan : P span) (hv : v.Stored)
    (hty : ty.IsValue) : Expr.Typed P (element v k span ty) := by
  refine .index hspan hv hty ?_ ?_
  · simp only [List.mem_singleton, forall_eq]
    exact .number hspan (.inl rfl)
  · simp only [List.mem_singleton, forall_eq]
    nofun

theorem arrayItems?_typed {size : Nat} {e : Expr} {items : List Expr} (h : Expr.Typed P e)
    (hitems : arrayItems? size e = some items) : ∀ a ∈ items, a.Operand P .word := by
  unfold arrayItems? at hitems
  split at hitems
  · cases hitems
    cases h with
    | array _ _ hes hvalue => exact fun a ha => ⟨hes a ha, fun _ => hvalue a ha⟩
  · cases hitems
    cases h with
    | var hi hv hty =>
      intro a ha
      obtain ⟨k, -, rfl⟩ := List.mem_map.mp ha
      exact ⟨element_typed hi hv hty, fun _ => hty.notVoid⟩
  · cases hitems

section Arrays

variable {q : Promise} (hplace : ∀ {span : Span}, P span → q.place span)
  (hvalue : ∀ {e : Expr}, e.Typed P → Ends (CompileError.Placed P) q.value e.fold)
include hplace hvalue

theorem assignItems_ends {span opSpan : Span} {target : Info} {v : Variable} (hspan : P span)
    (hop : P opSpan) (ht : P target.span) (hv : v.Stored) (hty : target.ty.IsValue) :
    ∀ (k : Nat) {items : List Expr}, (∀ e ∈ items, e.Operand P .word) →
    Ends (CompileError.Placed P) (AllKeep q) (assignItems span opSpan target v k items)
  | _, [], _ => Ends.pure trivial
  | k, item :: items, h => by
    have hitem := h item List.mem_cons_self
    have hassign : Expr.Typed P (.op (.scalar opSpan target.ty) .assign
        [element v k target.span target.ty, item]) := by
      refine .op hop rfl rfl trivial rfl ?_ fun _ => ?_
      · simp only [List.mem_cons, List.not_mem_nil, or_false, forall_eq_or_imp, forall_eq]
        exact ⟨element_typed ht hv hty, hitem.typed⟩
      · simp only [List.mem_cons, List.not_mem_nil, or_false, forall_eq_or_imp, forall_eq]
        exact ⟨hty.notVoid, hitem.value nofun⟩
    unfold assignItems
    refine (hvalue hassign).bind fun e he => ?_
    refine (assignItems_ends hspan hop ht hv hty (k + 1) fun a ha =>
      h a (List.mem_cons_of_mem _ ha)).bind fun rest hrest => ?_
    exact Ends.pure ⟨⟨hplace hspan, he⟩, hrest⟩

theorem assignArray_ends {span : Span} {e : Expr} (hspan : P span) (h : Expr.Typed P e)
    (harray : isArrayAssignment e = true) :
    Ends (CompileError.Placed P) (AllKeep q) (assignArray span e) := by
  unfold isArrayAssignment at harray
  split at harray
  · cases h with
    | op hi _ ho _ _ hes _ =>
      obtain ⟨target, rest, rfl⟩ := List.exists_cons_of_length_eq_add_one ho
      obtain ⟨value, rfl⟩ := List.length_eq_one_iff.mp (Nat.succ.inj ho)
      unfold assignArray
      split
      · rename_i info _ target v value heq
        cases heq
        have ht := hes (.var target v) (by simp)
        cases ht with
        | var ht hv hty =>
          split
          · exact semantic_placed _ hi
          · split
            · rename_i items hitems
              exact assignItems_ends hplace hvalue hspan hi ht hv hty 0
                (arrayItems?_typed (hes value (by simp)) hitems)
            · exact semantic_placed _ hi
      · rename_i heq
        cases heq
        exact semantic_placed _ hi
      · rename_i hne heq
        cases heq
        exact (hne target value rfl).elim
      · exact semantic_placed _ hi
  · cases harray

end Arrays

theorem ready_folds : Folds (CompileError.Placed P) ret (.typed P ret) (.ready P) where
  place h := h
  value h := h.fold
  cast ty h := h.toTy ty
  fails fault h := semantic_placed fault h.span
  arrays hspan h harray := assignArray_ends (fun h => h) (fun h => h.fold) hspan h harray
  counter h := h.1
  returned h := h.2.typed.fold.mono fun _ he => he.toTy _
  declared h := h
  sub h := h

/-- What is folded is ready for code. -/
theorem foldBlock_ends (ss : List Stmt) (h : AllKeep (.typed P ret) ss) :
    Ends (CompileError.Placed P) (AllKeep (.ready P)) (foldBlock ret ss) :=
  ready_folds.block_ends ss h

end Stmt
end RobotScript
