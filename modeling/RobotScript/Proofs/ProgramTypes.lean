/-
# Types in programs

A program that was made from a script holds conversions wherever they are
needed: in every statement of every routine the types that meet in an
expression agree, and a value that a function returns has the result type of
the function. Only what a script gives as the size of an array that is passed
by reference stays in the head of the function as it was read.

Key definitions: `Stmt.within`, `Stmt.exprs`, `Stmt.Promise.agreeing`.
Key theorems: `Stmt.agreeing_folds`, `Stmt.Keeps.exprs`, `types_consistent`.
-/
import RobotScript.Proofs.Agreement
import RobotScript.Proofs.Linking

namespace RobotScript

/-! ### The expressions of statements -/

mutual

/-- The statements in the blocks of a statement. -/
def Stmt.inner : Stmt → List Stmt
  | .branch _ arms => arms.inner
  | .whenever _ _ body | .whileLoop _ _ _ body | .doWhile _ _ body _ | .rangeFor _ _ _ _ _ _ body
  | .switch _ _ _ body | .block _ body => Stmt.within body
  | .forLoop _ _ init _ _ body => Stmt.within init ++ Stmt.within body
  | .varDecl _ _ | .constDecl _ _ _ | .expr _ _ | .case _ _ | .default _ | .label _ _ | .goto _ _
  | .exit _ _ _ | .native _ _ _ | .callSub _ _ | .emit _ _ _ | .ret _ _ | .empty _ => []

/-- The statements in the blocks of arms. -/
def Arms.inner : Arms → List Stmt
  | .done => []
  | .otherwise body => Stmt.within body
  | .arm _ _ body rest => Stmt.within body ++ rest.inner

/-- The statements and those in their blocks. -/
def Stmt.within : List Stmt → List Stmt
  | [] => []
  | s :: ss => s :: s.inner ++ Stmt.within ss

end

/-- The conditions of arms. -/
def Arms.conditions : Arms → List Expr
  | .done | .otherwise _ => []
  | .arm _ cond _ rest => cond :: rest.conditions

/-- The expressions that stand in a statement itself. -/
def Stmt.exprs : Stmt → List Expr
  | .varDecl _ d => d.dims.filterMap id ++ d.init.toList
  | .constDecl _ _ e | .expr _ e | .whenever _ e _ | .doWhile _ _ _ e | .switch _ _ e _ | .case _ e => [e]
  | .branch _ arms => arms.conditions
  | .whileLoop _ _ cond _ => cond.toList
  | .rangeFor _ _ var first last step _ => var :: first :: last :: step.toList
  | .forLoop _ _ _ cond step _ => cond.toList ++ step.toList
  | .native _ _ args => args
  | .emit _ _ value | .ret _ value => value.toList
  | .default _ | .block _ _ | .label _ _ | .goto _ _ | .exit _ _ _ | .callSub _ _ | .empty _ => []

variable {p : Stmt.Promise}

mutual

/-- A promise is kept by the statements in blocks. -/
theorem Stmt.Keeps.inner : ∀ {s : Stmt}, s.Keeps p → ∀ t ∈ s.inner, t.Keeps p
  | .branch _ _, h => Arms.Keeps.inner h.2
  | .whenever _ _ _, h | .whileLoop _ _ _ _, h | .doWhile _ _ _ _, h | .switch _ _ _ _, h =>
    Stmt.AllKeep.within h.2.2
  | .rangeFor _ _ _ _ _ _ _, h => Stmt.AllKeep.within h.2.2.2.2.2
  | .block _ _, h => Stmt.AllKeep.within h.2
  | .forLoop _ _ _ _ _ _, h => by
    intro t ht
    rcases List.mem_append.mp ht with ht | ht
    · exact Stmt.AllKeep.within h.2.1 t ht
    · exact Stmt.AllKeep.within h.2.2.2.2 t ht
  | .varDecl _ _, _ | .constDecl _ _ _, _ | .expr _ _, _ | .case _ _, _ | .default _, _ | .label _ _, _
  | .goto _ _, _ | .exit _ _ _, _ | .native _ _ _, _ | .callSub _ _, _ | .emit _ _ _, _ | .ret _ _, _
  | .empty _, _ => nofun

theorem Arms.Keeps.inner : ∀ {arms : Arms}, arms.Keeps p → ∀ t ∈ arms.inner, t.Keeps p
  | .done, _ => nofun
  | .otherwise _, h => Stmt.AllKeep.within h
  | .arm _ _ _ _, h => by
    intro t ht
    rcases List.mem_append.mp ht with ht | ht
    · exact Stmt.AllKeep.within h.2.2.1 t ht
    · exact Arms.Keeps.inner h.2.2.2 t ht

theorem Stmt.AllKeep.within : ∀ {ss : List Stmt}, Stmt.AllKeep p ss → ∀ t ∈ Stmt.within ss, t.Keeps p
  | [], _ => nofun
  | s :: ss, h => by
    intro t ht
    rcases List.mem_append.mp ht with ht | ht
    · rcases List.mem_cons.mp ht with rfl | ht
      · exact h.1
      · exact Stmt.Keeps.inner h.1 t ht
    · exact Stmt.AllKeep.within h.2 t ht

end

theorem Arms.Keeps.conditions : ∀ {arms : Arms}, arms.Keeps p → ∀ e ∈ arms.conditions, p.value e
  | .done, _ | .otherwise _, _ => nofun
  | .arm _ _ _ _, h => by
    rintro e (_ | ⟨_, he⟩)
    · exact h.2.1
    · exact Arms.Keeps.conditions h.2.2.2 e he

/-- What a promise says of all its parts holds of the expressions in a
statement. -/
theorem Stmt.Keeps.exprs {good : Expr → Prop} (hvalue : ∀ e, p.value e → good e)
    (hcounter : ∀ e, p.counter e → good e) (hdeclared : ∀ e, p.declared e → good e)
    (hreturned : ∀ e, p.returned e → good e) {s : Stmt} (h : s.Keeps p) : ∀ e ∈ s.exprs, good e := by
  have hoption : ∀ {value : Option Expr}, (∀ e, value = some e → p.value e) → ∀ e ∈ value.toList, good e :=
    fun hv e he => hvalue e (hv e (Option.mem_toList.mp he))
  cases s with
  | varDecl span d =>
    intro e he
    rcases List.mem_append.mp he with he | he
    · exact hdeclared e (h.2.1 e (by simpa using he))
    · exact hdeclared e (h.2.2.1 e (Option.mem_toList.mp he))
  | constDecl span name e =>
    simp only [Stmt.exprs, List.mem_singleton, forall_eq]
    exact hdeclared e h.2
  | expr span e | case span e =>
    simp only [Stmt.exprs, List.mem_singleton, forall_eq]
    exact hvalue e h.2
  | whenever span e body | doWhile span tag body e | switch span tag e body =>
    simp only [Stmt.exprs, List.mem_singleton, forall_eq]
    exact hvalue e h.2.1
  | branch span arms => exact fun e he => hvalue e (h.2.conditions e he)
  | whileLoop span tag cond body => exact hoption h.2.1
  | rangeFor span tag var first last step body =>
    simp only [Stmt.exprs, List.mem_cons, forall_eq_or_imp]
    exact ⟨hcounter var h.2.1, hvalue first h.2.2.1, hvalue last h.2.2.2.1, hoption h.2.2.2.2.1⟩
  | forLoop span tag init cond step body =>
    intro e he
    rcases List.mem_append.mp he with he | he
    · exact hoption h.2.2.1 e he
    · exact hoption h.2.2.2.1 e he
  | native span name args => exact fun e he => hvalue e (h.2 e he)
  | emit span event value => exact hoption h.2
  | ret span value => exact fun e he => hreturned e (h.2 e (Option.mem_toList.mp he))
  | _ => nofun

/-! ### Folded statements -/

namespace Stmt

/-- Of statements behind folding, in a routine with a result type: the types
that meet in them agree. -/
def Promise.agreeing (ret : Option Ty) : Promise :=
  ⟨fun _ => True, Expr.Sound, Expr.Sound, fun _ => False, fun e => e.Sound ∧ ret = some e.ty, True⟩

/-- The types that meet in folded statements agree. -/
theorem agreeing_folds (ret : Option Ty) :
    Folds (CompileError.Placed fun _ => True) ret (.typed (fun _ => True) ret) (.agreeing ret) where
  place _ := trivial
  sub h := h
  value h := h.fold.self.mono fun _ he' => (h.fold_hasTy.of_ok he'.1).sound
  cast ty h := h.cast ty
  fails fault _ := semantic_placed fault trivial
  arrays hspan h harray := assignArray_ends (fun _ => trivial)
    (fun h => h.fold.self.mono fun _ he' => (h.fold_hasTy.of_ok he'.1).sound) hspan h harray
  declared h := h
  counter {e} h := by
    have hdefined := h.2.defined
    cases e with
    | var i v => exact .leaf rfl ⟨hdefined, trivial⟩
    | number i n => cases h.2 with | number _ hty => exact .leaf rfl ⟨hdefined, hty⟩
    | _ => exact h.1.elim
  returned h := by
    obtain ⟨⟨ty, hret, hty⟩, he⟩ := h
    refine he.typed.fold.self.mono fun e' he' => ?_
    have hfolded := he.typed.fold_hasTy.of_ok he'.1
    have hreturned := hfolded.sound.toTy (hfolded.ty_eq ▸ he.value nofun) hty
    rw [hret, Option.getD_some]
    exact ⟨hreturned.sound, congrArg some hreturned.ty_eq.symm⟩

end Stmt

/-- The routines of a program from lines that were read keep the promise. -/
theorem Program.ofLines_agreeing {node : Node} {settings : Settings} {lines : List Line} {program : Program}
    (hlines : ∀ l ∈ lines, l.Written fun _ => True) (h : Program.ofLines node settings lines = .ok program) :
    ∀ r ∈ program.routines, Stmt.AllKeep (.agreeing r.kind.ret?) r.body := by
  obtain ⟨written, laid, allocation, hwritten, hlaid, -, hlength, hall⟩ := Program.ofLines_eq_ok h
  obtain ⟨-, hwritten⟩ := (Routine.ofLines_ends _ trivial hlines).of_ok hwritten
  obtain ⟨-, hbound, hsound⟩ := (Routine.layAll_ends node _ hwritten).of_ok hlaid
  have hcalls : Calls.Sound ⟨allocation.functions, settings.language, node⟩ := hsound.functions
  intro r hr
  obtain ⟨i, hi⟩ := List.mem_iff_getElem?.mp hr
  obtain ⟨l, hl⟩ := exists_getElem?_of_length_eq hlength hi
  obtain ⟨r', htyped, hfolded⟩ := hall i l r hl hi
  have hkeeps := ((hbound l (List.mem_of_getElem? hl)).typed hcalls).of_ok htyped
  obtain ⟨body, hbody, hr⟩ := bind_eq_ok.mp hfolded
  cases hr
  exact ((Stmt.agreeing_folds _).block_ends r'.body hkeeps.body).of_ok hbody

/-- Types are consistent before code is generated. In every statement of a
program, each expression that stands in it and each part of that has a known
type, and the types that meet there agree: a stored value has the type of its
target, what is added or compared is on one scale, what is taken bit by bit,
counts bits or is an index is a number, what is joined by logic is a truth
value and what is passed by value has the type of the parameter. A returned
value has the result type of the function. -/
theorem types_consistent {node : Node} {settings : Settings} {source : Source} {lines : List Line}
    {program : Program} (hlines : readLines settings source = .ok lines)
    (hprogram : Program.ofLines node settings lines = .ok program) :
    ∀ r ∈ program.routines, ∀ s ∈ Stmt.within r.body,
      (∀ e ∈ s.exprs, ∀ part ∈ e.parts, part.Agrees) ∧
      ∀ span e, s = .ret span (some e) → r.kind.ret? = some e.ty := by
  intro r hr s hs
  have hall := Program.ofLines_agreeing (readLines_written (fun _ => trivial) hlines) hprogram r hr
  have hkeeps := hall.within s hs
  refine ⟨Stmt.Keeps.exprs (p := .agreeing r.kind.ret?) (fun _ he => he) (fun _ he => he)
    (fun _ he => he.elim) (fun _ he => he.1) hkeeps, ?_⟩
  rintro span e rfl
  exact (hkeeps.2 e rfl).2

/-- Values of all types that meet in a function and outside of it. -/
theorem types_consistent_mixed :
    ∃ (node : Node) (settings : Settings) (source : Source) (lines : List Line) (program : Program),
      readLines settings source = .ok lines ∧ Program.ofLines node settings lines = .ok program ∧
      program.routines.map (fun r => ((Stmt.within r.body).flatMap Stmt.exprs).map (·.parts.length)) =
        [[10, 18, 5], [6]] ∧
      ∀ r ∈ program.routines, ∀ s ∈ Stmt.within r.body,
        (∀ e ∈ s.exprs, ∀ part ∈ e.parts, part.Agrees) ∧
        ∀ span e, s = .ret span (some e) → r.kind.ret? = some e.ty := by
  let node : Node := ⟨"", 16, [], [], []⟩
  have hprogram : (do
      let lines ← readLines ⟨.l2, 1, []⟩
        ⟨"fixed f; bool b; int a[3]; a[b] += f << b; b = g(1, f) % f < b && a[1] | b; f++; " ++
          "int g(fixed p, bool q) \x7b return q ? p : 2; \x7d", none⟩
      let program ← Program.ofLines node ⟨.l2, 1, []⟩ lines
      return program.routines.map fun r =>
        ((Stmt.within r.body).flatMap Stmt.exprs).map (·.parts.length) :
      Result (List (List Nat))).toOption = some [[10, 18, 5], [6]] := by
    decide +kernel
  obtain ⟨lines, hlines, hprogram⟩ := bind_eq_ok.mp (eq_ok_of_toOption hprogram)
  obtain ⟨program, hprogram, hparts⟩ := bind_eq_ok.mp hprogram
  exact ⟨node, _, _, lines, program, hlines, hprogram, Except.ok.inj hparts,
    types_consistent hlines hprogram⟩

/-- The sizes of arrays in the head of a function. -/
def Routine.sizes (r : Routine) : List Expr :=
  match r.kind with
  | .function decl _ => decl.params.flatMap (·.dims)
  | _ => []

/-- The size of an array in the head of a function stays as it was read, where
a sum has no type. -/
theorem head_size_untyped :
    ∃ (node : Node) (settings : Settings) (source : Source) (lines : List Line) (program : Program),
      readLines settings source = .ok lines ∧ Program.ofLines node settings lines = .ok program ∧
      ∃ r ∈ program.routines, ∃ e ∈ r.sizes, e.ty = .undefined := by
  let node : Node := ⟨"", 16, [], [], []⟩
  have hprogram : (do
      let lines ← readLines ⟨.l2, 1, []⟩ ⟨"void f(int a[1+1]) \x7b \x7d", none⟩
      let program ← Program.ofLines node ⟨.l2, 1, []⟩ lines
      return (program.routines.flatMap Routine.sizes).map (·.ty) : Result (List Ty)).toOption =
      some [.undefined] := by
    decide +kernel
  obtain ⟨lines, hlines, hprogram⟩ := bind_eq_ok.mp (eq_ok_of_toOption hprogram)
  obtain ⟨program, hprogram, hsizes⟩ := bind_eq_ok.mp hprogram
  have hmem : Ty.undefined ∈ (program.routines.flatMap Routine.sizes).map (·.ty) := by
    rw [Except.ok.inj hsizes]
    exact List.mem_cons_self
  obtain ⟨e, he, hty⟩ := List.mem_map.mp hmem
  obtain ⟨r, hr, he⟩ := List.mem_flatMap.mp he
  exact ⟨node, _, _, lines, program, hlines, hprogram, r, hr, e, he, hty⟩

end RobotScript
