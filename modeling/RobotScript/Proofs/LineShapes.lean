/-
# Shapes of lines and routines

Lines hold expressions as they are read and declare names of proper types, and
pairing the lines up to blocks only moves them around: every part of a routine
comes from a line, and every failure stands at the place of one.

The two languages have lines of different forms: the simple language has
headers, calls of firmware functions and loops over ranges, L2 has labels,
jumps, switches, plain blocks, and handlers and functions that are blocks
themselves. `Line.standsIn` lists the forms of a language, and every line that
is read in a language is of such a form.

Key definitions: `Line.Written`, `Line.standsIn`, `Block.Written`, `Routine.Written`.
Key theorems: `Line.ofTokens_ends`, `Line.read_standsIn`, `Routine.ofLines_ends`.
-/
import RobotScript.Line.Reader
import RobotScript.Proofs.Reading
import RobotScript.Proofs.StmtShapes
import RobotScript.Routine.Blocks

namespace RobotScript

/-- An optional expression as it is read. -/
def Expr.Written? (P : Span → Prop) (e : Option Expr) : Prop := ∀ e', e = some e' → e'.Written P

/-- A parameter as it is read. -/
structure ParamDecl.Written (P : Span → Prop) (p : ParamDecl) : Prop where
  span : P p.span
  dims : ∀ e ∈ p.dims, Expr.Written P e
  ty : p.ty.IsValue

/-- The head of a function as it is read. -/
structure FunctionDecl.Written (P : Span → Prop) (d : FunctionDecl) : Prop where
  ret : d.ret ≠ .undefined
  params : ∀ p ∈ d.params, p.Written P

/-- A declaration as it is read. -/
structure VarDecl.Written (P : Span → Prop) (d : VarDecl) : Prop where
  dims : ∀ e, some e ∈ d.dims → Expr.Written P e
  init : Expr.Written? P d.init
  ty : d.ty.IsValue

/-- The start of a block as it is read. -/
def Opener.Written (P : Span → Prop) : Opener → Prop
  | .branch e | .whenever e | .whileLoop e | .switch e => e.Written P
  | .rangeFor var first last step =>
    var.Counter P (fun _ => True) ∧ first.Written P ∧ last.Written P ∧ Expr.Written? P step
  | .forLoop init cond step =>
    Stmt.AllKeep (.written P) init ∧ Expr.Written? P cond ∧ Expr.Written? P step
  | .function decl => decl.Written P
  | .doLoop | .block | .onEvent _ => True

/-- Whether a statement can be a line of its own. -/
def Stmt.standsIn (language : Language) : Stmt → Bool
  | varDecl _ _ | constDecl _ _ _ | expr _ _ | emit _ _ _ => true
  | ret _ value => language == .l2 || value.isNone
  | native _ _ _ | callSub _ _ => language == .simple
  | case _ _ | default _ | label _ _ | goto _ _ | exit _ _ _ | empty _ => language == .l2
  | branch _ _ | whenever _ _ _ | whileLoop _ _ _ _ | doWhile _ _ _ _ | rangeFor _ _ _ _ _ _ _
  | forLoop _ _ _ _ _ _ | switch _ _ _ _ | block _ _ => false

/-- Whether a statement can be the first part of the head of a `for` loop. -/
def Stmt.isInit : Stmt → Bool
  | varDecl _ d => d.dims.isEmpty
  | expr _ _ => true
  | _ => false

/-- Whether a parameter that is passed by value is a single word. -/
def ParamDecl.isSound (p : ParamDecl) : Bool := p.byRef || p.dims.isEmpty

/-- Whether a language has a kind of block. -/
def Opener.standsIn (language : Language) : Opener → Bool
  | branch _ | whenever _ | whileLoop _ => true
  | rangeFor _ _ _ _ => language == .simple
  | forLoop init _ _ => language == .l2 && init.all (·.isInit)
  | doLoop | switch _ | block | onEvent _ => language == .l2
  | function decl => language == .l2 && decl.params.all (·.isSound)

/-- Whether a language has a form of line. -/
def Line.standsIn (language : Language) : Line → Bool
  | plain s => s.standsIn language
  | opening opener _ => opener.standsIn language
  | elseIf _ _ | otherwise _ | closing _ => true
  | closingWhile _ _ => language == .l2
  | header _ _ => language == .simple

/-- A line as it is read. -/
def Line.Written (P : Span → Prop) : Line → Prop
  | .plain s => s.Keeps (.written P)
  | .opening opener span => opener.Written P ∧ P span
  | .elseIf cond span | .closingWhile cond span => cond.Written P ∧ P span
  | .otherwise span | .closing span | .header _ span => P span

variable {P : Span → Prop} {Q : List Token → Prop}

theorem Expr.Written?.none : Expr.Written? P none := by
  rintro _ ⟨⟩

theorem Expr.Written?.some {e : Expr} (h : e.Written P) : Expr.Written? P (some e) := by
  rintro _ ⟨⟩
  exact h

/-- A line as it is read in a language. -/
structure Line.Fits (P : Span → Prop) (language : Language) (l : Line) : Prop where
  written : l.Written P
  form : l.standsIn language = true

/-- There are lines, and all of them fit. -/
structure Line.AllFit (P : Span → Prop) (language : Language) (ls : List Line) : Prop where
  ne_nil : ls ≠ []
  fits : ∀ l ∈ ls, l.Fits P language

theorem Line.fit_single {language : Language} {l : Line} (h : l.Written P)
    (hform : l.standsIn language = true := by rfl) : AllFit P language [l] := by
  refine ⟨nofun, ?_⟩
  rintro l' (_ | ⟨_, ⟨⟩⟩)
  exact ⟨h, hform⟩

open Reader (Reads)

/-! ### Lines of the simple language -/

namespace Simple

variable {r : Reading} (hend : P r.endSpan)

include hend

theorem value_reads : Reads P Q (Expr.Written P) (value r) :=
  .take fun toks h => expression_reads hend _ toks h

theorem keyword_reads (text : String) : Reads P Q (fun _ => True) (discard (keyword r text)) :=
  .map (.take fun _ h => Reading.keyword_gets hend text h) fun _ _ => trivial

theorem name_reads : Reads P Q (fun _ => True) (name r) :=
  .bind (.take fun _ h => Reading.name_gets hend h) fun _ _ => .pure trivial

theorem valueAfter_reads (text : String) : Reads P Q (Expr.Written? P) (valueAfter r text) := by
  refine (Reads.accept text).bind fun found _ => ?_
  cases found with
  | true => exact (value_reads hend).bind fun e he => .pure (.some he)
  | false => exact .pure .none

theorem arraySize_reads : Reads P Q (Expr.Written? P) (arraySize r) := by
  refine Reads.ahead.bind fun toks htoks => (Reads.accept "]").bind fun closed _ => ?_
  cases closed with
  | true =>
    refine (Reads.sees "=").bind fun init _ => ?_
    cases init with
    | true => exact .pure .none
    | false => exact .refuseAt _ (Reading.nextSpan_at hend htoks)
  | false =>
    exact (value_reads hend).bind fun e he => (keyword_reads hend "]").bind fun _ _ => .pure (.some he)

theorem varDecl_reads : Reads P Q (VarDecl.Written P) (varDecl r) := by
  let sized (dims : List (Option Expr)) : Prop := ∀ e, some e ∈ dims → Expr.Written P e
  have hdecl : ∀ name dims, Reads P Q sized (pure dims) → Reads P Q (VarDecl.Written P) (do
      let dims ← pure dims
      let init ← valueAfter r "="
      return ⟨name, .int, dims, init, none⟩) := fun name dims h =>
    h.bind fun dims hdims => (valueAfter_reads hend "=").bind fun init hinit =>
      .pure ⟨hdims, hinit, nofun, nofun⟩
  refine (name_reads hend).bind fun name _ => (Reads.accept "[").bind fun opened _ => ?_
  cases opened with
  | true =>
    refine (arraySize_reads hend).bind fun size hsize => hdecl name [size] (.pure fun e he => ?_)
    exact hsize e (List.mem_singleton.mp he).symm
  | false => exact hdecl name [] (.pure nofun)

theorem rangeFor_reads : Reads P Q (fun o => o.Written P ∧ o.standsIn .simple = true) (rangeFor r) := by
  refine Reads.bind (.take fun _ h => Reading.name_gets hend h) fun ⟨name, span⟩ hspan => ?_
  refine (keyword_reads hend "in").bind fun _ _ => (value_reads hend).bind fun first hfirst => ?_
  refine (keyword_reads hend ":").bind fun _ _ => (value_reads hend).bind fun last hlast => ?_
  refine (valueAfter_reads hend "step").bind fun step hstep => ?_
  refine (keyword_reads hend "do").bind fun _ _ => .pure ⟨?_, rfl⟩
  exact ⟨⟨hspan, trivial⟩, hfirst, hlast, hstep⟩

theorem condition_reads (close : String) : Reads P Q (Expr.Written P) (condition r close) :=
  (value_reads hend).bind fun _ he => (keyword_reads hend close).bind fun _ _ => .pure he

theorem callArguments_reads : Reads P Q (fun es => ∀ e ∈ es, Expr.Written P e) (callArguments r) := by
  refine (Reads.accept "(").bind fun opened _ => ?_
  cases opened with
  | true => exact .take fun toks h => arguments_reads hend ")" toks h
  | false => exact .pure (by rintro _ ⟨⟩)

theorem lineAfter?_reads {span : Span} (hspan : P span) {text : String} {reader : Reader Line}
    (h : lineAfter? r span text = some reader) : Reads P Q (Line.Fits P .simple) reader := by
  unfold lineAfter? at h
  split at h <;> cases h
  · refine (name_reads hend).bind fun name _ => (keyword_reads hend "=").bind fun _ _ => ?_
    exact (value_reads hend).bind fun e he => .pure ⟨⟨hspan, he⟩, rfl⟩
  · refine ((varDecl_reads hend).during _).bind fun d hd => .pure ⟨?_, rfl⟩
    exact ⟨hspan, hd.dims, hd.init, hd.ty⟩
  · exact (condition_reads hend "then").bind fun e he => .pure ⟨⟨he, hspan⟩, rfl⟩
  · exact (condition_reads hend "then").bind fun e he => .pure ⟨⟨he, hspan⟩, rfl⟩
  · exact (condition_reads hend "do").bind fun e he => .pure ⟨⟨he, hspan⟩, rfl⟩
  · exact (condition_reads hend "do").bind fun e he => .pure ⟨⟨he, hspan⟩, rfl⟩
  · exact ((rangeFor_reads hend).during _).bind fun o ho => .pure ⟨⟨ho.1, hspan⟩, ho.2⟩
  · exact .pure ⟨hspan, rfl⟩
  · exact .pure ⟨hspan, rfl⟩
  · refine (name_reads hend).bind fun name _ => ?_
    exact (callArguments_reads hend).bind fun args hargs => .pure ⟨⟨hspan, hargs⟩, rfl⟩
  · exact (name_reads hend).bind fun name _ => .pure ⟨⟨hspan, trivial⟩, rfl⟩
  · refine (name_reads hend).bind fun event _ => ?_
    split
    · refine (value_reads hend).bind fun e he => .pure ⟨⟨hspan, ?_⟩, rfl⟩
      rintro _ ⟨⟩
      exact he
    · exact .pure ⟨⟨hspan, Expr.Written?.none⟩, rfl⟩
  · exact (name_reads hend).bind fun name _ => .pure ⟨hspan, rfl⟩
  · exact (name_reads hend).bind fun name _ => .pure ⟨hspan, rfl⟩
  · exact .pure ⟨⟨hspan, Expr.Written?.none⟩, rfl⟩

theorem line_gets {toks : List Token} (h : Token.Run P Q toks) :
    Gets P Q (Line.AllFit P .simple) (line r toks) := by
  cases toks with
  | nil => exact refuse_placed _ hend
  | cons t ts =>
    unfold line
    dsimp only
    split
    · rename_i reader hreader
      have hreads : Reads P Q (Line.Fits P .simple) reader := by
        split at hreader
        · exact lineAfter?_reads hend h.head hreader
        · cases hreader
      exact (hreads ts h.tail).bind fun p hp =>
        Ends.pure ⟨Line.fit_single hp.value.written hp.value.form, hp.rest⟩
    · exact (expression_reads hend _ _ h).bind fun p hp =>
        Ends.pure ⟨Line.fit_single ⟨h.head, hp.value⟩, hp.rest⟩

end Simple

/-! ### Lines of L2 -/

namespace L2

theorem typeOf?_isValue {text : String} {ty : Ty} (h : typeOf? text = some ty) : ty.IsValue := by
  unfold typeOf? at h
  split at h <;> cases h <;> exact ⟨nofun, nofun⟩

/-- The type that is read is that of values. -/
theorem typeName_reads : Reads P Q (fun r => ∀ ty, r = some ty → ty.IsValue) typeName := by
  intro toks h
  cases toks with
  | nil => exact Ends.ok ⟨nofun, h⟩
  | cons t ts =>
    unfold typeName
    dsimp only
    split
    · split
      · exact Ends.ok ⟨fun _ hty => typeOf?_isValue hty, h.tail⟩
      · exact Ends.ok ⟨nofun, h⟩
    · exact Ends.ok ⟨nofun, h⟩

variable {r : Reading} (hend : P r.endSpan)

include hend

theorem value_reads : Reads P Q (Expr.Written P) (value r) :=
  .take fun toks h => expression_reads hend _ toks h

theorem item_reads : Reads P Q (Expr.Written P) (item r) :=
  .take fun toks h => expression_reads hend _ toks h

theorem keyword_reads (text : String) : Reads P Q (fun _ => True) (discard (keyword r text)) :=
  .map (.take fun _ h => Reading.keyword_gets hend text h) fun _ _ => trivial

theorem name_reads : Reads P Q (fun _ => True) (name r) :=
  .bind (.take fun _ h => Reading.name_gets hend h) fun _ _ => .pure trivial

theorem semicolon_reads : Reads P Q (fun _ => True) (semicolon r) := by
  refine (Reads.accept ";").bind fun found _ => ?_
  cases found with
  | true => exact .pure trivial
  | false => exact Reads.ahead.bind fun _ h => .refuseAt _ (Reading.nextSpan_at hend h)

theorem openBrace_reads : Reads P Q (fun _ => True) (openBrace r) :=
  keyword_reads hend _

theorem condition_reads : Reads P Q (Expr.Written P) (condition r) := by
  refine (keyword_reads hend "(").bind fun _ _ => ?_
  refine Reads.bind (.take fun toks h => expression_reads hend _ toks h) fun e he => ?_
  exact (keyword_reads hend ")").bind fun _ _ => .pure he

theorem valueUnless_reads (text : String) : Reads P Q (Expr.Written? P) (valueUnless r text) := by
  refine (Reads.sees text).bind fun found _ => ?_
  cases found with
  | true => exact .pure .none
  | false => exact (value_reads hend).bind fun e he => .pure (.some he)

theorem initialValue_reads : Reads P Q (Expr.Written? P) (initialValue r) := by
  refine (Reads.accept "=").bind fun found _ => ?_
  cases found with
  | true => exact (item_reads hend).bind fun e he => .pure (.some he)
  | false => exact .pure .none

theorem dimensions_reads : Reads P Q (fun dims => ∀ e, some e ∈ dims → Expr.Written P e) (dimensions r) := by
  refine Reads.ahead.bind fun toks htoks => (Reads.accept "[").bind fun opened _ => ?_
  cases opened with
  | false => exact .pure nofun
  | true =>
    refine Reads.bind (.take fun toks h => arguments_reads hend "]" toks h) fun dims hdims => ?_
    split
    · refine (Reads.sees "=").bind fun init _ => ?_
      cases init with
      | true => exact .pure (by simp)
      | false => exact .refuseAt _ (Reading.nextSpan_at hend htoks)
    · refine .pure fun e he => ?_
      obtain ⟨e', he', ⟨⟩⟩ := List.mem_map.mp he
      exact hdims e he'

variable {toks : List Token} {span : Span}

theorem declarator_gets {ty : Ty} (hty : ty.IsValue) (h : Token.Run P Q toks) :
    Gets P Q (VarDecl.Written P) (declarator r ty toks) := by
  unfold declarator
  refine (Reading.name_gets hend h).bind fun named hnamed => ?_
  have hrest : Reads P Q (VarDecl.Written P) (do
      let dims ← dimensions r
      let init ← initialValue r
      return ⟨named.value.1, ty, dims, init, none⟩) :=
    (dimensions_reads hend).bind fun dims hdims =>
      (initialValue_reads hend).bind fun init hinit => .pure ⟨hdims, hinit, hty⟩
  exact (hrest named.rest hnamed.rest).bind fun decl hdecl => Ends.pure ⟨hdecl.value, hdecl.rest⟩

theorem declarators_gets {ty : Ty} (hty : ty.IsValue) (toks : List Token) (h : Token.Run P Q toks) :
    Gets P Q (fun ds => ds ≠ [] ∧ ∀ d ∈ ds, VarDecl.Written P d) (declarators r ty toks) := by
  rw [declarators]
  refine (declarator_gets hend hty h).bind fun decl hdecl => ?_
  have := decl.within
  refine (Reads.accept "," decl.rest hdecl.rest).bind fun comma hcomma => ?_
  have := comma.within
  split
  · refine (declarators_gets hty comma.rest hcomma.rest).bind fun others hothers => ?_
    refine Ends.pure ⟨⟨nofun, ?_⟩, hothers.rest⟩
    rintro d (_ | ⟨_, hd⟩)
    · exact hdecl.value
    · exact hothers.value.2 d hd
  · refine (semicolon_reads hend comma.rest hcomma.rest).bind fun stop hstop => ?_
    refine Ends.pure ⟨⟨nofun, ?_⟩, hstop.rest⟩
    rintro d (_ | ⟨_, ⟨⟩⟩)
    exact hdecl.value
termination_by toks.length

theorem param_gets (h : Token.Run P Q toks) :
    Gets P Q (fun p => p.Written P ∧ p.isSound = true) (param r toks) := by
  unfold param
  refine (typeName_reads toks h).bind fun ty hty => ?_
  refine (Reading.name_gets hend hty.rest).bind fun named hnamed => ?_
  have hspan := Reading.nextSpan_at hend h
  have hvalue : (ty.value.getD .int).IsValue := by
    cases hread : ty.value with
    | none => exact ⟨by rintro ⟨⟩, by rintro ⟨⟩⟩
    | some t => exact hty.value t hread
  let sized (dims : List Expr) : Prop := ∀ e ∈ dims, Expr.Written P e
  have hparam : ∀ dims byRef, sized dims →
      ParamDecl.Written P ⟨named.value.1, ty.value.getD .int, dims, byRef, r.nextSpan toks⟩ :=
    fun dims byRef hdims => ⟨hspan, hdims, hvalue⟩
  have hrest : Reads P Q (fun p : ParamDecl => p.Written P ∧ p.isSound = true) (do
      let byRef ← Reader.accept "["
      let dims ← if byRef then Reader.take (arguments r "]") else pure []
      return ⟨named.value.1, ty.value.getD .int, dims, byRef, r.nextSpan toks⟩) := by
    refine (Reads.accept "[").bind fun byRef _ => ?_
    cases byRef with
    | true =>
      exact Reads.bind (.take fun toks h => arguments_reads hend "]" toks h)
        fun dims hdims => .pure ⟨hparam dims true hdims, rfl⟩
    | false =>
      have hnone : Reads P Q (· = []) (pure ([] : List Expr)) := .pure rfl
      refine hnone.bind fun dims hdims => .pure ?_
      rw [hdims]
      exact ⟨hparam [] false (by rintro _ ⟨⟩), rfl⟩
  exact (hrest named.rest hnamed.rest).bind fun decl hdecl => Ends.pure ⟨hdecl.value, hdecl.rest⟩

theorem params_gets (toks : List Token) (h : Token.Run P Q toks) :
    Gets P Q (fun ps => ∀ p ∈ ps, p.Written P ∧ p.isSound = true) (params r toks) := by
  rw [params]
  refine (param_gets hend h).bind fun first hfirst => ?_
  have := first.within
  refine (Reads.accept ")" first.rest hfirst.rest).bind fun close hclose => ?_
  have := close.within
  split
  · refine Ends.pure ⟨?_, hclose.rest⟩
    rintro p (_ | ⟨_, ⟨⟩⟩)
    exact hfirst.value
  · refine (Reads.accept "," close.rest hclose.rest).bind fun comma hcomma => ?_
    have := comma.within
    split
    · refine (params_gets comma.rest hcomma.rest).bind fun others hothers => ?_
      refine Ends.pure ⟨?_, hothers.rest⟩
      rintro p (_ | ⟨_, hp⟩)
      · exact hfirst.value
      · exact hothers.value p hp
    · exact refuse_placed _ (Reading.nextSpan_at hend hcomma.rest)
termination_by toks.length

theorem functionHead_reads {ret : Ty} (hret : ret ≠ .undefined) :
    Reads P Q (fun d => d.Written P ∧ d.params.all (·.isSound) = true) (functionHead r ret) := by
  refine (name_reads hend).bind fun name _ => (keyword_reads hend "(").bind fun _ _ => ?_
  have hhead : ∀ ps : Reader (List ParamDecl),
      Reads P Q (fun ps => ∀ p ∈ ps, p.Written P ∧ p.isSound = true) ps →
      Reads P Q (fun d : FunctionDecl => d.Written P ∧ d.params.all (·.isSound) = true) (do
        let params ← ps
        openBrace r
        return ⟨name, ret, params⟩) := fun ps h =>
    h.bind fun ps hps => (openBrace_reads hend).bind fun _ _ =>
      .pure ⟨⟨hret, fun p hp => (hps p hp).1⟩, List.all_eq_true.mpr fun p hp => (hps p hp).2⟩
  refine (Reads.accept ")").bind fun closed _ => ?_
  cases closed with
  | true => exact hhead _ (.pure nofun)
  | false => exact hhead _ (.take fun toks h => params_gets hend toks h)

theorem forInit_reads :
    Reads P Q (fun ss => Stmt.AllKeep (.written P) ss ∧ ss.all (·.isInit) = true) (forInit r) := by
  refine (Reads.sees ";").bind fun none _ => ?_
  cases none with
  | true => exact .pure ⟨trivial, rfl⟩
  | false =>
    refine Reads.ahead.bind fun toks htoks => typeName_reads.bind fun ty hty => ?_
    have hspan := Reading.nextSpan_at hend htoks
    cases ty with
    | some ty =>
      refine (name_reads hend).bind fun name _ => ?_
      exact (initialValue_reads hend).bind fun init hinit =>
        .pure ⟨⟨⟨hspan, nofun, hinit, hty ty rfl⟩, trivial⟩, rfl⟩
    | none => exact (value_reads hend).bind fun e he => .pure ⟨⟨⟨hspan, he⟩, trivial⟩, rfl⟩

theorem forLoop_reads : Reads P Q (fun o => o.Written P ∧ o.standsIn .l2 = true) (forLoop r) := by
  refine (keyword_reads hend "(").bind fun _ _ => (forInit_reads hend).bind fun init hinit => ?_
  refine (keyword_reads hend ";").bind fun _ _ => (valueUnless_reads hend ";").bind fun cond hcond => ?_
  refine (keyword_reads hend ";").bind fun _ _ => (valueUnless_reads hend ")").bind fun step hstep => ?_
  refine (keyword_reads hend ")").bind fun _ _ => (openBrace_reads hend).bind fun _ _ => ?_
  exact .pure ⟨⟨hinit.1, hcond, hstep⟩, by simpa [Opener.standsIn] using hinit.2⟩

theorem loopEnd_reads : Reads P Q (Expr.Written? P) (loopEnd r) := by
  intro toks h
  cases toks with
  | nil => exact Ends.ok ⟨.none, h⟩
  | cons t ts =>
    unfold loopEnd
    dsimp only
    split
    · have hended : Reads P Q (fun v : Expr × Bool => v.1.Written P)
          (do return (← condition r, ← Reader.accept ";")) :=
        (condition_reads hend).bind fun e he => (Reads.accept ";").bind fun _ _ => .pure he
      refine (hended ts h.tail).bind fun p hp => ?_
      split
      · exact Ends.pure ⟨.some hp.value, hp.rest⟩
      · exact Ends.pure ⟨.none, h⟩
    · exact Ends.ok ⟨.none, h⟩

theorem closing_reads (hspan : P span) : Reads P Q (Line.Fits P .l2) (closing r span) := by
  refine (Reads.accept "else").bind fun other _ => ?_
  cases other with
  | true =>
    refine (Reads.accept "if").bind fun again _ => ?_
    cases again with
    | true =>
      refine (condition_reads hend).bind fun e he => ?_
      exact (openBrace_reads hend).bind fun _ _ => .pure ⟨⟨he, hspan⟩, rfl⟩
    | false => exact (openBrace_reads hend).bind fun _ _ => .pure ⟨hspan, rfl⟩
  | false =>
    refine (loopEnd_reads hend).bind fun cond hcond => ?_
    cases cond with
    | some e => exact .pure ⟨⟨hcond e rfl, hspan⟩, rfl⟩
    | none => exact .pure ⟨hspan, rfl⟩

theorem blockHead_reads (hspan : P span) {opener : Expr → Opener}
    (h : ∀ e, e.Written P → (opener e).Written P) (hform : ∀ e, (opener e).standsIn .l2 = true) :
    Reads P Q (Line.AllFit P .l2) (blockHead r span opener) := by
  refine (condition_reads hend).bind fun e he => (openBrace_reads hend).bind fun _ _ => ?_
  exact .pure (Line.fit_single ⟨h e he, hspan⟩ (hform e))

theorem definition_reads (hspan : P span) {ty : Ty} (hty : ty ≠ .undefined) :
    Reads P Q (Line.AllFit P .l2) (definition r span ty) := by
  refine Reads.ahead.bind fun toks _ => ?_
  split
  · refine ((functionHead_reads hend hty).during _).bind fun d hd =>
      .pure (Line.fit_single ⟨hd.1, hspan⟩ ?_)
    simpa [Line.standsIn, Opener.standsIn] using hd.2
  · rename_i hvoid
    have hvalue : ty.IsValue := ⟨hty, fun h => hvoid (by simp [h])⟩
    refine (Reads.during _ (.take fun toks h => declarators_gets hend hvalue toks h)).bind
      fun ds hds => .pure ⟨by simpa using hds.1, fun l hl => ?_⟩
    obtain ⟨d, hd, rfl⟩ := List.mem_map.mp hl
    have hd := hds.2 d hd
    exact ⟨⟨hspan, hd.dims, hd.init, hd.ty⟩, rfl⟩

theorem loopExit_reads (hspan : P span) (kind : LoopExit) :
    Reads P Q (Line.AllFit P .l2) (loopExit r span kind) := by
  have hexit : ∀ label : Reader (Option String), Reads P Q (fun _ => True) label →
      Reads P Q (Line.AllFit P .l2) (do
        let label ← label
        semicolon r
        return [.plain (.exit span kind label)]) := fun label h =>
    h.bind fun label _ => (semicolon_reads hend).bind fun _ _ => .pure (Line.fit_single hspan)
  refine Reads.ahead.bind fun toks _ => ?_
  dsimp only
  split
  · exact hexit _ ((name_reads hend).map fun _ _ => trivial)
  · exact hexit _ (.pure trivial)

theorem lineAfter?_reads (hspan : P span) {text : String} {reader : Reader (List Line)}
    (h : lineAfter? r span text = some reader) : Reads P Q (Line.AllFit P .l2) reader := by
  unfold lineAfter? at h
  split at h <;> cases h
  · exact definition_reads hend hspan nofun
  · exact definition_reads hend hspan nofun
  · exact definition_reads hend hspan nofun
  · exact definition_reads hend hspan nofun
  · refine (name_reads hend).bind fun name _ => (keyword_reads hend "=").bind fun _ _ => ?_
    refine (item_reads hend).bind fun e he => (semicolon_reads hend).bind fun _ _ => ?_
    exact .pure (Line.fit_single ⟨hspan, he⟩)
  · exact blockHead_reads hend hspan (fun _ he => he) fun _ => rfl
  · exact blockHead_reads hend hspan (fun _ he => he) fun _ => rfl
  · exact blockHead_reads hend hspan (fun _ he => he) fun _ => rfl
  · refine Reads.bind (.take fun toks h => expression_reads hend _ toks h) fun e he => ?_
    exact (keyword_reads hend ":").bind fun _ _ => .pure (Line.fit_single ⟨hspan, he⟩)
  · exact (keyword_reads hend ":").bind fun _ _ => .pure (Line.fit_single hspan)
  · refine (name_reads hend).bind fun label _ => ?_
    exact (semicolon_reads hend).bind fun _ _ => .pure (Line.fit_single hspan)
  · refine (condition_reads hend).bind fun e he => (Reads.accept ";").bind fun found _ => ?_
    have hopen : Reads P Q (Line.AllFit P .l2) (do
        openBrace r
        return [.opening (.whileLoop e) span]) :=
      (openBrace_reads hend).bind fun _ _ => .pure (Line.fit_single ⟨he, hspan⟩)
    split
    · have hrefuse : Reads P Q (fun _ => True) (Reader.refuseAt (α := PUnit)
        (.unexpected "\"while\" without \"do\"") span) := .refuseAt _ hspan
      exact hrefuse.bind fun _ _ => hopen
    · exact hopen
  · exact (openBrace_reads hend).bind fun _ _ => .pure (Line.fit_single ⟨trivial, hspan⟩)
  · exact ((forLoop_reads hend).during _).bind fun o ho => .pure (Line.fit_single ⟨ho.1, hspan⟩ ho.2)
  · exact .pure (Line.fit_single hspan)
  · exact .pure (Line.fit_single ⟨trivial, hspan⟩)
  · exact (closing_reads hend hspan).bind fun l hl => .pure (Line.fit_single hl.written hl.form)
  · exact .refuseAt _ hspan
  · refine (name_reads hend).bind fun name _ => ?_
    exact (openBrace_reads hend).bind fun _ _ => .pure (Line.fit_single ⟨trivial, hspan⟩)
  · refine (valueUnless_reads hend ";").bind fun value hvalue => ?_
    exact (semicolon_reads hend).bind fun _ _ => .pure (Line.fit_single ⟨hspan, hvalue⟩)
  · exact loopExit_reads hend hspan _
  · exact loopExit_reads hend hspan _
  · refine (name_reads hend).bind fun event _ => (valueUnless_reads hend ";").bind fun value hvalue => ?_
    exact (semicolon_reads hend).bind fun _ _ => .pure (Line.fit_single ⟨hspan, hvalue⟩)

theorem exprLine_gets (hspan : P span) (h : Token.Run P Q toks) :
    Gets P Q (Line.AllFit P .l2) (exprLine r span toks) := by
  unfold exprLine
  refine (expression_reads hend _ toks h).bind fun value hvalue => ?_
  exact (semicolon_reads hend value.rest hvalue.rest).bind fun stop hstop =>
    Ends.pure ⟨Line.fit_single ⟨hspan, hvalue.value⟩, hstop.rest⟩

theorem line_gets (h : Token.Run P Q toks) : Gets P Q (Line.AllFit P .l2) (line r toks) := by
  cases toks with
  | nil => exact refuse_placed _ hend
  | cons t ts =>
    unfold line
    dsimp only
    split
    · split
      · rename_i reader hreader
        refine (lineAfter?_reads hend h.head hreader ts h.tail).mono fun p hp => ?_
        exact ⟨hp.value, hp.rest⟩
      · exact exprLine_gets hend h.head h
    · split
      · split
        · exact Ends.ok ⟨Line.fit_single h.head, h.tail.tail⟩
        · exact exprLine_gets hend h.head h
      · exact exprLine_gets hend h.head h
    · exact exprLine_gets hend h.head h

end L2

namespace Line

variable {r : Reading}

theorem next_gets (hend : P r.endSpan) {toks : List Token} (h : Token.Run P Q toks) :
    Gets P Q (AllFit P r.language) (next r toks) := by
  unfold next
  split
  · rename_i hlanguage
    exact hlanguage ▸ Simple.line_gets hend h
  · rename_i hlanguage
    exact hlanguage ▸ L2.line_gets hend h

theorem ofTokens_fit (hend : P r.endSpan) (toks : List Token) (h : Token.AllAt P toks) :
    Ends (SyntaxError.Placed P) (fun ls => ∀ l ∈ ls, l.Fits P r.language) (ofTokens r toks) := by
  fun_induction ofTokens r toks with
  | case1 => exact Ends.pure (by rintro _ ⟨⟩)
  | case2 t ts ih =>
    have hrun : Token.Run P (fun _ => True) (t :: ts) := ⟨h, fun _ _ => trivial⟩
    refine (next_gets hend hrun).bind fun lines hlines => ?_
    refine (ih lines hlines.rest.places).bind fun more hmore => Ends.pure ?_
    intro l hl
    rcases List.mem_append.mp hl with hl | hl
    · exact hlines.value.fits l hl
    · exact hmore l hl

/-- The lines of tokens hold what stands at the places of the tokens. -/
theorem ofTokens_ends (hend : P r.endSpan) (toks : List Token) (h : Token.AllAt P toks) :
    Ends (SyntaxError.Placed P) (fun ls => ∀ l ∈ ls, l.Written P) (ofTokens r toks) :=
  (ofTokens_fit hend toks h).mono fun _ hls l hl => (hls l hl).written

/-- Every line that is read is of a form of its language. -/
theorem read_standsIn {settings : Settings} {source : Source} {lines : List Line}
    (h : Line.read settings source = .ok lines) : ∀ l ∈ lines, l.standsIn settings.language = true := by
  unfold Line.read at h
  dsimp only at h
  cases hread : (do ofTokens (reading settings source) (← tokens settings.language source) :
      Except SyntaxError (List Line)) with
  | error e =>
    rw [hread] at h
    cases h
  | ok ls =>
    rw [hread] at h
    cases h
    obtain ⟨toks, -, htoks⟩ := bind_eq_ok.mp hread
    have hfit := (ofTokens_fit (P := fun _ => True) trivial toks fun _ _ => trivial).of_ok htoks
    exact fun l hl => (hfit l hl).form

end Line

/-! ### Blocks -/

/-- A routine as it is read. -/
structure Routine.Written (P : Span → Prop) (r : Routine) : Prop where
  span : P r.span
  body : Stmt.AllKeep (.written P) r.body
  decl : ∀ d s, r.kind = .function d s → d.Written P

/-- The arms of an `if` as they are read. -/
def Arms.AllWritten (P : Span → Prop) (arms : List (Span × Expr × List Stmt)) : Prop :=
  ∀ arm ∈ arms, P arm.1 ∧ arm.2.1.Written P ∧ Stmt.AllKeep (.written P) arm.2.2

theorem Arms.ofList_keeps {final : Option (List Stmt)}
    (hfinal : ∀ body, final = some body → Stmt.AllKeep (.written P) body) :
    ∀ {arms : List (Span × Expr × List Stmt)}, AllWritten P arms →
    (Arms.ofList arms final).Keeps (.written P)
  | [], _ => by
    cases final with
    | none => trivial
    | some body => exact hfinal body rfl
  | first :: arms, h => by
    obtain ⟨hspan, hcond, hbody⟩ := h first List.mem_cons_self
    exact ⟨hspan, hcond, hbody, ofList_keeps hfinal fun a ha => h a (List.mem_cons_of_mem _ ha)⟩

namespace Block

/-- What an open block is, as it is read. -/
def Kind.Written (P : Span → Prop) : Kind → Prop
  | .routine kind => ∀ d s, kind = .function d s → d.Written P
  | .branch arms current =>
    Arms.AllWritten P arms ∧ ∀ c, current = some c → c.1.Written P ∧ P c.2
  | .whenever e | .whileLoop e | .switch e => e.Written P
  | .rangeFor var first last step =>
    var.Counter P (fun _ => True) ∧ first.Written P ∧ last.Written P ∧ Expr.Written? P step
  | .forLoop init cond step =>
    Stmt.AllKeep (.written P) init ∧ Expr.Written? P cond ∧ Expr.Written? P step
  | .doLoop | .block => True

/-- An open block as it is read. -/
structure Written (P : Span → Prop) (b : Block) : Prop where
  kind : b.kind.Written P
  span : P b.span
  body : Stmt.AllKeep (.written P) b.body

variable {span : Span}

theorem refuse_placed {α : Type} {good : α → Prop} (fault : SyntaxFault) (h : P span) :
    Ends (CompileError.Placed P) good (refuse fault span) where
  cause _ := by simp [Diagnostic.placedAt, Diagnostic.ofCause]
  span s hs := by
    obtain rfl : span = s := by simpa [Diagnostic.placedAt, Diagnostic.ofCause] using hs
    exact h
  snippet := rfl
  placed := rfl

theorem Kind.ofOpener_written {opener : Opener} (h : opener.Written P) (hspan : P span) :
    (Kind.ofOpener opener span).Written P := by
  cases opener with
  | branch e =>
    refine ⟨nofun, ?_⟩
    rintro _ ⟨⟩
    exact ⟨h, hspan⟩
  | onEvent name => exact nofun
  | function decl =>
    rintro d s ⟨⟩
    exact h
  | _ => exact h

theorem arms_append {arms : List (Span × Expr × List Stmt)} {cond : Expr} {b : Block} (hb : b.Written P)
    (hkind : b.kind = .branch arms (some (cond, span))) :
    Arms.AllWritten P (arms ++ [(span, cond, b.body)]) := by
  have hk := hb.kind
  rw [hkind] at hk
  obtain ⟨hcond, hspan⟩ := hk.2 _ rfl
  intro arm harm
  rcases List.mem_append.mp harm with harm | harm
  · exact hk.1 arm harm
  · obtain rfl := List.mem_singleton.mp harm
    exact ⟨hspan, hcond, hb.body⟩

theorem nextArm_ends {b : Block} {what : String} {current : Option (Expr × Span)} (hb : b.Written P)
    (hcurrent : ∀ c, current = some c → c.1.Written P ∧ P c.2) (hspan : P span) :
    Ends (CompileError.Placed P) (Written P) (b.nextArm what current span) := by
  unfold nextArm
  split
  · rename_i arms cond armSpan hkind
    exact Ends.pure ⟨⟨arms_append hb hkind, hcurrent⟩, hb.span, trivial⟩
  · exact refuse_placed _ hspan

/-- What closing a block gives, as it is read. -/
def Closed (P : Span → Prop) : Routine ⊕ Stmt → Prop
  | .inl r => r.Written P
  | .inr s => s.Keeps (.written P)

theorem close_ends {b : Block} {cond : Option Expr} (hb : b.Written P) (hcond : Expr.Written? P cond)
    (hspan : P span) : Ends (CompileError.Placed P) (Closed P) (b.close cond span) := by
  have hk := hb.kind
  unfold close
  split
  · rename_i hkind
    exact Ends.pure ⟨hb.span, hcond _ rfl, hb.body⟩
  · exact refuse_placed _ hspan
  · exact refuse_placed _ hspan
  · rename_i hkind
    rw [hkind] at hk
    exact Ends.pure (show Routine.Written P _ from ⟨hb.span, hb.body, hk⟩)
  · rename_i hkind
    refine Ends.pure ⟨hb.span, Arms.ofList_keeps ?_ (arms_append hb hkind)⟩
    exact nofun
  · rename_i hkind
    rw [hkind] at hk
    refine Ends.pure ⟨hb.span, Arms.ofList_keeps ?_ hk.1⟩
    rintro _ ⟨⟩
    exact hb.body
  · rename_i hkind
    rw [hkind] at hk
    exact Ends.pure ⟨hb.span, hk, hb.body⟩
  · rename_i hkind
    rw [hkind] at hk
    exact Ends.pure ⟨hb.span, Expr.Written?.some hk, hb.body⟩
  · rename_i hkind
    rw [hkind] at hk
    exact Ends.pure ⟨hb.span, hk.1, hk.2.1, hk.2.2.1, hk.2.2.2, hb.body⟩
  · rename_i hkind
    rw [hkind] at hk
    exact Ends.pure ⟨hb.span, hk.1, hk.2.1, hk.2.2, hb.body⟩
  · rename_i hkind
    rw [hkind] at hk
    exact Ends.pure ⟨hb.span, hk, hb.body⟩
  · exact Ends.pure ⟨hb.span, hb.body⟩

end Block

namespace Blocks

/-- The blocks and routines so far, as they are read. -/
structure Written (P : Span → Prop) (s : Blocks) : Prop where
  inner : ∀ b ∈ s.inner, b.Written P
  current : s.current.Written P
  done : ∀ r ∈ s.done, r.Written P

variable {s : Blocks}

theorem Written.push (h : s.Written P) {stmt : Stmt} (hs : stmt.Keeps (.written P)) :
    (s.push stmt).Written P := by
  have hadd : ∀ {body : List Stmt}, Stmt.AllKeep (.written P) body →
      Stmt.AllKeep (.written P) (body ++ [stmt]) :=
    fun hbody => Stmt.allKeep_append.mpr ⟨hbody, hs, trivial⟩
  unfold Blocks.push
  split
  · rename_i b bs hinner
    have hb := h.inner b (by simp [hinner])
    refine ⟨?_, h.current, h.done⟩
    intro b' hb'
    rcases List.mem_cons.mp hb' with rfl | hb'
    · exact ⟨hb.kind, hb.span, hadd hb.body⟩
    · exact h.inner b' (by simp [hinner, hb'])
  · exact ⟨h.inner, ⟨h.current.span, hadd h.current.body, h.current.decl⟩, h.done⟩

theorem Written.plain (h : s.Written P) {stmt : Stmt} (hs : stmt.Keeps (.written P)) :
    Ends (CompileError.Placed P) (Blocks.Written P) (s.plain stmt) := by
  unfold Blocks.plain
  split
  · exact Ends.pure (h.push hs)
  · split
    · exact Block.refuse_placed _ hs.1
    · exact Block.refuse_placed _ hs
    · exact Ends.pure (h.push hs)

theorem Written.opening (h : s.Written P) {opener : Opener} {span : Span} (ho : opener.Written P)
    (hspan : P span) : Ends (CompileError.Placed P) (Blocks.Written P) (s.opening opener span) := by
  have hopened : ∀ label, Blocks.Written P
      { s with inner := ⟨Block.Kind.ofOpener opener span, span, label, []⟩ :: s.inner } := by
    intro label
    refine ⟨?_, h.current, h.done⟩
    rintro b (_ | ⟨_, hb⟩)
    · exact ⟨Block.Kind.ofOpener_written ho hspan, hspan, trivial⟩
    · exact h.inner b hb
  have hnested : ∀ what, Ends (CompileError.Placed P) (fun _ : PUnit => True)
      (semantic (.nestedDefinition what) span) := fun _ => semantic_placed _ hspan
  unfold Blocks.opening
  split
  · split
    · exact (hnested _).bind fun _ _ => Ends.pure (hopened _)
    · exact (hnested _).bind fun _ _ => Ends.pure (hopened _)
    · exact Ends.pure (hopened _)
  · exact Ends.pure (hopened _)

theorem Written.nextArm (h : s.Written P) {what : String} {current : Option (Expr × Span)}
    {span : Span} (hcurrent : ∀ c, current = some c → c.1.Written P ∧ P c.2) (hspan : P span) :
    Ends (CompileError.Placed P) (Blocks.Written P) (s.nextArm what current span) := by
  unfold Blocks.nextArm
  split
  · rename_i b bs hinner
    refine (Block.nextArm_ends (h.inner b (by simp [hinner])) hcurrent hspan).bind fun b' hb' => ?_
    refine Ends.pure ⟨?_, h.current, h.done⟩
    intro a ha
    rcases List.mem_cons.mp ha with rfl | ha
    · exact hb'
    · exact h.inner a (by simp [hinner, ha])
  · exact Block.refuse_placed _ hspan

theorem Written.closing (h : s.Written P) {what : String} {cond : Option Expr} {span : Span}
    (hcond : Expr.Written? P cond) (hspan : P span) :
    Ends (CompileError.Placed P) (Blocks.Written P) (s.closing what cond span) := by
  unfold Blocks.closing
  split
  · exact Block.refuse_placed _ hspan
  · rename_i b bs hinner
    have houter : Blocks.Written P { s with inner := bs } :=
      ⟨fun a ha => h.inner a (by simp [hinner, ha]), h.current, h.done⟩
    refine (Block.close_ends (h.inner b (by simp [hinner])) hcond hspan).bind fun x hx => ?_
    cases x with
    | inl r =>
      refine Ends.pure ⟨houter.inner, h.current, fun a ha => ?_⟩
      rcases List.mem_append.mp ha with ha | ha
      · exact h.done a ha
      · obtain rfl := List.mem_singleton.mp ha
        exact hx
    | inr stmt => exact Ends.pure (houter.push hx)

theorem Written.finish (h : s.Written P) :
    Ends (CompileError.Placed P) (fun rs => rs ≠ [] ∧ ∀ r ∈ rs, r.Written P) s.finish := by
  unfold Blocks.finish
  split
  · rename_i b _ hinner
    exact Block.refuse_placed _ (h.inner b (by simp [hinner])).span
  · refine Ends.pure ⟨by simp, fun r hr => ?_⟩
    rcases List.mem_cons.mp hr with rfl | hr
    · exact h.current
    · exact h.done r hr
  · refine Ends.pure ⟨by simp, fun r hr => ?_⟩
    rcases List.mem_append.mp hr with hr | hr
    · exact h.done r hr
    · obtain rfl := List.mem_singleton.mp hr
      exact h.current

theorem Written.line (h : s.Written P) (language : Language) {l : Line} (hl : l.Written P) :
    Ends (CompileError.Placed P) (Blocks.Written P) (s.line language l) := by
  cases l with
  | plain stmt => exact h.plain hl
  | opening opener span => exact h.opening hl.1 hl.2
  | elseIf cond span =>
    refine h.nextArm ?_ hl.2
    rintro _ ⟨⟩
    exact hl
  | otherwise span => exact h.nextArm nofun hl
  | closing span => exact h.closing .none hl
  | closingWhile cond span => exact h.closing (.some hl.1) hl.2
  | header header span =>
    refine h.finish.bind fun rs hrs => Ends.pure ⟨nofun, ⟨hl, trivial, ?_⟩, hrs.2⟩
    cases header <;> exact nofun

end Blocks

/-- Pairing lines up to routines keeps what they hold; there is at least the
init code. -/
theorem Routine.ofLines_ends (language : Language) (hstart : P (.single 0)) {lines : List Line}
    (h : ∀ l ∈ lines, l.Written P) :
    Ends (CompileError.Placed P) (fun rs => rs ≠ [] ∧ ∀ r ∈ rs, r.Written P)
      (Routine.ofLines language lines) := by
  have hblocks : Blocks.start.Written P := ⟨nofun, ⟨hstart, trivial, nofun⟩, nofun⟩
  refine Ends.bind (Ends.foldlM lines _ hblocks fun s hs l hl => hs.line language (h l hl)) ?_
  exact fun s hs => hs.finish

end RobotScript
