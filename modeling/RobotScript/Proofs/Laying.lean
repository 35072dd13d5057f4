/-
# Laying out and preparing a program

With storage, every variable in a statement has its place and declarations
have said what they had to. The names that are open at any time stand for
numbers and for variables that hold values, and the functions known so far
take values. Types and folding follow, so that a program made from lines is
ready to be assembled, and a failure on the way stands at a place of the
script.

Key definitions: `Layout.Sound`, `Laying.Lays`, `Laying.Course`, `Stmt.Lays`, `Allocation.Sound`,
`Routine.Keeps`.
Key theorems: `Stmt.Lays.all`, `Program.ofLines_ends`, `Program.ofLines_eq_ok`.
-/
import RobotScript.Program.Build
import RobotScript.Proofs.LineShapes

namespace RobotScript

variable {P : Span → Prop}

/-- The names in the open scopes stand for numbers and for variables that hold
values. -/
def Layout.Sound (l : Layout) : Prop := ∀ s ∈ l.scopes, ∀ n ∈ s.names, n.2.Sound

/-- A step of laying out gives something `good` and a sound layout, or fails at
a place `P`. -/
abbrev Laying.Lays {α : Type} (P : Span → Prop) (good : α → Prop) (x : Laying α) : Prop :=
  Yields (CompileError.Placed P) Layout.Sound good x

open Laying (Lays)

theorem semantic_lays {α : Type} {good : α → Prop} (fault : SemanticFault) {span : Span}
    (h : P span) : Lays P good (liftM (semantic fault span : Result α)) :=
  .lift (semantic_placed fault h)

namespace Layout

theorem Sound.lookup {l : Layout} (h : l.Sound) (name : String) (b : Binding)
    (hb : l.lookup? name = some b) : b.Sound := by
  obtain ⟨s, hs, hname⟩ := List.exists_of_findSome?_eq_some hb
  obtain ⟨front, back, hsplit, -⟩ := List.lookup_eq_some_iff.mp hname
  exact h s hs (name, b) (by simp [hsplit])

theorem nodeNames_sound : ∀ {vs : List NodeVariable} {names : List (String × Binding)} (offset : Nat),
    (∀ n ∈ names, n.2.Sound) → ∀ n ∈ nodeNames offset names vs, n.2.Sound
  | [], _, _, h => h
  | v :: vs, names, offset, h => by
    refine nodeNames_sound (counted (offset + v.size)) ?_
    rintro n (_ | ⟨_, hn⟩)
    · exact ⟨nofun, nofun⟩
    · exact h n hn

theorem start_sound (node : Node) : (start node).Sound := by
  rintro s (_ | ⟨_, ⟨⟩⟩)
  exact nodeNames_sound 0 nofun

theorem Sound.pushScope {l : Layout} (h : l.Sound) : l.pushScope.Sound := by
  rintro s (_ | ⟨_, hs⟩)
  · exact nofun
  · exact h s hs

theorem Sound.closeTo {before l : Layout} (hbefore : before.Sound) (h : l.Sound) (blockScoping : Bool) :
    (closeTo before blockScoping l).Sound := by
  cases blockScoping with
  | true => exact hbefore
  | false => exact h

variable {span : Span}

theorem declare_lays (name : String) {binding : Binding} (hb : binding.Sound) (h : P span) :
    Lays P (fun _ => True) (declare name binding span) := by
  refine Yields.get.bind fun l hl => ?_
  split
  · exact .pure trivial
  · rename_i s ss hscopes
    split
    · exact semantic_lays _ h
    · have hall : ∀ s' ∈ s :: ss, ∀ n ∈ s'.names, n.2.Sound := hscopes ▸ hl
      refine .set ?_
      rintro s' (_ | ⟨_, hs'⟩)
      · rintro n (_ | ⟨_, hn⟩)
        · exact hb
        · exact hall s List.mem_cons_self n hn
      · exact hall s' (List.mem_cons_of_mem _ hs')

theorem declareLabel_lays (name : String) (h : P span) : Lays P (fun _ => True) (declareLabel name span) := by
  refine Yields.get.bind fun l hl => ?_
  split
  · exact .pure trivial
  · rename_i s ss hscopes
    split
    · exact semantic_lays _ h
    · have hall : ∀ s' ∈ s :: ss, ∀ n ∈ s'.names, n.2.Sound := hscopes ▸ hl
      refine .set ?_
      rintro s' (_ | ⟨_, hs'⟩)
      · exact hall s List.mem_cons_self
      · exact hall s' (List.mem_cons_of_mem _ hs')

theorem reserveFrame_lays (f : Frame) (size : Nat) : Lays P (fun _ => True) (reserveFrame f size) :=
  Yields.bind (.modify fun _ hl => hl) fun _ _ => .pure trivial

theorem reserve_lays (node : Node) (size : Nat) (h : P span) :
    Lays P (fun _ => True) (reserve node size span) := by
  refine Yields.get.bind fun l hl => ?_
  split
  · exact (reserveFrame_lays _ size).bind fun _ _ => .pure trivial
  · split
    · exact semantic_lays _ h
    · exact Yields.bind (.set hl) fun _ _ => .pure trivial

theorem enclosed_lays {α : Type} {good : α → Prop} {blockScoping : Bool} {x : Laying α}
    (h : Lays P good x) : Lays P good (enclosed blockScoping x) := by
  refine Yields.get.bind fun before hbefore => ?_
  have hinside : Lays P good (do
      let a ← x
      modify (closeTo before blockScoping)
      return a) :=
    h.bind fun a ha => Yields.bind (.modify fun _ hl => hbefore.closeTo hl _) fun _ _ => .pure ha
  cases blockScoping with
  | true => exact Yields.bind (.modify fun _ hl => hl.pushScope) fun _ _ => hinside
  | false => exact hinside

theorem labelName_lays (own : Bool) (name : String) (h : P span) :
    Lays P (fun _ => True) (labelName own name span) := by
  refine Yields.get.bind fun l _ => ?_
  dsimp only
  split
  · exact .pure trivial
  · exact semantic_lays _ h

end Layout

open Layout

namespace Expr

/-- An expression whose variables have storage. -/
abbrev Bound (P : Span → Prop) : Expr → Prop := Tree P Variable.Held

theorem lay_lays {e : Expr} (h : e.Written P) : Lays P (Bound P) e.lay :=
  Yields.get.bind fun _ hl => .lift (h.bind hl.lookup)

theorem lay?_lays {e : Option Expr} (h : Written? P e) :
    Lays P (fun r => ∀ e', r = some e' → Bound P e') (lay? e) := by
  cases e with
  | none => exact .pure (by rintro _ ⟨⟩)
  | some e =>
    refine (lay_lays (h e rfl)).bind fun e' he' => .pure ?_
    rintro _ ⟨⟩
    exact he'

theorem layAll_lays {es : List Expr} (h : ∀ e ∈ es, Written P e) :
    Lays P (fun r => ∀ e ∈ r, Bound P e) (layAll es) :=
  Yields.get.bind fun _ hl =>
    .lift ((bindAll_ends fun e he => (h e he).bind hl.lookup).mono fun _ hr => hr.2)

/-- A counter is a variable with storage, or a constant. -/
theorem Counter.lay_lays {e : Expr} (h : e.Counter P fun _ => True) :
    Lays P (Counter P Variable.Held) e.lay := by
  refine Yields.get.bind fun l hl => .lift ?_
  cases e with
  | var i v =>
    rw [Expr.bind]
    refine (lookup_ends hl.lookup v.name h.1).bind fun b hb => ?_
    rcases b with s | n
    · exact Ends.pure ⟨h.1, s, rfl, hb⟩
    · exact Ends.pure ⟨h.1, rfl⟩
  | number i n => exact Ends.pure h
  | _ => exact h.elim

end Expr

namespace Surroundings

/-- The functions known so far are sound, and so is the result type. -/
structure Sound (s : Surroundings) : Prop where
  calls : s.calls.Sound
  ret : s.ret ≠ some .undefined

variable {s : Surroundings} (hs : s.Sound)
include hs

theorem constant_lays (what : String) {e : Expr} (h : e.Written P) :
    Lays P (fun _ => True) (s.constant what e) := by
  refine (Expr.lay_lays h).bind fun bound hbound => ?_
  refine Yields.bind (.lift (hbound.typed_parts hs.calls).1) fun typed htyped => ?_
  refine Yields.bind (.lift htyped.fold) fun folded _ => ?_
  split
  · exact .pure trivial
  · exact .pure trivial
  · exact semantic_lays _ h.span

theorem dimension_lays (what : String) {e : Expr} (h : e.Written P) :
    Lays P (fun _ => True) (s.dimension what e) := by
  refine (constant_lays hs what h).bind fun n _ => ?_
  split
  · exact .pure trivial
  · exact semantic_lays _ h.span

theorem dimensions_lays {init : Option Expr} {span : Span} (hspan : P span)
    (hinit : ∀ e, init = some e → Expr.Bound P e) : ∀ {dims : List (Option Expr)},
    (∀ e, some e ∈ dims → Expr.Written P e) → Lays P (fun _ => True) (s.dimensions init span dims)
  | [], _ => .pure trivial
  | some e :: dims, h => by
    unfold dimensions
    refine (dimension_lays hs _ (h e List.mem_cons_self)).bind fun n _ => ?_
    refine (dimensions_lays hspan hinit fun e' he' => h e' (List.mem_cons_of_mem _ he')).bind ?_
    exact fun _ _ => .pure trivial
  | none :: dims, h => by
    unfold dimensions
    cases init with
    | none => exact semantic_lays _ hspan
    | some value =>
      refine Yields.bind (.lift ((hinit value rfl).typed_parts hs.calls).1) fun typed _ => ?_
      refine (dimensions_lays hspan hinit fun e' he' => h e' (List.mem_cons_of_mem _ he')).bind ?_
      exact fun _ _ => .pure trivial

theorem varDecl_lays {span : Span} {d : VarDecl} (hspan : P span) (h : d.Written P) :
    Lays P (Stmt.AllKeep (.bound P s.ret)) (s.varDecl span d) := by
  unfold varDecl
  refine (Expr.lay?_lays h.init).bind fun init hinit => ?_
  refine (dimensions_lays hs hspan hinit h.dims).bind fun dims _ => ?_
  refine (reserve_lays _ _ hspan).bind fun ⟨offset, mode⟩ _ => ?_
  have hsound : Binding.Sound (.variable ⟨offset, dims, d.ty, mode⟩) := h.ty
  refine (declare_lays _ hsound hspan).bind fun _ _ => ?_
  cases init with
  | none => exact .pure ⟨⟨hspan, nofun, nofun, h.ty⟩, trivial⟩
  | some value =>
    have hvalue := hinit value rfl
    refine .pure ⟨⟨hspan, nofun, nofun, h.ty⟩, ⟨hspan, .op hvalue.span rfl trivial ?_⟩, trivial⟩
    rintro e (_ | ⟨_, _ | ⟨_, ⟨⟩⟩⟩)
    · exact .var hspan ⟨_, rfl, h.ty⟩
    · exact hvalue

/-- A value is returned only where one is expected. -/
theorem checkReturn_ends {value : Option Expr} {span : Span} (hspan : P span) :
    Ends (CompileError.Placed P) (fun _ => ∀ e, value = some e → Stmt.ReturnsValue s.ret)
      (s.checkReturn value span) := by
  unfold checkReturn
  split
  · exact semantic_placed _ hspan
  · exact semantic_placed _ hspan
  · exact Ends.pure (by rintro _ ⟨⟩)
  · exact Ends.pure (by rintro _ ⟨⟩)
  · rename_i ty _ hvoid hret
    exact Ends.pure fun _ _ => ⟨ty, hret, fun h => hs.ret (hret.trans (h ▸ rfl)), hvoid⟩
  · exact semantic_placed _ hspan

theorem params_lays : ∀ {ps : List ParamDecl}, (∀ p ∈ ps, ParamDecl.Written P p) →
    Lays P (fun ps' => ∀ p ∈ ps', p.ty.IsValue) (s.params ps)
  | [], _ => .pure nofun
  | p :: ps, h => by
    have hp := h p List.mem_cons_self
    unfold params
    refine Yields.bind (.mapM p.dims fun e he => dimension_lays hs _ (hp.dims e he)) fun dims _ => ?_
    refine Yields.get.bind fun l _ => (reserveFrame_lays _ 1).bind fun offset _ => ?_
    have hsound : ∀ mode, Binding.Sound (.variable ⟨offset, dims, p.ty, mode⟩) := fun _ => hp.ty
    refine (declare_lays _ (hsound _) hp.span).bind fun _ _ => ?_
    refine (params_lays fun q hq => h q (List.mem_cons_of_mem _ hq)).bind fun ps' hps' => .pure ?_
    rintro q (_ | ⟨_, hq⟩)
    · exact hp.ty
    · exact hps' q hq

end Surroundings

/-! ### Statements -/

namespace Laying

/-- A way to lay out statements: the failures that are fair on it, what holds
of each layout, and which layouts can come behind which. -/
structure Course where
  fair : CompileError → Prop
  inv : Layout → Prop
  le : Layout → Layout → Prop
  refl : ∀ l, le l l
  trans : ∀ {l l' l'' : Layout}, le l l' → le l' l'' → le l l''

/-- From a layout the step stays on course, and its value is good for all
layouts that come behind. -/
def Course.From {α : Type} (w : Course) (l : Layout) (good : α → Layout → Prop) (x : Laying α) : Prop :=
  Ends w.fair (fun r => w.inv r.2 ∧ w.le l r.2 ∧ ∀ l', w.le r.2 l' → good r.1 l') (x l)

/-- The step stays on course from wherever it is taken. -/
def Course.Keeps {α : Type} (w : Course) (good : α → Layout → Prop) (x : Laying α) : Prop :=
  ∀ l, w.inv l → w.From l good x

section Steps

variable {α β : Type} {w : Course} {good : α → Layout → Prop} {good' : β → Layout → Prop}
  {x : Laying α} {f : α → Laying β}

/-- The second step starts on course, and what the first gives is still good
behind it. -/
theorem Course.From.bind {l : Layout} (h : w.From l good x)
    (hf : ∀ a l₁, w.inv l₁ → good a l₁ → w.From l₁ (fun b l => good a l → good' b l) (f a)) :
    w.From l good' (x >>= f) := by
  refine Ends.bind h fun ⟨a, l₁⟩ ⟨hinv, hle, ha⟩ => ?_
  refine (hf a l₁ hinv (ha l₁ (w.refl l₁))).mono fun ⟨b, l₂⟩ ⟨hinv2, hle2, hb⟩ => ?_
  exact ⟨hinv2, w.trans hle hle2, fun l' hl' => hb l' hl' (ha l' (w.trans hle2 hl'))⟩

namespace Course.Keeps

theorem pure {a : α} (h : ∀ l, good a l) : w.Keeps good (pure a) :=
  fun l hl => ⟨hl, w.refl l, fun l' _ => h l'⟩

theorem mono {good' : α → Layout → Prop} (h : w.Keeps good x) (hgood : ∀ a l, good a l → good' a l) :
    w.Keeps good' x :=
  fun l hl => (h l hl).mono fun _ hr => ⟨hr.1, hr.2.1, fun l' hl' => hgood _ _ (hr.2.2 l' hl')⟩

theorem bind (h : w.Keeps good x) (hf : ∀ a, w.Keeps (fun b l => good a l → good' b l) (f a)) :
    w.Keeps good' (x >>= f) :=
  fun l hl => (h l hl).bind fun a l₁ hl1 _ => hf a l₁ hl1

/-- The value of the first step is of no concern. -/
theorem seq (h : w.Keeps (fun _ _ => True) x) (hf : ∀ a, w.Keeps good' (f a)) : w.Keeps good' (x >>= f) :=
  h.bind fun a => (hf a).mono fun _ _ hb _ => hb

end Course.Keeps

end Steps
end Laying

open Laying (Course)

namespace Stmt

/-- Laying out turns what keeps the promise `p` into what keeps `q`, which may
depend on the layout. -/
structure Lays (w : Course) (s : Surroundings) (p : Promise) (q : Layout → Promise) : Prop where
  place : ∀ {span : Span} (l : Layout), p.place span → (q l).place span
  sub : ∀ l : Layout, p.sub → (q l).sub
  value : ∀ {e : Expr}, p.value e → w.Keeps (fun e' l => (q l).value e') e.lay
  values : ∀ {es : List Expr}, (∀ e ∈ es, p.value e) →
    w.Keeps (fun es' l => ∀ e ∈ es', (q l).value e) (Expr.layAll es)
  counter : ∀ {e : Expr}, p.counter e → w.Keeps (fun e' l => (q l).counter e') e.lay
  varDecl : ∀ {span : Span} {d : VarDecl}, (varDecl span d).Keeps p →
    w.Keeps (fun ss l => AllKeep (q l) ss) (lay s (.varDecl span d))
  constDecl : ∀ {span : Span} {name : String} {e : Expr}, (constDecl span name e).Keeps p →
    w.Keeps (fun ss l => AllKeep (q l) ss) (lay s (.constDecl span name e))
  ret : ∀ {span : Span} {value : Option Expr}, (ret span value).Keeps p →
    w.Keeps (fun ss l => AllKeep (q l) ss) (lay s (.ret span value))
  declareLabel : ∀ {span : Span} (name : String), p.place span →
    w.Keeps (fun _ _ => True) (declareLabel name span)
  labelName : ∀ {span : Span} (own : Bool) (name : String), p.place span →
    w.Keeps (fun _ _ => True) (labelName own name span)
  enclosed : ∀ {α : Type} {good : α → Layout → Prop} {blockScoping : Bool} {x : Laying α},
    w.Keeps good x → w.Keeps good (enclosed blockScoping x)

namespace Lays

variable {w : Course} {s : Surroundings} {p : Promise} {q : Layout → Promise}

theorem value? (h : Lays w s p q) {e : Option Expr} (he : ∀ e', e = some e' → p.value e') :
    w.Keeps (fun r l => ∀ e', r = some e' → (q l).value e') (Expr.lay? e) := by
  cases e with
  | none => exact .pure fun _ => by rintro _ ⟨⟩
  | some e =>
    refine (h.value (he e rfl)).bind fun e' => .pure fun l hl => ?_
    rintro _ ⟨⟩
    exact hl

theorem labels (h : Lays w s p q) {ss : List Stmt} (hss : AllKeep p ss) :
    w.Keeps (fun _ _ => True) (declareLabels ss) := by
  induction ss with
  | nil => exact .pure fun _ => trivial
  | cons t ts ih =>
    have hrest := ih hss.2
    cases t with
    | label span name => exact (h.declareLabel name hss.1).seq fun _ => hrest
    | _ => exact hrest

theorem layBlock {α : Type} {good : α → Layout → Prop} {body : List Stmt} {x : Laying α} (h : Lays w s p q)
    (hbody : AllKeep p body) (hx : w.Keeps good x) : w.Keeps good (layBlock s body x) :=
  h.enclosed ((h.labels hbody).seq fun _ => hx)

mutual

/-- Laying out keeps the promise along a statement. -/
theorem stmt (h : Lays w s p q) : ∀ t : Stmt, t.Keeps p →
    w.Keeps (fun ss l => AllKeep (q l) ss) (lay s t)
  | .varDecl _ _, ht => h.varDecl ht
  | .constDecl _ _ _, ht => h.constDecl ht
  | .ret _ _, ht => h.ret ht
  | .expr _ _, ht => (h.value ht.2).bind fun _ => .pure fun l he => ⟨⟨h.place l ht.1, he⟩, trivial⟩
  | .case _ _, ht => (h.value ht.2).bind fun _ => .pure fun l he => ⟨⟨h.place l ht.1, he⟩, trivial⟩
  | .branch _ arms, ht =>
    (h.arms arms ht.2).bind fun _ => .pure fun l ha => ⟨⟨h.place l ht.1, ha⟩, trivial⟩
  | .whenever _ _ body, ht =>
    (h.value ht.2.1).bind fun _ => (h.layBlock ht.2.2 (h.all body ht.2.2)).bind fun _ =>
      .pure fun l hbody hcond => ⟨⟨h.place l ht.1, hcond, hbody⟩, trivial⟩
  | .whileLoop _ _ _ body, ht =>
    (h.value? ht.2.1).bind fun _ => (h.layBlock ht.2.2 (h.all body ht.2.2)).bind fun _ =>
      .pure fun l hbody hcond => ⟨⟨h.place l ht.1, hcond, hbody⟩, trivial⟩
  | .doWhile _ _ body _, ht =>
    (h.layBlock ht.2.2 (h.all body ht.2.2)).bind fun _ => (h.value ht.2.1).bind fun _ =>
      .pure fun l hcond hbody => ⟨⟨h.place l ht.1, hcond, hbody⟩, trivial⟩
  | .rangeFor _ _ _ _ _ _ body, ht =>
    (h.counter ht.2.1).bind fun _ => (h.value ht.2.2.1).bind fun _ =>
      (h.value ht.2.2.2.1).bind fun _ => (h.value? ht.2.2.2.2.1).bind fun _ =>
        (h.layBlock ht.2.2.2.2.2 (h.all body ht.2.2.2.2.2)).bind fun _ =>
          .pure fun l hbody hstep hlast hfirst hvar =>
            ⟨⟨h.place l ht.1, hvar, hfirst, hlast, hstep, hbody⟩, trivial⟩
  | .forLoop _ _ init _ _ body, ht =>
    h.enclosed <| (h.all init ht.2.1).bind fun _ => (h.value? ht.2.2.1).bind fun _ =>
      (h.value? ht.2.2.2.1).bind fun _ =>
        (h.layBlock ht.2.2.2.2 (h.all body ht.2.2.2.2)).bind fun _ =>
          .pure fun l hbody hstep hcond hinit =>
            ⟨⟨h.place l ht.1, hinit, hcond, hstep, hbody⟩, trivial⟩
  | .switch _ _ _ body, ht =>
    (h.value ht.2.1).bind fun _ => (h.layBlock ht.2.2 (h.all body ht.2.2)).bind fun _ =>
      .pure fun l hbody hsubject => ⟨⟨h.place l ht.1, hsubject, hbody⟩, trivial⟩
  | .block _ body, ht =>
    (h.layBlock ht.2 (h.all body ht.2)).bind fun _ =>
      .pure fun l hbody => ⟨⟨h.place l ht.1, hbody⟩, trivial⟩
  | .label _ name, ht | .goto _ name, ht =>
    (h.labelName _ name ht).seq fun _ => .pure fun l => ⟨h.place l ht, trivial⟩
  | .native _ _ _, ht =>
    (h.values ht.2).bind fun _ => .pure fun l hargs => ⟨⟨h.place l ht.1, hargs⟩, trivial⟩
  | .emit _ _ _, ht =>
    (h.value? ht.2).bind fun _ => .pure fun l hvalue => ⟨⟨h.place l ht.1, hvalue⟩, trivial⟩
  | .callSub _ _, ht => .pure fun l => ⟨⟨h.place l ht.1, h.sub l ht.2⟩, trivial⟩
  | .default _, ht | .exit _ _ _, ht | .empty _, ht => .pure fun l => ⟨h.place l ht, trivial⟩

theorem arms (h : Lays w s p q) : ∀ arms : Arms, arms.Keeps p →
    w.Keeps (fun arms' l => arms'.Keeps (q l)) (layArms s arms)
  | .done, _ => .pure fun _ => trivial
  | .otherwise body, ht =>
    (h.layBlock ht (h.all body ht)).bind fun _ => .pure fun _ hbody => hbody
  | .arm _ _ body rest, ht =>
    (h.value ht.2.1).bind fun _ => (h.layBlock ht.2.2.1 (h.all body ht.2.2.1)).bind fun _ =>
      (h.arms rest ht.2.2.2).bind fun _ =>
        .pure fun l hrest hbody hcond => ⟨h.place l ht.1, hcond, hbody, hrest⟩

/-- Laying out keeps the promise along all statements. -/
theorem all (h : Lays w s p q) : ∀ ss : List Stmt, AllKeep p ss →
    w.Keeps (fun ss' l => AllKeep (q l) ss') (layAll s ss)
  | [], _ => .pure fun _ => trivial
  | t :: ts, ht =>
    (h.stmt t ht.1).bind fun _ => (h.all ts ht.2).bind fun _ =>
      .pure fun _ hts ht => allKeep_append.mpr ⟨ht, hts⟩

end

theorem body (h : Lays w s p q) {body : List Stmt} (hbody : AllKeep p body) :
    w.Keeps (fun ss l => AllKeep (q l) ss) (Allocation.layBody s body) :=
  (h.labels hbody).seq fun _ => h.all body hbody

end Lays

/-! ### Names with storage -/

/-- The names in the open scopes are sound all the way. -/
def soundCourse (P : Span → Prop) : Course where
  fair := CompileError.Placed P
  inv := Layout.Sound
  le _ _ := True
  refl _ := trivial
  trans _ _ := trivial

theorem soundCourse_keeps {α : Type} {good : α → Layout → Prop} {x : Laying α} :
    (soundCourse P).Keeps good x ↔ Laying.Lays P (fun a => ∀ l, good a l) x := by
  constructor
  · exact fun h l hl => (h l hl).mono fun r hr => ⟨fun l' => hr.2.2 l' trivial, hr.1⟩
  · exact fun h l hl => (h l hl).mono fun r hr => ⟨hr.2, trivial, fun l' _ => hr.1 l'⟩

theorem keeps_of_lays {α : Type} {good : α → Prop} {x : Laying α} (h : Laying.Lays P good x) :
    (soundCourse P).Keeps (fun a _ => good a) x :=
  soundCourse_keeps.mpr (h.mono fun _ ha _ => ha)

theorem ret_lays {s : Surroundings} (hs : s.Sound) {span : Span} {value : Option Expr}
    (h : (ret span value).Keeps (.written P)) :
    Laying.Lays P (AllKeep (.bound P s.ret)) (lay s (.ret span value)) := by
  unfold lay
  refine Yields.bind (.lift (Surroundings.checkReturn_ends hs h.1)) fun _ hret => ?_
  cases value with
  | none =>
    have hnone : Laying.Lays P (· = none) (Expr.lay? none) := .pure rfl
    refine hnone.bind fun r hr => .pure ⟨⟨h.1, ?_⟩, trivial⟩
    rw [hr]
    rintro _ ⟨⟩
  | some e =>
    exact (Expr.lay?_lays h.2).bind fun r hr =>
      .pure ⟨⟨h.1, fun e' he' => ⟨hret e rfl, hr e' he'⟩⟩, trivial⟩

theorem written_lays {s : Surroundings} (hs : s.Sound) :
    Lays (soundCourse P) s (.written P) fun _ => .bound P s.ret where
  place _ h := h
  sub _ h := h
  value h := keeps_of_lays (Expr.lay_lays h)
  values h := keeps_of_lays (Expr.layAll_lays h)
  counter h := keeps_of_lays h.lay_lays
  varDecl h := keeps_of_lays (Surroundings.varDecl_lays hs h.1 ⟨h.2.1, h.2.2.1, h.2.2.2⟩)
  constDecl h := keeps_of_lays <|
    (Surroundings.constant_lays hs _ h.2).bind fun n _ =>
      (declare_lays _ (show Binding.Sound (.constant n) from trivial) h.1).bind fun _ _ => .pure trivial
  ret h := keeps_of_lays (ret_lays hs h)
  declareLabel name h := keeps_of_lays (declareLabel_lays name h)
  labelName own name h := keeps_of_lays (labelName_lays own name h)
  enclosed h := soundCourse_keeps.mpr (enclosed_lays (soundCourse_keeps.mp h))

end Stmt

/-! ### Routines -/

/-- The promise is kept by a routine. -/
structure Routine.Keeps (p : Stmt.Promise) (r : Routine) : Prop where
  span : p.place r.span
  body : Stmt.AllKeep p r.body

/-- The routine has storage for all variables, and its statements keep to its
result type. -/
abbrev Routine.Bound (P : Span → Prop) (r : Routine) : Prop := r.Keeps (.bound P r.kind.ret?)

namespace Allocation

/-- The names that are open and the functions known so far are sound. -/
structure Sound (a : Allocation) : Prop where
  layout : a.layout.Sound
  functions : ∀ s ∈ a.functions, s.Sound

variable {node : Node} {language : Language} {a : Allocation} {r : Routine}

theorem layBody_lays {s : Surroundings} (hs : s.Sound) {body : List Stmt}
    (h : Stmt.AllKeep (.written P) body) : Lays P (Stmt.AllKeep (.bound P s.ret)) (layBody s body) :=
  (Stmt.soundCourse_keeps.mp ((Stmt.written_lays hs).body h)).mono fun _ hbody => hbody default

/-- What one more routine comes to. -/
abbrev Laid (P : Span → Prop) (x : Routine × Allocation) : Prop := x.1.Bound P ∧ x.2.Sound

theorem layFunction_ends {decl : FunctionDecl} (ha : a.Sound) (h : r.Written P) (hdecl : decl.Written P) :
    Ends (CompileError.Placed P) (Laid P) (layFunction node language a r decl) := by
  have hret : some decl.ret ≠ some .undefined := fun heq => hdecl.ret (Option.some.inj heq)
  unfold layFunction
  split
  · exact semantic_placed _ h.span
  · have hparams := Surroundings.params_lays (s := ⟨⟨a.functions, language, node⟩, some decl.ret, true⟩)
      ⟨ha.functions, hret⟩ hdecl.params
    have hentry : Layout.Sound { a.layout.pushScope with frame := some ⟨0, 0⟩ } := ha.layout.pushScope
    refine (hparams _ hentry).bind ?_
    rintro ⟨params, layout⟩ hparams
    have hfunctions : ∀ s ∈ a.functions ++ [⟨decl.name, decl.ret, params⟩], s.Sound := by
      intro s hs
      rcases List.mem_append.mp hs with hs | hs
      · exact ha.functions s hs
      · obtain rfl := List.mem_singleton.mp hs
        exact ⟨hdecl.ret, hparams.1⟩
    have hbody := layBody_lays (s := ⟨⟨_, language, node⟩, some decl.ret, true⟩) ⟨hfunctions, hret⟩ h.body
    refine (hbody _ hparams.2).bind ?_
    rintro ⟨body, layout⟩ hbody
    exact Ends.pure ⟨⟨h.span, hbody.1⟩, ha.layout, hfunctions⟩

theorem layPlain_ends {own : Bool} (ha : a.Sound) (hkind : r.kind.ret? = none) (h : r.Written P) :
    Ends (CompileError.Placed P) (Laid P) (layPlain node language a r own) := by
  unfold layPlain
  have hentry : ∀ own : Bool, (if own then a.layout.pushScope else a.layout).Sound := by
    intro own
    cases own with
    | true => exact ha.layout.pushScope
    | false => exact ha.layout
  have hbody := layBody_lays (s := ⟨⟨a.functions, language, node⟩, none, own && language.blockScoping⟩)
    ⟨ha.functions, nofun⟩ h.body
  refine (hbody _ (hentry _)).bind fun ⟨body, layout⟩ hbody => Ends.pure ⟨⟨h.span, ?_⟩, ?_, ha.functions⟩
  · show Stmt.AllKeep (.bound P r.kind.ret?) body
    rw [hkind]
    exact hbody.1
  · dsimp only
    split
    · exact ha.layout
    · exact hbody.2

theorem layRoutine_ends (ha : a.Sound) (h : r.Written P) :
    Ends (CompileError.Placed P) (Laid P) (layRoutine node language a r) := by
  unfold layRoutine
  split
  · rename_i decl sig hkind
    exact layFunction_ends ha h (h.decl decl sig hkind)
  · rename_i name hkind
    split
    · exact semantic_placed _ h.span
    · exact layPlain_ends ⟨ha.layout, ha.functions⟩ (by rw [hkind]; rfl) h
  · rename_i name hkind
    exact layPlain_ends ha (by rw [hkind]; rfl) h
  · rename_i hkind
    exact layPlain_ends ha (by rw [hkind]; rfl) h

theorem layAll_ends : ∀ {rs : List Routine} {a : Allocation}, a.Sound → (∀ r ∈ rs, r.Written P) →
    Ends (CompileError.Placed P)
      (fun x => x.1.length = rs.length ∧ (∀ r ∈ x.1, Routine.Bound P r) ∧ x.2.Sound)
      (layAll node language a rs)
  | [], _, ha, _ => Ends.pure ⟨rfl, nofun, ha⟩
  | r :: rs, a, ha, h => by
    unfold layAll
    refine (layRoutine_ends ha (h r List.mem_cons_self)).bind fun ⟨r', a'⟩ hr => ?_
    refine (layAll_ends hr.2 fun q hq => h q (List.mem_cons_of_mem _ hq)).bind fun ⟨rs', a''⟩ hrs => ?_
    refine Ends.pure ⟨congrArg (· + 1) hrs.1, ?_, hrs.2.2⟩
    rintro q (_ | ⟨_, hq⟩)
    · exact hr.1
    · exact hrs.2.1 q hq

end Allocation

/-- Laying out routines that were read gives their variables storage. -/
theorem Routine.layAll_ends (node : Node) (language : Language) {rs : List Routine}
    (h : ∀ r ∈ rs, r.Written P) :
    Ends (CompileError.Placed P)
      (fun x => x.1.length = rs.length ∧ (∀ r ∈ x.1, Routine.Bound P r) ∧ x.2.Sound)
      (Routine.layAll node language rs) :=
  Allocation.layAll_ends ⟨start_sound node, nofun⟩ h

/-- The types of a routine keep to its result type. -/
theorem Routine.Bound.typed {c : Calls} (hcalls : c.Sound) {r : Routine} (h : r.Bound P) :
    Ends (CompileError.Placed P) (fun r' => r'.Keeps (.typed P r'.kind.ret?)) (r.typed c) :=
  (Stmt.typedBlock_ends hcalls r.body h.body).bind fun _ hbody => Ends.pure ⟨h.span, hbody⟩

/-- A program made from lines is ready to be assembled; there is at least the
init code. -/
theorem Program.ofLines_ends (node : Node) (settings : Settings) (hstart : P (.single 0))
    {lines : List Line} (h : ∀ l ∈ lines, l.Written P) :
    Ends (CompileError.Placed P)
      (fun p => p.routines ≠ [] ∧ ∀ r ∈ p.routines, Routine.Keeps (.ready P) r)
      (Program.ofLines node settings lines) := by
  unfold Program.ofLines
  refine (Routine.ofLines_ends _ hstart h).bind fun written hwritten => ?_
  refine (Routine.layAll_ends node _ hwritten.2).bind fun ⟨laid, allocation⟩ ⟨hlength, hlaid, ha⟩ => ?_
  have hcalls : Calls.Sound ⟨allocation.functions, settings.language, node⟩ := ha.functions
  have htyped : ∀ r ∈ laid, Ends (CompileError.Placed P) (fun r' => r'.Keeps (.typed P r'.kind.ret?))
      (r.typed ⟨allocation.functions, settings.language, node⟩) :=
    fun r hr => (hlaid r hr).typed hcalls
  refine (Ends.mapM laid htyped).bind fun typed htyped => ?_
  have hfolded : ∀ r ∈ typed, Ends (CompileError.Placed P) (Routine.Keeps (.ready P)) r.fold :=
    fun r hr => (Stmt.foldBlock_ends r.body (htyped.2 r hr).body).bind fun _ hbody =>
      Ends.pure ⟨(htyped.2 r hr).span, hbody⟩
  refine (Ends.mapM typed hfolded).bind fun folded hfolded => Ends.pure ⟨?_, hfolded.2⟩
  rw [← List.length_pos_iff, hfolded.1, htyped.1, hlength]
  exact List.length_pos_iff.mpr hwritten.1

/-- A program that lines make has its routines from laid out ones, typed and
folded one by one. -/
theorem Program.ofLines_eq_ok {node : Node} {settings : Settings} {lines : List Line} {program : Program}
    (h : Program.ofLines node settings lines = .ok program) :
    ∃ written laid allocation, Routine.ofLines settings.language lines = .ok written ∧
      Routine.layAll node settings.language written = .ok (laid, allocation) ∧
      program.moduleSize = allocation.layout.moduleTop ∧
      program.routines.length = laid.length ∧
      ∀ (i : Nat) (r r'' : Routine), laid[i]? = some r → program.routines[i]? = some r'' →
        ∃ r', r.typed ⟨allocation.functions, settings.language, node⟩ = .ok r' ∧ r'.fold = .ok r'' := by
  obtain ⟨written, hwritten, h⟩ := bind_eq_ok.mp h
  obtain ⟨⟨laid, allocation⟩, hlaid, h⟩ := bind_eq_ok.mp h
  obtain ⟨typed, htyped, h⟩ := bind_eq_ok.mp h
  obtain ⟨folded, hfolded, h⟩ := bind_eq_ok.mp h
  cases h
  obtain ⟨hlength, htyped⟩ := mapM_eq_ok htyped
  obtain ⟨hlength', hfolded⟩ := mapM_eq_ok hfolded
  refine ⟨written, laid, allocation, hwritten, hlaid, rfl, hlength'.trans hlength, fun i r r'' hr hr'' => ?_⟩
  obtain ⟨r', hr'⟩ := exists_getElem?_of_length_eq hlength.symm hr
  exact ⟨r', htyped i r r' hr hr', hfolded i r' r'' hr' hr''⟩

end RobotScript
