/-
# The lines of a block structure

Statements with blocks come from several lines: an opening one, those of the
bodies, the heads of further arms and a closing one. `Stmt.Flat` says which
lines a statement comes from and `Routine.AllFlat` which lines a whole script
does. Pairing up lines with a stack of open blocks finds the routines that the
lines come from whenever there are any, and fails otherwise.

Key definitions: `Stmt.Flat`, `Routine.AllFlat`, `Blocks.Follows`.
Key theorems: `Stmt.Flat.lines`, `Blocks.Follows.line`, `pairing_exact`.
-/
import RobotScript.Proofs.LineShapes

namespace RobotScript

/-- Whether a statement is a mark of a switch. -/
def Stmt.isMark : Stmt → Bool
  | case _ _ | default _ => true
  | _ => false

/-- Whether a statement has no blocks. -/
def Stmt.isWhole : Stmt → Bool
  | branch _ _ | whenever _ _ _ | whileLoop _ _ _ _ | doWhile _ _ _ _ | rangeFor _ _ _ _ _ _ _
  | forLoop _ _ _ _ _ _ | switch _ _ _ _ | block _ _ => false
  | _ => true

/-- The label that statements end with. -/
def Stmt.lastLabel? (ss : List Stmt) : Option String :=
  match ss.getLast? with
  | some (.label _ name) => some name
  | _ => none

namespace Opener

def isSwitch : Opener → Bool
  | switch _ => true
  | _ => false

/-- The statement with one body that an opener starts and a bare closing line
ends; `label` is the one it stands behind. -/
def closed (span : Span) (label : Option String) (body : List Stmt) : Opener → Option Stmt
  | whenever cond => some (.whenever span cond body)
  | whileLoop cond => some (.whileLoop span label (some cond) body)
  | rangeFor var first last step => some (.rangeFor span label var first last step body)
  | forLoop init cond step => some (.forLoop span label init cond step body)
  | switch subject => some (.switch span label subject body)
  | block => some (.block span body)
  | branch _ | doLoop | onEvent _ | function _ => none

/-- The routine that an opener starts. -/
def routine? : Opener → Option Routine.Kind
  | onEvent name => some (.onEvent name)
  | function decl => some (.function decl none)
  | _ => none

end Opener

/-- The routine that a header starts. -/
def Header.kind : Header → Routine.Kind
  | onEvent name => .onEvent name
  | sub name => .sub name

mutual

/-- A statement and the lines it comes from, where it stands directly in a
switch or not (`marks`) and behind a label or not. -/
inductive Stmt.Flat : (marks : Bool) → (label : Option String) → Stmt → List Line → Prop where
  | whole {marks : Bool} {label : Option String} {s : Stmt} :
      s.isWhole = true → (s.isMark = true → marks = true) → Stmt.Flat marks label s [.plain s]
  | block {marks : Bool} {label : Option String} {s : Stmt} (opener : Opener) (span stop : Span)
      {body : List Stmt} {ls : List Line} :
      opener.closed span label body = some s → Stmt.AllFlat opener.isSwitch body ls →
      Stmt.Flat marks label s (.opening opener span :: ls ++ [.closing stop])
  | doWhile {marks : Bool} {label : Option String} (cond : Expr) (span stop : Span)
      {body : List Stmt} {ls : List Line} :
      Stmt.AllFlat false body ls →
      Stmt.Flat marks label (.doWhile span label body cond)
        (.opening .doLoop span :: ls ++ [.closingWhile cond stop])
  | branch {marks : Bool} {label : Option String} {span : Span} (stop : Span)
      {arms : List (Span × Expr × List Stmt)} {last : Span × Expr × List Stmt} {ls : List Line} :
      Arms.Flat span arms last ls →
      Stmt.Flat marks label (.branch span (.ofList (arms ++ [last]) none)) (ls ++ [.closing stop])
  | branchElse {marks : Bool} {label : Option String} {span : Span} (mid stop : Span)
      {arms : List (Span × Expr × List Stmt)} {last : Span × Expr × List Stmt}
      {body : List Stmt} {ls ts : List Line} :
      Arms.Flat span arms last ls → Stmt.AllFlat false body ts →
      Stmt.Flat marks label (.branch span (.ofList (arms ++ [last]) (some body)))
        (ls ++ .otherwise mid :: ts ++ [.closing stop])

/-- The statements of a body and the lines they come from. A statement stands
behind the label that the statement before it is. -/
inductive Stmt.AllFlat : (marks : Bool) → List Stmt → List Line → Prop where
  | nil {marks : Bool} : Stmt.AllFlat marks [] []
  | snoc {marks : Bool} {ss : List Stmt} {t : Stmt} {ls ts : List Line} :
      Stmt.AllFlat marks ss ls → Stmt.Flat marks (Stmt.lastLabel? ss) t ts →
      Stmt.AllFlat marks (ss ++ [t]) (ls ++ ts)

/-- The arms of an `if` before its last one, the last one, and the lines they
come from. The first arm stands where the statement does. -/
inductive Arms.Flat : Span → List (Span × Expr × List Stmt) → Span × Expr × List Stmt →
    List Line → Prop where
  | first {span : Span} (cond : Expr) {body : List Stmt} {ls : List Line} :
      Stmt.AllFlat false body ls →
      Arms.Flat span [] (span, cond, body) (.opening (.branch cond) span :: ls)
  | next {span : Span} {arms : List (Span × Expr × List Stmt)} {arm : Span × Expr × List Stmt}
      (cond : Expr) (armSpan : Span) {body : List Stmt} {ls ts : List Line} :
      Arms.Flat span arms arm ls → Stmt.AllFlat false body ts →
      Arms.Flat span (arms ++ [arm]) (armSpan, cond, body) (ls ++ .elseIf cond armSpan :: ts)

end

namespace Routine

/-- A script of which each routine but the init code starts with a header: the
routines before the last one, the last one, and the lines they come from. -/
inductive Sections : List Routine → Routine → List Line → Prop where
  | init {body : List Stmt} {ls : List Line} :
      Stmt.AllFlat false body ls → Sections [] ⟨.init, .single 0, body, 0⟩ ls
  | header {rs : List Routine} {r : Routine} (h : Header) (span : Span) {body : List Stmt}
      {ls ts : List Line} :
      Sections rs r ls → Stmt.AllFlat false body ts →
      Sections (rs ++ [r]) ⟨h.kind, span, body, 0⟩ (ls ++ .header h span :: ts)

/-- A script of which the other routines are blocks between the statements of
the init code: those statements, the other routines, and the lines they come
from. -/
inductive Interleaved : List Stmt → List Routine → List Line → Prop where
  | nil : Interleaved [] [] []
  | stmt {ss : List Stmt} {rs : List Routine} {t : Stmt} {ls ts : List Line} :
      Interleaved ss rs ls → Stmt.Flat false (Stmt.lastLabel? ss) t ts →
      Interleaved (ss ++ [t]) rs (ls ++ ts)
  | routine {ss : List Stmt} {rs : List Routine} (opener : Opener) {kind : Kind} (span stop : Span)
      {body : List Stmt} {ls ts : List Line} :
      Interleaved ss rs ls → opener.routine? = some kind → Stmt.AllFlat false body ts →
      Interleaved ss (rs ++ [⟨kind, span, body, 0⟩])
        (ls ++ .opening opener span :: ts ++ [.closing stop])

/-- The routines of a script, the init code first, and the lines they come
from. -/
def AllFlat : Language → List Routine → List Line → Prop
  | .simple, routines, ls => ∃ rs r, routines = rs ++ [r] ∧ Sections rs r ls
  | .l2, routines, ls =>
    ∃ body rs, routines = ⟨.init, .single 0, body, 0⟩ :: rs ∧ Interleaved body rs ls

end Routine

/-! ### From a structure to its lines and back -/

/-- An `if` in one of its arms. -/
def Block.inArm (span : Span) (arms : List (Span × Expr × List Stmt))
    (last : Span × Expr × List Stmt) : Block :=
  ⟨.branch arms (some (last.2.1, last.1)), span, none, last.2.2⟩

/-- An `if` in its `else` part. -/
def Block.inElse (span : Span) (arms : List (Span × Expr × List Stmt)) (body : List Stmt) : Block :=
  ⟨.branch arms none, span, none, body⟩

namespace Blocks

variable {language : Language} {s : Blocks} {b : Block} {ss : List Stmt} {t : Stmt}

/-- The blocks after some lines. -/
def lines (language : Language) (s : Blocks) (ls : List Line) : Result Blocks :=
  ls.foldlM (line language) s

theorem lines_append {s' : Blocks} {ls ts : List Line} (h : s.lines language ls = .ok s') :
    s.lines language (ls ++ ts) = s'.lines language ts := by
  unfold lines at *
  rw [List.foldlM_append, h]
  rfl

theorem lines_cons {s' : Blocks} {l : Line} {ls : List Line} (h : s.line language l = .ok s') :
    s.lines language (l :: ls) = s'.lines language ls := by
  unfold lines
  rw [List.foldlM_cons, h]
  rfl

theorem lines_single {l : Line} : s.lines language [l] = s.line language l := by
  unfold lines
  rw [List.foldlM_cons]
  cases s.line language l with
  | ok s' => rfl
  | error e => rfl

/-- With another block open. -/
def within (s : Blocks) (b : Block) : Blocks := { s with inner := b :: s.inner }

/-- More statements for the innermost block. -/
def pushAll (s : Blocks) (ss : List Stmt) : Blocks := ss.foldl push s

theorem pushAll_snoc : s.pushAll (ss ++ [t]) = (s.pushAll ss).push t := by
  simp [pushAll]

theorem body_push : (s.push t).body = s.body ++ [t] := by
  obtain ⟨inner, current, done⟩ := s
  cases inner with
  | nil => rfl
  | cons b bs => rfl

theorem inSwitch_push : (s.push t).inSwitch = s.inSwitch := by
  obtain ⟨inner, current, done⟩ := s
  cases inner with
  | nil => rfl
  | cons b bs =>
    obtain ⟨kind, span, label, body⟩ := b
    cases kind with
    | _ => rfl

theorem body_pushAll : ∀ {s : Blocks} {ss : List Stmt}, (s.pushAll ss).body = s.body ++ ss
  | s, [] => (List.append_nil _).symm
  | s, t :: ss => by
    have hrest : ((s.push t).pushAll ss).body = (s.push t).body ++ ss := body_pushAll
    rw [body_push, List.append_assoc] at hrest
    exact hrest

theorem inSwitch_pushAll : ∀ {s : Blocks} {ss : List Stmt}, (s.pushAll ss).inSwitch = s.inSwitch
  | _, [] => rfl
  | s, t :: ss => by
    have hrest : ((s.push t).pushAll ss).inSwitch = (s.push t).inSwitch := inSwitch_pushAll
    exact hrest.trans inSwitch_push

theorem pushAll_within : ∀ {b : Block} {ss : List Stmt},
    (s.within b).pushAll ss = s.within { b with body := b.body ++ ss }
  | b, [] => by simp [pushAll]
  | b, t :: ss => by
    have hrest : (s.within { b with body := b.body ++ [t] }).pushAll ss =
      s.within { b with body := b.body ++ [t] ++ ss } := pushAll_within
    rw [List.append_assoc] at hrest
    exact hrest

theorem pushAll_current {kind : Routine.Kind} {span : Span} {size : Nat} {done : List Routine} :
    ∀ {ss body : List Stmt}, pushAll ⟨[], ⟨kind, span, body, size⟩, done⟩ ss =
      ⟨[], ⟨kind, span, body ++ ss, size⟩, done⟩
  | [], body => by simp [pushAll]
  | t :: ss, body => by
    have hrest : pushAll ⟨[], ⟨kind, span, body ++ [t], size⟩, done⟩ ss =
      ⟨[], ⟨kind, span, body ++ [t] ++ ss, size⟩, done⟩ := pushAll_current
    rw [List.append_assoc] at hrest
    exact hrest

theorem plain_eq (h : t.isMark = true → s.inSwitch = true) : s.plain t = .ok (s.push t) := by
  unfold plain
  by_cases hswitch : s.inSwitch = true
  · rw [if_pos hswitch]
    rfl
  · rw [if_neg hswitch]
    cases t with
    | case span value => exact absurd (h rfl) hswitch
    | default span => exact absurd (h rfl) hswitch
    | _ => rfl

/-- The block that a line opens. -/
def opened (s : Blocks) (opener : Opener) (span : Span) : Block :=
  let kind := Block.Kind.ofOpener opener span
  ⟨kind, span, if kind.takesLabel then s.lastLabel? else none, []⟩

theorem line_opening {opener : Opener} {span : Span} (h : opener.routine? = none ∨ s.inner = []) :
    s.line language (.opening opener span) = .ok (s.within (s.opened opener span)) := by
  obtain ⟨inner, current, done⟩ := s
  cases opener with
  | onEvent name =>
    cases h.resolve_left nofun
    rfl
  | function decl =>
    cases h.resolve_left nofun
    rfl
  | _ =>
    cases inner with
    | _ => rfl

theorem line_elseIf {span armSpan : Span} {arms : List (Span × Expr × List Stmt)}
    {last : Span × Expr × List Stmt} {cond : Expr} :
    line language (s.within (.inArm span arms last)) (.elseIf cond armSpan) =
      .ok (s.within (.inArm span (arms ++ [last]) (armSpan, cond, []))) := rfl

theorem line_otherwise {span mid : Span} {arms : List (Span × Expr × List Stmt)}
    {last : Span × Expr × List Stmt} :
    line language (s.within (.inArm span arms last)) (.otherwise mid) =
      .ok (s.within (.inElse span (arms ++ [last]) [])) := rfl

/-- The lines of statements fill a block that is empty so far. -/
def Fill (language : Language) (marks : Bool) (ss : List Stmt) (ls : List Line) : Prop :=
  ∀ s : Blocks, s.body = [] → (marks = true → s.inSwitch = true) →
    s.lines language ls = .ok (s.pushAll ss)

/-- A line that opens a block and the lines of its body. -/
theorem Fill.behind {marks : Bool} {s' : Blocks} {l : Line} {ls : List Line}
    (h : Fill language marks ss ls) (hline : s.line language l = .ok (s'.within b))
    (hempty : b.body = []) (hswitch : marks = true → (s'.within b).inSwitch = true) :
    s.lines language (l :: ls) = .ok (s'.within { b with body := ss }) := by
  have hbody := h (s'.within b) hempty hswitch
  rw [pushAll_within, hempty, List.nil_append] at hbody
  exact (lines_cons hline).trans hbody

end Blocks

open Blocks

variable (language : Language)

mutual

/-- The lines of a statement add that statement. -/
theorem Stmt.Flat.lines {marks : Bool} {label : Option String} {t : Stmt} {ts : List Line} :
    Stmt.Flat marks label t ts → ∀ s : Blocks, (marks = true → s.inSwitch = true) →
    s.lastLabel? = label → s.lines language ts = .ok (s.push t)
  | .whole _ hmark, s, hswitch, _ => by
    rw [lines_single]
    exact plain_eq fun h => hswitch (hmark h)
  | .block opener span stop hclosed hbody, s, _, hlabel => by
    have hopen :
        s.line language (.opening opener span) = .ok (s.within (s.opened opener span)) := by
      refine line_opening (.inl ?_)
      cases opener with
      | onEvent name => cases hclosed
      | function decl => cases hclosed
      | _ => rfl
    have hswitch : opener.isSwitch = true → (s.within (s.opened opener span)).inSwitch = true := by
      intro h
      cases opener with
      | switch subject => rfl
      | _ => cases h
    rw [lines_append (hbody.lines.behind hopen rfl hswitch), lines_single]
    cases opener <;> cases hclosed <;> cases hlabel <;> rfl
  | .doWhile cond span stop hbody, s, _, hlabel => by
    have hopen : s.line language (.opening .doLoop span) = .ok (s.within (s.opened .doLoop span)) :=
      line_opening (.inl rfl)
    rw [lines_append (hbody.lines.behind hopen rfl nofun), lines_single, ← hlabel]
    rfl
  | .branch stop harms, s, _, _ => by
    rw [lines_append (harms.lines s), lines_single]
    rfl
  | .branchElse mid stop harms hbody, s, _, _ => by
    rw [List.append_assoc, lines_append (harms.lines s),
      lines_append (hbody.lines.behind line_otherwise rfl nofun), lines_single]
    rfl

/-- The lines of a body fill the innermost block. -/
theorem Stmt.AllFlat.lines {marks : Bool} {ss : List Stmt} {ls : List Line} :
    Stmt.AllFlat marks ss ls → Fill language marks ss ls
  | .nil, s, _, _ => rfl
  | .snoc hss ht, s, hempty, hswitch => by
    rw [lines_append (hss.lines s hempty hswitch), pushAll_snoc]
    refine ht.lines _ (fun h => inSwitch_pushAll.trans (hswitch h)) ?_
    unfold lastLabel?
    rw [body_pushAll, hempty]
    rfl

/-- The lines of arms open an `if` with these arms. -/
theorem Arms.Flat.lines {span : Span} {arms : List (Span × Expr × List Stmt)}
    {last : Span × Expr × List Stmt} {ls : List Line} :
    Arms.Flat span arms last ls → ∀ s : Blocks, s.lines language ls =
      .ok (s.within (.inArm span arms last))
  | .first cond hbody, s => by
    have hopen : s.line language (.opening (.branch cond) span) =
        .ok (s.within (.inArm span [] (span, cond, []))) := line_opening (.inl rfl)
    exact hbody.lines.behind hopen rfl nofun
  | .next cond armSpan harms hbody, s => by
    rw [lines_append (harms.lines s)]
    exact hbody.lines.behind line_elseIf rfl nofun

end

/-! ### Routines and their lines -/

namespace Routine

variable {language}
variable {ls : List Line} {rs : List Routine}

theorem Sections.first {r : Routine} (h : Sections rs r ls) (hinit : r.kind = .init) : rs = [] := by
  cases h with
  | init _ => rfl
  | header head _ _ _ =>
    cases head with
    | _ => exact nomatch hinit

theorem Sections.finish {r : Routine} (h : Sections rs r ls) :
    Blocks.finish ⟨[], r, rs⟩ = .ok (rs ++ [r]) := by
  obtain ⟨kind, span, body, size⟩ := r
  cases kind with
  | init =>
    rw [h.first rfl]
    rfl
  | _ => rfl

theorem Sections.lines {r : Routine} (h : Sections rs r ls) :
    Blocks.start.lines language ls = .ok ⟨[], r, rs⟩ := by
  induction h with
  | init hbody => exact (hbody.lines language .start rfl nofun).trans (congrArg _ pushAll_current)
  | @header rs r head span body ls ts hrs hbody ih =>
    have hheader : Blocks.line language ⟨[], r, rs⟩ (.header head span) =
        .ok ⟨[], ⟨head.kind, span, [], 0⟩, rs ++ [r]⟩ := by
      change Blocks.header ⟨[], r, rs⟩ head span = _
      unfold Blocks.header
      rw [hrs.finish]
      cases head with
      | _ => rfl
    rw [lines_append ih, lines_cons hheader, hbody.lines language _ rfl nofun]
    exact congrArg _ pushAll_current

theorem Interleaved.lines {body : List Stmt} (h : Interleaved body rs ls) :
    Blocks.start.lines language ls = .ok ⟨[], ⟨.init, .single 0, body, 0⟩, rs⟩ := by
  induction h with
  | nil => rfl
  | stmt _ ht ih =>
    rw [lines_append ih, ht.lines language _ nofun rfl]
    rfl
  | routine opener span stop _ hkind hbody ih =>
    rw [List.append_assoc, lines_append ih,
      lines_append ((hbody.lines language).behind (line_opening (.inr rfl)) rfl nofun), lines_single]
    cases opener <;> cases hkind <;> rfl

theorem ofLines_of_allFlat (h : AllFlat language rs ls) : Routine.ofLines language ls = .ok rs := by
  unfold Routine.ofLines
  cases language with
  | simple =>
    obtain ⟨rs, r, rfl, hrs⟩ := h
    exact bind_eq_ok.mpr ⟨_, hrs.lines, hrs.finish⟩
  | l2 =>
    obtain ⟨body, rs, rfl, hrs⟩ := h
    exact bind_eq_ok.mpr ⟨_, hrs.lines, rfl⟩

end Routine

/-! ### From lines to a structure -/

/-- The line that closes a block, with the condition of a loop perhaps. -/
def Line.ending (cond : Option Expr) (span : Span) : Line :=
  match cond with
  | none => .closing span
  | some cond => .closingWhile cond span

namespace Block

/-- Whether the marks of a switch can stand in the block. -/
def isSwitch (b : Block) : Bool :=
  match b.kind with
  | .switch _ => true
  | _ => false

/-- Whether the block is a routine. -/
def isRoutine (b : Block) : Bool :=
  match b.kind with
  | .routine _ => true
  | _ => false

/-- An open block behind a label and the lines it comes from so far. -/
inductive Begun : (label : Option String) → Block → List Line → Prop where
  | opened {label : Option String} (opener : Opener) (span : Span) {body : List Stmt}
      {ls : List Line} :
      (∀ cond, opener ≠ .branch cond) → Stmt.AllFlat opener.isSwitch body ls →
      Begun label ⟨.ofOpener opener span, span,
        if (Kind.ofOpener opener span).takesLabel then label else none, body⟩
        (.opening opener span :: ls)
  | inArm {label : Option String} {span : Span} {arms : List (Span × Expr × List Stmt)}
      {last : Span × Expr × List Stmt} {ls : List Line} :
      Arms.Flat span arms last ls → Begun label (.inArm span arms last) ls
  | inElse {label : Option String} {span : Span} {arms : List (Span × Expr × List Stmt)}
      {last : Span × Expr × List Stmt} (mid : Span) {body : List Stmt} {ls ts : List Line} :
      Arms.Flat span arms last ls → Stmt.AllFlat false body ts →
      Begun label (.inElse span (arms ++ [last]) body) (ls ++ .otherwise mid :: ts)

variable {label : Option String} {b : Block} {t : Stmt} {cond : Option Expr} {stop : Span}
  {own ts : List Line}

theorem inArm_push {span : Span} {arms : List (Span × Expr × List Stmt)} {last : Span × Expr × List Stmt}
    (h : Arms.Flat span arms last own) (ht : Stmt.Flat false (Stmt.lastLabel? last.2.2) t ts) :
    Arms.Flat span arms (last.1, last.2.1, last.2.2 ++ [t]) (own ++ ts) := by
  cases h with
  | first cond hbody => exact .first cond (hbody.snoc ht)
  | next cond armSpan harms hbody =>
    rw [List.append_assoc]
    exact .next cond armSpan harms (hbody.snoc ht)

/-- One more statement in an open block. -/
theorem Begun.push (h : Begun label b own) (ht : Stmt.Flat b.isSwitch (Stmt.lastLabel? b.body) t ts) :
    Begun label { b with body := b.body ++ [t] } (own ++ ts) := by
  cases h with
  | opened opener span hbranch hbody =>
    refine .opened opener span hbranch (hbody.snoc ?_)
    cases opener with
    | _ => exact ht
  | inArm harms => exact .inArm (inArm_push harms ht)
  | inElse mid harms hbody =>
    rw [List.append_assoc]
    exact .inElse mid harms (hbody.snoc ht)

/-- The statement that a block becomes comes from the lines of the block. -/
theorem Begun.flat (h : Begun label b own) (hclose : b.close cond stop = .ok (.inr t)) (marks : Bool) :
    Stmt.Flat marks label t (own ++ [.ending cond stop]) := by
  cases h with
  | opened opener span hbranch hbody =>
    cases cond with
    | none =>
      cases opener with
      | branch cond => exact absurd rfl (hbranch cond)
      | doLoop | onEvent _ | function _ => cases hclose
      | _ =>
        cases hclose
        exact .block _ span stop rfl hbody
    | some cond =>
      cases opener with
      | doLoop =>
        cases hclose
        exact .doWhile cond span stop hbody
      | _ => cases hclose
  | inArm harms =>
    cases cond with
    | none =>
      cases hclose
      exact .branch stop harms
    | some cond => cases hclose
  | inElse mid harms hbody =>
    cases cond with
    | none =>
      cases hclose
      exact .branchElse mid stop harms hbody
    | some cond => cases hclose

/-- The routine that a block becomes comes from the lines of the block. -/
theorem Begun.routine {r : Routine} (h : Begun label b own) (hclose : b.close cond stop = .ok (.inl r)) :
    b.isRoutine = true ∧ cond = none ∧ ∃ opener ls, own = .opening opener r.span :: ls ∧
      opener.routine? = some r.kind ∧ Stmt.AllFlat false r.body ls ∧ r.frameSize = 0 := by
  cases h with
  | opened opener span hbranch hbody =>
    cases cond with
    | none =>
      cases opener with
      | onEvent _ | function _ =>
        cases hclose
        exact ⟨rfl, rfl, _, _, rfl, rfl, hbody, rfl⟩
      | _ => cases hclose
    | some cond =>
      cases opener with
      | _ => cases hclose
  | inArm _ | inElse _ _ _ =>
    cases cond with
    | _ => cases hclose

end Block

theorem Routine.Sections.push {rs : List Routine} {r : Routine} {t : Stmt} {ls ts : List Line}
    (h : Routine.Sections rs r ls) (ht : Stmt.Flat false (Stmt.lastLabel? r.body) t ts) :
    Routine.Sections rs { r with body := r.body ++ [t] } (ls ++ ts) := by
  cases h with
  | init hbody => exact .init (hbody.snoc ht)
  | header head span hrs hbody =>
    rw [List.append_assoc]
    exact .header head span hrs (hbody.snoc ht)

namespace Blocks

/-- The blocks that are open and the lines they come from. A routine stands at
the top level only, and in one language only. -/
inductive Follows : Language → Blocks → List Line → Prop where
  | simple {rs : List Routine} {r : Routine} {ls : List Line} :
      Routine.Sections rs r ls → Follows .simple ⟨[], r, rs⟩ ls
  | l2 {rs : List Routine} {body : List Stmt} {ls : List Line} :
      Routine.Interleaved body rs ls → Follows .l2 ⟨[], ⟨.init, .single 0, body, 0⟩, rs⟩ ls
  | within {language : Language} {s : Blocks} {b : Block} {ls own : List Line} :
      Follows language s ls → Block.Begun s.lastLabel? b own →
      (b.isRoutine = true → s.inner = [] ∧ language = .l2) →
      Follows language (s.within b) (ls ++ own)

variable {language} {s s' : Blocks} {ls : List Line}

theorem Follows.start : Follows language .start [] := by
  cases language with
  | simple => exact .simple (.init .nil)
  | l2 => exact .l2 .nil

theorem inSwitch_within {b : Block} : (s.within b).inSwitch = b.isSwitch := by
  obtain ⟨kind, span, label, body⟩ := b
  cases kind with
  | _ => rfl

theorem Follows.push {t : Stmt} {ts : List Line} (h : Follows language s ls)
    (ht : Stmt.Flat s.inSwitch s.lastLabel? t ts) : Follows language (s.push t) (ls ++ ts) := by
  cases h with
  | simple hrs => exact .simple (hrs.push ht)
  | l2 hrs => exact .l2 (hrs.stmt ht)
  | within hs hb hroutine =>
    rw [inSwitch_within] at ht
    rw [List.append_assoc]
    exact hs.within (hb.push ht) hroutine

theorem plain_flat {t : Stmt} (hstands : t.standsIn language = true) (h : s.plain t = .ok s') :
    s' = s.push t ∧ Stmt.Flat s.inSwitch s.lastLabel? t [.plain t] := by
  have hwhole : t.isWhole = true := by
    cases t with
    | branch _ _ | whenever _ _ _ | whileLoop _ _ _ _ | doWhile _ _ _ _ | rangeFor _ _ _ _ _ _ _
    | forLoop _ _ _ _ _ _ | switch _ _ _ _ | block _ _ => cases hstands
    | _ => rfl
  unfold plain at h
  by_cases hswitch : s.inSwitch = true
  · rw [if_pos hswitch] at h
    cases h
    exact ⟨rfl, .whole hwhole fun _ => hswitch⟩
  · rw [if_neg hswitch] at h
    cases t with
    | case _ _ | default _ => cases h
    | _ =>
      cases h
      exact ⟨rfl, .whole hwhole nofun⟩

variable {span : Span}

theorem opening_eq_ok {opener : Opener} (h : s.opening opener span = .ok s') :
    (opener.routine? = none ∨ s.inner = []) ∧ s' = s.within (s.opened opener span) := by
  have hfree : opener.routine? = none ∨ s.inner = [] := by
    obtain ⟨inner, current, done⟩ := s
    cases inner with
    | nil => exact .inr rfl
    | cons b bs =>
      cases opener with
      | onEvent _ | function _ => cases h
      | _ => exact .inl rfl
  refine ⟨hfree, ?_⟩
  have hline : s.line .l2 (.opening opener span) = _ := line_opening hfree
  exact Except.ok.inj (h.symm.trans hline)

theorem Follows.opening {opener : Opener} (h : Follows language s ls)
    (hstands : opener.standsIn language = true) (hline : s.opening opener span = .ok s') :
    Follows language s' (ls ++ [.opening opener span]) := by
  obtain ⟨hfree, rfl⟩ := opening_eq_ok hline
  refine h.within ?_ ?_
  · cases opener with
    | branch cond => exact .inArm (.first cond .nil)
    | _ => exact .opened _ span nofun .nil
  · intro hroutine
    cases opener with
    | onEvent _ | function _ =>
      refine ⟨hfree.resolve_left nofun, ?_⟩
      cases language with
      | simple => cases hstands
      | l2 => rfl
    | _ => cases hroutine

theorem Follows.nextArm {what : String} {current : Option (Expr × Span)} (h : Follows language s ls)
    (hline : s.nextArm what current span = .ok s') :
    ∃ s0 span0 arms last before own, s = s0.within (.inArm span0 arms last) ∧
      Follows language s0 before ∧ Arms.Flat span0 arms last own ∧ ls = before ++ own ∧
      s' = s0.within ⟨.branch (arms ++ [last]) current, span0, none, []⟩ := by
  cases h with
  | simple _ => cases hline
  | l2 _ => cases hline
  | within hs hb _ =>
    cases hb with
    | opened opener span hbranch _ =>
      cases opener with
      | branch cond => exact absurd rfl (hbranch cond)
      | _ => cases hline
    | inArm harms =>
      cases hline
      exact ⟨_, _, _, _, _, _, rfl, hs, harms, rfl, rfl⟩
    | inElse _ _ _ => cases hline

theorem Follows.closing {what : String} {cond : Option Expr} (h : Follows language s ls)
    (hline : s.closing what cond span = .ok s') : Follows language s' (ls ++ [.ending cond span]) := by
  cases h with
  | simple _ => cases hline
  | l2 _ => cases hline
  | @within _ s0 b before own hs hb hroutine =>
    obtain ⟨result, hclose, hline⟩ := bind_eq_ok.mp hline
    cases result with
    | inr t =>
      cases hline
      rw [List.append_assoc]
      exact hs.push (hb.flat hclose _)
    | inl r =>
      cases hline
      obtain ⟨hr, rfl, opener, ts, rfl, hkind, hbody, hsize⟩ := hb.routine hclose
      obtain ⟨hinner, rfl⟩ := hroutine hr
      cases hs with
      | l2 hrs =>
        obtain ⟨kind, start, body, size⟩ := r
        cases hsize
        exact .l2 (hrs.routine opener start span hkind hbody)
      | within _ _ _ => cases hinner

theorem Follows.header {head : Header} (h : Follows .simple s ls) (hline : s.header head span = .ok s') :
    Follows .simple s' (ls ++ [.header head span]) := by
  obtain ⟨rs, hfinish, hline⟩ := bind_eq_ok.mp hline
  cases h with
  | simple hrs =>
    rw [hrs.finish] at hfinish
    cases hfinish
    cases head with
    | onEvent name =>
      cases hline
      exact .simple (.header (.onEvent name) span hrs .nil)
    | sub name =>
      cases hline
      exact .simple (.header (.sub name) span hrs .nil)
  | within _ _ _ => cases hfinish

/-- Whatever line comes next, the open blocks come from all lines so far. -/
theorem Follows.line {l : Line} (h : Follows language s ls) (hstands : l.standsIn language = true)
    (hline : s.line language l = .ok s') : Follows language s' (ls ++ [l]) := by
  cases l with
  | plain t =>
    obtain ⟨rfl, ht⟩ := plain_flat hstands hline
    exact h.push ht
  | opening opener span => exact h.opening hstands hline
  | elseIf cond span =>
    obtain ⟨s0, span0, arms, last, before, own, rfl, hs, harms, rfl, rfl⟩ := h.nextArm hline
    rw [List.append_assoc]
    exact hs.within (.inArm (.next cond span harms .nil)) nofun
  | otherwise span =>
    obtain ⟨s0, span0, arms, last, before, own, rfl, hs, harms, rfl, rfl⟩ := h.nextArm hline
    rw [List.append_assoc]
    exact hs.within (.inElse span harms .nil) nofun
  | closing span => exact h.closing hline
  | closingWhile cond span => exact h.closing hline
  | header head span =>
    cases language with
    | simple => exact h.header hline
    | l2 => cases hstands

theorem Follows.lines : ∀ {ts ls : List Line} {s : Blocks}, Follows language s ls →
    (∀ l ∈ ts, l.standsIn language = true) → s.lines language ts = .ok s' →
    Follows language s' (ls ++ ts)
  | [], ls, s, h, _, hlines => by
    cases hlines
    rw [List.append_nil]
    exact h
  | l :: ts, ls, s, h, hstands, hlines => by
    unfold Blocks.lines at hlines
    rw [List.foldlM_cons] at hlines
    obtain ⟨mid, hl, hts⟩ := bind_eq_ok.mp hlines
    have hmid := h.line (hstands l List.mem_cons_self) hl
    have hend := hmid.lines (fun l' hl' => hstands l' (List.mem_cons_of_mem _ hl')) hts
    rw [List.append_assoc] at hend
    exact hend

theorem Follows.finish {rs : List Routine} (h : Follows language s ls) (hfinish : s.finish = .ok rs) :
    Routine.AllFlat language rs ls := by
  cases h with
  | simple hrs =>
    rw [hrs.finish] at hfinish
    cases hfinish
    exact ⟨_, _, rfl, hrs⟩
  | l2 hrs =>
    cases hfinish
    exact ⟨_, _, rfl, hrs⟩
  | within _ _ _ => cases hfinish

end Blocks

theorem Routine.allFlat_of_ofLines {language : Language} {lines : List Line} {rs : List Routine}
    (hstands : ∀ l ∈ lines, l.standsIn language = true)
    (h : Routine.ofLines language lines = .ok rs) : Routine.AllFlat language rs lines := by
  obtain ⟨s, hlines, hfinish⟩ := bind_eq_ok.mp h
  exact (Follows.start.lines hstands hlines).finish hfinish

/-- Pairing is exact. Lines that are read in a language are of its forms,
and lines of these forms make up routines exactly if they come from them. -/
theorem pairing_exact :
    (∀ settings source lines, Line.read settings source = .ok lines →
      ∀ l ∈ lines, l.standsIn settings.language = true) ∧
    ∀ language lines, (∀ l ∈ lines, Line.standsIn language l = true) → ∀ routines,
      (Routine.ofLines language lines = .ok routines ↔ Routine.AllFlat language routines lines) :=
  ⟨fun _ _ _ => Line.read_standsIn, fun _ _ hstands _ =>
    ⟨Routine.allFlat_of_ofLines hstands, Routine.ofLines_of_allFlat⟩⟩

/-- A handler between a label and the loop that the label names. -/
theorem pairing_exact_labelled :
    let cond : Expr := .number ⟨.single 5, .int, []⟩ 1
    Routine.AllFlat .l2
      [⟨.init, .single 0,
        [.label (.single 0) "again",
         .whileLoop (.single 5) (some "again") (some cond)
          [.branch (.single 6) (.arm (.single 6) cond [.exit (.single 7) .again (some "again")]
            (.otherwise [.empty (.single 9)]))]], 0⟩,
       ⟨.onEvent "prox", .single 2, [.empty (.single 3)], 0⟩]
      [.plain (.label (.single 0) "again"), .opening (.onEvent "prox") (.single 2),
       .plain (.empty (.single 3)), .closing (.single 4), .opening (.whileLoop cond) (.single 5),
       .opening (.branch cond) (.single 6), .plain (.exit (.single 7) .again (some "again")),
       .otherwise (.single 8), .plain (.empty (.single 9)), .closing (.single 10),
       .closing (.single 11)] :=
  (pairing_exact.2 .l2 _ (by decide) _).mp rfl

end RobotScript
