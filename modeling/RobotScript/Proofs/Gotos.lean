/-
# Jumps to labels in the code

Typing leaves labels and jumps as they are, and folding takes out whole blocks.
A jump means a label of a block around it, so no jump loses its label, and the
code of a routine has the labels and jumps of its statements, in order. Each
jump is then resolved to the address of its label, and fails only if that is
too far.

Key definitions: `Code.Shows`, `ObjectCode.Patched`.
Key theorems: `Stmt.foldBlock_prunes`, `Stmt.Emits.shows`, `gotos_keep_labels`.
-/
import RobotScript.Proofs.Execution
import RobotScript.Proofs.Labels
import RobotScript.Proofs.Linking
import RobotScript.Proofs.Notes
import RobotScript.Proofs.StmtDrafting

namespace RobotScript

open Machine (Instr Binary Opcode)
open Outline (Prunes)

/-! ### Types and folding -/

/-- All arms of an `if` can be taken out. -/
theorem Arms.prunes_done (arms : Arms) : Prunes arms.outline .done := by
  cases arms with
  | done => exact .done
  | otherwise _ => exact .drop _ .done
  | arm _ _ _ rest => exact .drop _ rest.prunes_done

namespace Stmt

/-- The step makes something of the given outline. -/
abbrev Outlined {α : Type} (outline : α → Outline) (o : Outline) (x : Result α) : Prop :=
  Ends (fun _ => True) (fun a => outline a = o) x

mutual

/-- Typing leaves the outline as it is. -/
theorem typed_outline (c : Calls) : ∀ t : Stmt, Outlined outline t.outline (typed c t)
  | .expr span e => by
    have hexpr : Outlined outline .done (do return expr span (← e.typed c)) :=
      (Ends.any _).bind fun _ _ => .pure rfl
    unfold typed typedExpr
    split
    · split
      · exact (Ends.any _).bind fun _ _ => .pure rfl
      · exact hexpr
    · exact hexpr
  | .branch _ arms => (typedArms_outline c arms).bind fun _ harms => .pure harms
  | .whenever _ cond body =>
    (Ends.any (cond.typedWord c)).bind fun _ _ => (typedBlock_outline c body).bind fun _ hbody =>
      .pure (congrArg (Outline.block · .done) hbody)
  | .whileLoop _ _ cond body =>
    (Ends.any (typedWord? c cond)).bind fun _ _ => (typedBlock_outline c body).bind fun _ hbody =>
      .pure (congrArg (Outline.block · .done) hbody)
  | .doWhile _ _ body cond =>
    (typedBlock_outline c body).bind fun _ hbody => (Ends.any (cond.typedWord c)).bind fun _ _ =>
      .pure (congrArg (Outline.block · .done) hbody)
  | .rangeFor _ _ var first last step body =>
    (Ends.any (typedCounter c var)).bind fun _ _ => (Ends.any (first.typedWord c)).bind fun _ _ =>
      (Ends.any (last.typedWord c)).bind fun _ _ => (Ends.any (typedWord? c step)).bind fun _ _ =>
        (typedBlock_outline c body).bind fun _ hbody => .pure (congrArg (Outline.block · .done) hbody)
  | .forLoop span tag init cond step body => by
    refine (typedBlock_outline c init).bind fun init' hinit => ?_
    refine (Ends.any (typedWord? c cond)).bind fun cond' _ => ?_
    have hbody : ∀ step', Outlined outline (outline (.forLoop span tag init cond step body))
        (do return forLoop span tag init' cond' step' (← typedBlock c body)) := by
      refine fun step' => (typedBlock_outline c body).bind fun body' hbody => .pure ?_
      rw [outline, outline, hinit, hbody]
    cases step with
    | none => exact hbody none
    | some e => exact (Ends.any _).bind fun step' _ => hbody step'
  | .switch _ _ subject body =>
    (Ends.any (subject.typedWord c)).bind fun _ _ => (typedBlock_outline c body).bind fun _ hbody =>
      .pure (congrArg (Outline.block · .done) hbody)
  | .block _ body =>
    (typedBlock_outline c body).bind fun _ hbody => .pure (congrArg (Outline.block · .done) hbody)
  | .emit _ _ none => .pure rfl
  | .case _ _ | .native _ _ _ | .emit _ _ (some _) | .ret _ _ =>
    (Ends.any _).bind fun _ _ => .pure rfl
  | .varDecl _ _ | .constDecl _ _ _ | .default _ | .label _ _ | .goto _ _ | .exit _ _ _
  | .callSub _ _ | .empty _ => .pure rfl

theorem typedArms_outline (c : Calls) : ∀ arms : Arms,
    Outlined Arms.outline arms.outline (typedArms c arms)
  | .done => .pure rfl
  | .otherwise body =>
    (typedBlock_outline c body).bind fun _ hbody => .pure (congrArg (Outline.block · .done) hbody)
  | .arm _ cond body rest => by
    refine (Ends.any (cond.typedWord c)).bind fun cond' _ => ?_
    refine (typedBlock_outline c body).bind fun body' hbody => ?_
    refine (typedArms_outline c rest).bind fun rest' hrest => .pure ?_
    rw [Arms.outline, Arms.outline, hbody, hrest]

theorem typedBlock_outline (c : Calls) : ∀ ss : List Stmt,
    Outlined outlineAll (outlineAll ss) (typedBlock c ss)
  | [] => .pure rfl
  | s :: ss => by
    refine (typed_outline c s).bind fun s' hs => ?_
    refine (typedBlock_outline c ss).bind fun ss' hss => .pure ?_
    rw [outlineAll, outlineAll, hs, hss]

end

/-- The step makes something whose outline is the given one without some
blocks. -/
abbrev Pruned {α : Type} (outline : α → Outline) (o : Outline) (x : Result α) : Prop :=
  Ends (fun _ => True) (fun a => Prunes o (outline a)) x

theorem assignItems_outline {span opSpan : Span} {target : Info} {v : Variable} :
    ∀ (k : Nat) (items : List Expr), Outlined outlineAll .done (assignItems span opSpan target v k items)
  | _, [] => .pure rfl
  | k, item :: items => by
    refine (Ends.any _).bind fun assign _ => ?_
    exact (assignItems_outline (k + 1) items).bind fun ss hss => .pure hss

theorem assignArray_outline (span : Span) (e : Expr) : Outlined outlineAll .done (assignArray span e) := by
  unfold assignArray
  split
  · split
    · trivial
    · split
      · exact assignItems_outline 0 _
      · trivial
  · trivial
  · trivial
  · trivial

/-- An `if` that has nothing left in it leaves no block. -/
theorem prunes_ofArms (span : Span) (arms : Arms) : Prunes arms.outline (outlineAll (ofArms span arms)) := by
  unfold ofArms
  split
  · exact .done
  · exact .drop _ .done
  · exact .refl _
  · rw [outlineAll_single]
    exact .refl _

mutual

/-- Folding takes out nothing but whole blocks. -/
theorem fold_prunes (result : Option Ty) : ∀ t : Stmt, Pruned outlineAll t.outline (fold result t)
  | .expr span e => by
    unfold fold
    split
    · exact (assignArray_outline span e).mono fun ss hss => hss ▸ .done
    · exact (Ends.any _).bind fun _ _ => .pure .done
  | .branch span arms =>
    (foldArms_prunes result false arms).bind fun arms' harms => .pure (harms.trans (prunes_ofArms span arms'))
  | .whenever _ cond body =>
    (Ends.any cond.fold).bind fun _ _ => (foldBlock_prunes result body).bind fun _ hbody =>
      .pure (.block hbody .done)
  | .whileLoop span tag cond body => by
    refine (foldBlock_prunes result body).bind fun body' hbody => ?_
    refine (Ends.any (fold? cond)).bind fun cond' _ => ?_
    have hkept : ∀ cond'', Prunes (outline (.whileLoop span tag cond body))
        (outlineAll [.whileLoop span tag cond'' body']) := fun _ => .block hbody .done
    split
    · split
      · exact .pure (hkept _)
      · exact .pure (.drop _ .done)
    · exact .pure (hkept _)
    · exact .pure (hkept _)
  | .doWhile _ _ body cond =>
    (foldBlock_prunes result body).bind fun _ hbody => (Ends.any cond.fold).bind fun _ _ =>
      .pure (.block hbody .done)
  | .rangeFor _ _ var first last step body =>
    (Ends.any (foldStep step)).bind fun _ _ => (Ends.any (foldInt first)).bind fun _ _ =>
      (Ends.any (foldInt last)).bind fun _ _ => (foldBlock_prunes result body).bind fun _ hbody =>
        .pure (.block hbody .done)
  | .forLoop _ _ init cond step body =>
    (Ends.any (fold? cond)).bind fun _ _ => (foldBlock_prunes result init).bind fun _ hinit =>
      (Ends.any (fold? step)).bind fun _ _ => (foldBlock_prunes result body).bind fun _ hbody =>
        .pure (.block (hinit.append (.block hbody .done)) .done)
  | .switch _ _ subject body =>
    (Ends.any (foldInt subject)).bind fun _ _ => (foldBlock_prunes result body).bind fun _ hbody =>
      .pure (.block hbody .done)
  | .case _ value => by
    refine (Ends.any (foldInt value)).bind fun value' _ => ?_
    split
    · trivial
    · exact .pure .done
  | .block _ body => (foldBlock_prunes result body).bind fun _ hbody => .pure (.block hbody .done)
  | .native _ _ _ | .emit _ _ _ | .ret _ (some _) => (Ends.any _).bind fun _ _ => .pure .done
  | .ret _ none | .varDecl _ _ | .constDecl _ _ _ | .default _ | .exit _ _ _ | .callSub _ _
  | .empty _ => .pure .done
  | .label _ name => .pure (.label name .done)
  | .goto _ name => .pure (.goto name .done)

theorem foldArms_prunes (result : Option Ty) (kept : Bool) : ∀ arms : Arms,
    Pruned Arms.outline arms.outline (foldArms result kept arms)
  | .done => .pure .done
  | .otherwise body => (foldBlock_prunes result body).bind fun _ hbody => .pure (.block hbody .done)
  | .arm span cond body rest => by
    refine (Ends.any cond.fold).bind fun cond' _ => ?_
    refine (foldBlock_prunes result body).bind fun body' hbody => ?_
    have hkept : Pruned Arms.outline (Outline.block (outlineAll body) rest.outline)
        (do return .arm span cond' body' (← foldArms result true rest)) :=
      (foldArms_prunes result true rest).bind fun _ hrest => .pure (.block hbody hrest)
    split
    · exact (foldArms_prunes result kept rest).mono fun _ hrest => .drop _ hrest
    · split
      · exact hkept
      · exact .pure (.block hbody rest.prunes_done)
    · exact hkept

theorem foldBlock_prunes (result : Option Ty) : ∀ ss : List Stmt,
    Pruned outlineAll (outlineAll ss) (foldBlock result ss)
  | [] => .pure .done
  | s :: ss => by
    refine (fold_prunes result s).bind fun ts hts => ?_
    refine (foldBlock_prunes result ss).bind fun us hus => .pure ?_
    rw [outlineAll_append]
    exact hts.append hus

end

end Stmt

/-! ### Labels and jumps of code -/

/-- The label that an item is. -/
def Item.label? : Item → Option String
  | label name => some name
  | _ => none

/-- The label that an item waits for. -/
def Item.goto? : Item → Option String
  | goto name _ => some name
  | _ => none

namespace Code

def labels (c : Code) : List String := c.filterMap Item.label?

def gotos (c : Code) : List String := c.filterMap Item.goto?

theorem labels_cons (item : Item) (c : Code) : labels (item :: c) = item.label?.toList ++ labels c := by
  cases item with
  | _ => rfl

theorem gotos_cons (item : Item) (c : Code) : gotos (item :: c) = item.goto?.toList ++ gotos c := by
  cases item with
  | _ => rfl

theorem mem_labels {name : String} {c : Code} : name ∈ c.labels ↔ .label name ∈ c := by
  unfold labels
  rw [List.mem_filterMap]
  constructor
  · rintro ⟨item, hmem, hitem⟩
    cases item with
    | label name' =>
      cases hitem
      exact hmem
    | _ => cases hitem
  · exact fun hmem => ⟨_, hmem, rfl⟩

theorem mem_gotos {name : String} {span : Span} {c : Code} (h : .goto name span ∈ c) : name ∈ c.gotos :=
  List.mem_filterMap.mpr ⟨_, h, rfl⟩

/-- The code has the labels and jumps of an outline, in order. -/
structure Shows (c : Code) (o : Outline) : Prop where
  labels : c.labels = o.labels
  gotos : c.gotos = o.gotos

namespace Shows

variable {c d : Code} {o p : Outline}

theorem append (hc : Shows c o) (hd : Shows d p) : Shows (c ++ d) (o ++ p) where
  labels := by rw [Code.labels, List.filterMap_append, Outline.labels_append, ← hc.labels, ← hd.labels]; rfl
  gotos := by rw [Code.gotos, List.filterMap_append, Outline.gotos_append, ← hc.gotos, ← hd.gotos]; rfl

theorem bare (h : ∀ item ∈ c, item.isBare = true) : Shows c .done := by
  constructor
  · refine List.filterMap_eq_nil_iff.mpr fun item hmem => ?_
    cases item with
    | label name => cases h _ hmem
    | _ => rfl
  · refine List.filterMap_eq_nil_iff.mpr fun item hmem => ?_
    cases item with
    | goto name span => cases h _ hmem
    | _ => rfl

theorem plain (is : List Instr) : Shows (plain is) .done := bare (bare_plain is)

theorem block (h : Shows c o) : Shows c (.block o .done) where
  labels := by rw [h.labels, Outline.labels, Outline.labels, List.append_nil]
  gotos := by rw [h.gotos, Outline.gotos, Outline.gotos, List.append_nil]

/-- Code without labels and jumps in front. -/
theorem after (hc : Shows c .done) (hd : Shows d o) : Shows (c ++ d) o := hc.append hd

/-- Code without labels and jumps behind. -/
theorem before (hc : Shows c o) (hd : Shows d .done) : Shows (c ++ d) o := by
  have hall := hc.append hd
  rwa [Outline.append_done] at hall

end Shows
end Code

open Code (Shows)

section Statements

variable {c : Coder} {k l : Draft}

/-- The code of an expression has no labels. -/
theorem Draft.Composed.shows (h : k.Composed c) : Shows k.code .done := by
  induction h with
  | nil => exact .plain []
  | append _ _ ih ih' =>
    rw [Draft.code_append]
    exact ih.after ih'
  | instr i => exact .plain [i]
  | call => exact ⟨rfl, rfl⟩
  | note _ _ ih => exact ih
  | element =>
    rw [Draft.code_note, Draft.code_plain]
    exact .plain _

theorem Item.close_labels {next stop here : Nat} {i i' : Item} (h : i.close next stop here = some i') :
    i'.label? = i.label? ∧ i'.goto? = i.goto? := by
  unfold close at h
  split at h
  · obtain ⟨_, -, rfl⟩ := Option.map_eq_some_iff.mp h
    exact ⟨rfl, rfl⟩
  · obtain ⟨_, -, rfl⟩ := Option.map_eq_some_iff.mp h
    exact ⟨rfl, rfl⟩
  · cases h
    exact ⟨rfl, rfl⟩
  · cases h
    exact ⟨rfl, rfl⟩

/-- Jumps out of loops are no jumps to labels. -/
theorem Draft.closeLoop_shows {next stop here : Nat} {o : Outline} (h : Shows k.code o)
    (hl : k.closeLoop next stop here = some l) : Shows l.code o := by
  have hkeep : l.code.labels = k.code.labels ∧ l.code.gotos = k.code.gotos := by
    clear h
    induction k generalizing here l with
    | nil =>
      cases hl
      exact ⟨rfl, rfl⟩
    | cons x k ih =>
      cases x with
      | note n =>
        obtain ⟨l', hl', hl⟩ := Option.bind_eq_some_iff.mp hl
        obtain rfl := Option.some.inj hl
        rw [code_note, code_note]
        exact ih hl'
      | item i =>
        obtain ⟨i', hi, hl⟩ := Option.bind_eq_some_iff.mp hl
        obtain ⟨l', hl', hl⟩ := Option.bind_eq_some_iff.mp hl
        cases hl
        obtain ⟨hlabel, hgoto⟩ := Item.close_labels hi
        constructor
        · rw [code_item, code_item, Code.labels_cons, Code.labels_cons, hlabel, (ih hl').1]
        · rw [code_item, code_item, Code.gotos_cons, Code.gotos_cons, hgoto, (ih hl').2]
  exact ⟨hkeep.1.trans h.labels, hkeep.2.trans h.gotos⟩

namespace Stmt

/-- The labels and jumps of the statements that code is wanted for. -/
def Job.outline : Job → Outline
  | .stmt _ s | .inner _ s => s.outline
  | .arms _ rest => rest.outline
  | .block _ ss | .cases _ _ _ ss _ _ => outlineAll ss

/-- The code of statements has their labels and jumps. -/
theorem Emits.shows {job : Job} {t t' : Nat} (h : Emits c job t k t') : Shows k.code job.outline := by
  induction h with
  | @stmt _ s _ _ _ _ ih =>
    split
    · exact ⟨ih.labels, ih.gotos⟩
    · exact ih
  | nothing hs =>
    rcases hs with ⟨_, _, rfl⟩ | ⟨_, _, _, rfl⟩ | ⟨_, rfl⟩ | ⟨_, _, rfl⟩ | ⟨_, rfl⟩ <;> exact .plain []
  | expr hk => exact hk.composed.shows
  | branch _ ih | case _ _ ih | lateCase _ ih | default _ ih => exact ih
  | block _ ih | otherwise _ ih => exact ih.block
  | whenever hk _ _ ih =>
    simp only [Draft.code_append, Draft.code_plain]
    exact (hk.composed.shows.after (.plain _)).after ih.block
  | whileLoop hk _ hb _ hl ih =>
    refine (Draft.closeLoop_shows ?_ hl).block
    simp only [Draft.code_append, Draft.code_plain]
    exact ((hk.composed.shows.after (hb.composed (c := c)).shows).after ih).before (.plain _)
  | doWhile _ hk' _ hl ih =>
    refine (Draft.closeLoop_shows ?_ hl).block
    simp only [Draft.code_append, Draft.code_plain]
    exact ((ih.before hk'.composed.shows).before (.plain _)).before (.plain _)
  | rangeFor _ hk hk1 hk2 hk3 hk4 _ hk6 hk7 hb _ hl ih =>
    rw [Draft.code_append]
    refine ((hk.composed.append hk1.composed).append hk2.composed).shows.after ?_
    refine (Draft.closeLoop_shows ?_ hl).block
    have hround := ((hk3.composed.append hk4.composed).append hb.composed).shows.after ih
    have hstep (n : Cell) :=
      ((hk6.composed.append (.instrs [.immediate n, .binary .add])).append hk7.composed).shows
    simp only [Draft.code_append, Draft.code_plain] at hround hstep ⊢
    exact (hround.before (hstep _)).before (.plain _)
  | forLoop _ hk1 _ hk3 hb _ hl ih ih2 =>
    rw [Draft.code_append]
    refine (ih.append (Draft.closeLoop_shows ?_ hl).block).block
    have hround := ((hk1.composed.append hb.composed).shows.after ih2).before hk3.composed.shows
    simp only [Draft.code_append, Draft.code_plain] at hround ⊢
    exact hround.before (.plain _)
  | switch hk hks _ _ hl ih =>
    refine (Draft.closeLoop_shows ?_ hl).block
    have htests (branches : List Instr) :=
      ((hk.composed.append (.instrs [.store c.returnSlot])).append (hks.composed branches)).shows
    simp only [Draft.code_append, Draft.code_plain] at htests ⊢
    exact ((htests _).after (.plain _)).after ih
  | label | goto | exit | callSub => exact ⟨rfl, rfl⟩
  | native hk hk1 _ hk2 =>
    exact ((hk.composed.append hk1.composed).append (Coder.nativeDraft_composed hk2.composed ..)).shows
  | emit _ hk => exact (hk.composed.append (.instrs _)).shows
  | ret => exact .plain [c.exit]
  | retValue hk => exact (hk.composed.append (.instrs _)).shows
  | noArm | nil | noCase => exact .plain []
  | arm hk _ _ _ _ ih ih2 =>
    simp only [Draft.code_append, Draft.code_plain]
    exact (((hk.composed.shows.after (.plain _)).after ih.block).before (.plain _)).append ih2
  | cons _ _ ih ih' | among _ _ _ ih ih' =>
    rw [Draft.code_append]
    exact ih.append ih'

end Stmt

end Statements

/-! ### Resolved jumps -/

namespace Code

theorem labelAddress?_isSome {name : String} {here : Nat} {c : Code} (h : .label name ∈ c) :
    (labelAddress? name here c).isSome = true := by
  induction c generalizing here with
  | nil => cases h
  | cons item c ih =>
    unfold labelAddress?
    by_cases hitem : item = .label name
    · rw [if_pos hitem]
      rfl
    · rw [if_neg hitem]
      exact ih ((List.mem_cons.mp h).resolve_left fun heq => hitem heq.symm)

/-- A label that stands once in code is nowhere else. -/
theorem label_once {name : String} {front back : Code} (h : (labels (front ++ .label name :: back)).Nodup) :
    .label name ∉ front ∧ .label name ∉ back := by
  rw [labels, List.filterMap_append, List.nodup_append] at h
  obtain ⟨-, hback, happart⟩ := h
  have hhere : name ∈ (Item.label name :: back).filterMap Item.label? := mem_labels.mpr List.mem_cons_self
  refine ⟨fun hmem => happart name (mem_labels.mpr hmem) name hhere rfl, fun hmem => ?_⟩
  exact (List.nodup_cons.mp hback).1 (mem_labels.mpr hmem)

end Code

/-- In the words of a routine, the jumps to labels in its code go to where the
code behind the label starts, which stands only once. -/
def ObjectCode.Patched (u : ObjectCode) (code : Code) : Prop :=
  ∀ (pre post : Code) (name : String) (span : Span), code = pre ++ .goto name span :: post →
    ∃ (front back : Code) (w : Word), code = front ++ .label name :: back ∧ .label name ∉ front ∧
      .label name ∉ back ∧ u.words[Code.size pre]? = some w ∧ Opcode.ofWord? w = some .jump ∧
      (Code.size pre : Int) + Machine.signed12 w = Code.size front

/-- Each jump is resolved to the address of its label. -/
theorem Code.Resolves.patched {code code' : Code} {u : ObjectCode}
    (h : Code.Rewrites (Code.Resolves fun name => Code.labelAddress? name 0 code) 0 code code')
    (hnodup : code.labels.Nodup) (hwords : u.words = Code.words code') : u.Patched code := by
  intro pre post name span hsplit
  rw [hsplit] at h
  obtain ⟨pre', rest, hpre, hrest, rfl⟩ := h.parts
  cases hrest with
  | @cons _ _ item _ rest' hitem _ _ =>
    cases hitem with
    | other hne => exact absurd rfl (hne name span)
    | @goto _ _ target i htarget hjump =>
      rw [← hsplit] at htarget
      obtain ⟨front, back, hlabel, rfl⟩ := labelAddress?_eq_some htarget
      obtain ⟨o, rfl, hoffset, hlo, hhi⟩ := jumpBy?_eq_some hjump
      obtain ⟨hfront, hback⟩ := label_once (hlabel ▸ hnodup)
      refine ⟨front, back, Opcode.jump.word o.toUInt16.toNat, hlabel, hfront, hback, ?_,
        Opcode.ofWord?_word _ _, ?_⟩
      · have hlength : (Code.words pre').length = size pre := by
          rw [length_words, hpre.size_eq]
        rw [hwords, words_append, List.getElem?_append_right (Nat.le_of_eq hlength), hlength, Nat.sub_self]
        rfl
      · rw [Machine.signed12_word _ (by omega) (by omega)]
        omega

namespace Routine

def labels (r : Routine) : List String := (Stmt.outlineAll r.body).labels

def gotos (r : Routine) : List String := (Stmt.outlineAll r.body).gotos

/-- A failure that is not that a label is missing. -/
abbrev Labelled (e : CompileError) : Prop := ∀ name, e.cause ≠ .semantic (.unknownLabel name)

variable {G : Ground} {node : Node} {settings : Settings} {moduleSize : Nat} {r : Routine}

theorem code_shows {c : Coder} (hN : c.node.Provides G) (hexit : c.exit = .ret ∨ c.exit = .stop)
    (h : r.Keeps (.ready G.place)) : Ends Labelled (·.Shows (Stmt.outlineAll r.body)) (r.code c) := by
  have hblock := (Stmt.blockCode_places hN hexit r.body [] h.body).yields ⟨c.tempTop, r.span⟩ h.span
  refine (hblock.weaken fun _ he => he.known).self.bind fun ⟨block, _⟩ ⟨hrun, _⟩ => Ends.pure ?_
  obtain ⟨-, draft, rfl, hdraft⟩ := Stmt.blockCode_brings r.body [] _ _ _ _ rfl hrun
  exact hdraft.shows.before (.plain [c.exit])

/-- If the labels of a routine are unique and its jumps have one, no label is
missing in its code, and every jump in it goes to its label. -/
theorem assemble_patched (hN : node.Provides G) (h : r.Keeps (.ready G.place)) (hnodup : r.labels.Nodup)
    (hlabelled : ∀ name ∈ r.gotos, name ∈ r.labels) :
    Ends Labelled
      (fun u => ∃ code, r.code (r.coder node settings moduleSize) = .ok code ∧
        code.Shows (Stmt.outlineAll r.body) ∧ u.Patched code)
      (r.assemble node settings moduleSize) := by
  have hexit : (r.coder node settings moduleSize).exit = .ret ∨ (r.coder node settings moduleSize).exit = .stop := by
    rw [coder_exit]
    exact r.kind.entry.ending_cases
  unfold assemble
  refine (code_shows hN hexit h).self.bind fun code ⟨hcode, hshows⟩ => ?_
  have hfound : ∀ name span, .goto name span ∈ code → Code.labelAddress? name 0 code ≠ none := by
    intro name span hmem
    have hgoto : name ∈ r.gotos := by
      rw [gotos, ← hshows.gotos]
      exact Code.mem_gotos hmem
    have hlabel := hlabelled name hgoto
    rw [labels, ← hshows.labels, Code.mem_labels] at hlabel
    rw [← Option.isSome_iff_ne_none]
    exact Code.labelAddress?_isSome hlabel
  refine (Code.resolveGotos_ends (fun name span hmem hnone => absurd hnone (hfound name span hmem))
    fun _ _ _ => nofun).bind fun code' hcode' => Ends.pure ⟨code, hcode, hshows, ?_⟩
  rw [labels, ← hshows.labels] at hnodup
  exact Code.Resolves.patched hcode' hnodup rfl

/-- Typing and folding a routine keeps its labels unique and leaves every jump
its label. -/
theorem folded_labelled {c : Calls} {r r' r'' : Routine} (hresolved : (Stmt.outlineAll r.body).labels.Nodup)
    (hclosed : (Stmt.outlineAll r.body).Closed (Stmt.outlineAll r.body).direct)
    (htyped : r.typed c = .ok r') (hfolded : r'.fold = .ok r'') :
    r''.labels.Sublist r.labels ∧ r''.gotos.Sublist r.gotos ∧ r''.labels.Nodup ∧
      ∀ name ∈ r''.gotos, name ∈ r''.labels := by
  have hkept : Stmt.outlineAll r'.body = Stmt.outlineAll r.body := by
    obtain ⟨body, hbody, htyped⟩ := bind_eq_ok.mp htyped
    cases htyped
    exact (Stmt.typedBlock_outline c r.body).of_ok hbody
  have hprunes : Prunes (Stmt.outlineAll r.body) (Stmt.outlineAll r''.body) := by
    obtain ⟨body, hbody, hfolded⟩ := bind_eq_ok.mp hfolded
    cases hfolded
    rw [← hkept]
    exact (Stmt.foldBlock_prunes r'.kind.ret? r'.body).of_ok hbody
  refine ⟨hprunes.labels_sublist, hprunes.gotos_sublist, hprunes.labels_sublist.nodup hresolved, ?_⟩
  intro name hname
  rcases (hprunes.closed hclosed).mem hname with hdirect | hlabel
  · rw [← hprunes.direct_eq] at hdirect
    exact (Outline.direct_sublist _).subset hdirect
  · exact hlabel

end Routine

/-- The program that lines make has some of the labels and jumps that its
routines were laid out with, the label of every jump among them. -/
theorem Program.ofLines_labelled {node : Node} {settings : Settings} {lines : List Line} {program : Program}
    (hlines : ∀ l ∈ lines, l.standsIn settings.language = true)
    (h : Program.ofLines node settings lines = .ok program) :
    ∃ written laid allocation, Routine.ofLines settings.language lines = .ok written ∧
      Routine.layAll node settings.language written = .ok (laid, allocation) ∧
      program.routines.length = laid.length ∧
      ∀ (i : Nat) (r r' : Routine), laid[i]? = some r → program.routines[i]? = some r' →
        r'.labels.Sublist r.labels ∧ r'.gotos.Sublist r.gotos ∧ r'.labels.Nodup ∧
          ∀ name ∈ r'.gotos, name ∈ r'.labels := by
  obtain ⟨written, laid, allocation, hwritten, hlaid, -, hlength, hall⟩ := Program.ofLines_eq_ok h
  refine ⟨written, laid, allocation, hwritten, hlaid, hlength, fun i r r'' hr hr'' => ?_⟩
  obtain ⟨hlength', htraced⟩ :=
    Routine.layAll_traced (Routine.allFlat_of_ofLines hlines hwritten) hlines hlaid
  obtain ⟨w, hw⟩ := exists_getElem?_of_length_eq hlength' hr
  have htrace := htraced i w r hw hr
  obtain ⟨r', htyped, hfolded⟩ := hall i r r'' hr hr''
  exact Routine.folded_labelled htrace.resolved.nodup htrace.closed htyped hfolded

/-- Every jump keeps its label. When a script is laid out, each jump gets the
name of exactly one label of its routine, that of the innermost block around it
which declares the name it is written with. The routines of the program have
some of those labels and jumps, the label of every jump among them. So
generating code never misses a label, and every jump goes to where the code
behind its label starts. -/
theorem gotos_keep_labels {node : Node} {settings : Settings} {source : Source} {lines : List Line}
    (hlines : readLines settings source = .ok lines) :
    (∀ written laid allocation, Routine.ofLines settings.language lines = .ok written →
      Routine.layAll node settings.language written = .ok (laid, allocation) →
      laid.length = written.length ∧
      ∀ (i : Nat) (r r' : Routine), written[i]? = some r → laid[i]? = some r' →
        (Stmt.outlineAll r.body).Resolved (Stmt.outlineAll r'.body)) ∧
    ∀ program, Program.ofLines node settings lines = .ok program →
      (∃ written laid allocation, Routine.ofLines settings.language lines = .ok written ∧
        Routine.layAll node settings.language written = .ok (laid, allocation) ∧
        program.routines.length = laid.length ∧
        ∀ (i : Nat) (r r' : Routine), laid[i]? = some r → program.routines[i]? = some r' →
          r'.labels.Sublist r.labels ∧ r'.gotos.Sublist r.gotos) ∧
      (∀ r ∈ program.routines, r.labels.Nodup ∧ ∀ name ∈ r.gotos, name ∈ r.labels) ∧
      (∀ e, program.assemble node settings = .error e →
        ∀ name, e.cause ≠ .semantic (.unknownLabel name)) ∧
      ∀ units, program.assemble node settings = .ok units →
        units.length = program.routines.length ∧
        ∀ (i : Nat) (r : Routine) (u : ObjectCode), program.routines[i]? = some r →
          units[i]? = some u →
          ∃ code, r.code (r.coder node settings program.moduleSize) = .ok code ∧
            code.labels = r.labels ∧ code.gotos = r.gotos ∧ u.Patched code := by
  have hread : Line.read settings source = .ok lines := mapError_eq_ok.mp hlines
  have hstands := Line.read_standsIn hread
  refine ⟨fun written laid allocation hwritten hlaid => ?_, fun program hprogram => ?_⟩
  · obtain ⟨hlength, htraced⟩ :=
      Routine.layAll_traced (Routine.allFlat_of_ofLines hstands hwritten) hstands hlaid
    exact ⟨hlength, fun i r r' hr hr' => (htraced i r r' hr hr').resolved⟩
  · obtain ⟨written, laid, allocation, hwritten, hlaid, hlength, hkeep⟩ :=
      Program.ofLines_labelled hstands hprogram
    have hlabelled : ∀ r ∈ program.routines, r.labels.Nodup ∧ ∀ name ∈ r.gotos, name ∈ r.labels := by
      intro r hr
      obtain ⟨i, hi⟩ := List.mem_iff_getElem?.mp hr
      obtain ⟨l, hl⟩ := exists_getElem?_of_length_eq hlength hi
      exact (hkeep i l r hl hi).2.2
    -- No place is left out and every firmware function is known.
    let G : Ground := ⟨fun _ _ => True, fun _ => True, fun _ => True⟩
    have hN : node.Provides G := fun _ _ _ _ => trivial
    have hready := ((Program.ofLines_ends (P := G.place) node settings trivial
      (readLines_written (fun _ => trivial) hlines)).of_ok hprogram).2
    have hassemble : ∀ r ∈ program.routines, Ends Routine.Labelled
        (fun u => ∃ code, r.code (r.coder node settings program.moduleSize) = .ok code ∧
          code.Shows (Stmt.outlineAll r.body) ∧ u.Patched code)
        (r.assemble node settings program.moduleSize) := fun r hr =>
      Routine.assemble_patched hN (hready r hr) (hlabelled r hr).1 (hlabelled r hr).2
    have hall : Ends Routine.Labelled _ (program.assemble node settings) :=
      Ends.mapM program.routines fun r hr => (hassemble r hr).mono fun _ _ => trivial
    refine ⟨⟨written, laid, allocation, hwritten, hlaid, hlength, fun i r r' hr hr' => ?_⟩, hlabelled,
      fun e he => hall.of_error he, fun units hunits => ?_⟩
    · obtain ⟨hlabels, hgotos, -⟩ := hkeep i r r' hr hr'
      exact ⟨hlabels, hgotos⟩
    · obtain ⟨hcount, hunit⟩ := mapM_eq_ok hunits
      refine ⟨hcount, fun i r u hr hu => ?_⟩
      obtain ⟨code, hcode, hshows, hpatched⟩ :=
        (hassemble r (List.mem_of_getElem? hr)).of_ok (hunit i r u hr hu)
      exact ⟨code, hcode, hshows.labels, hshows.gotos, hpatched⟩

/-- A label of the same name in a block, and a jump in a block that is dropped. -/
theorem gotos_keep_labels_nested :
    ∃ (node : Node) (settings : Settings) (source : Source) (lines : List Line) (program : Program)
      (units : List ObjectCode), readLines settings source = .ok lines ∧
      Program.ofLines node settings lines = .ok program ∧ program.assemble node settings = .ok units ∧
      program.routines.map (·.labels) = [["x@0", "x@1"]] ∧
      program.routines.map (·.gotos) = [["x@1", "x@0"]] ∧
      (∀ r ∈ program.routines, r.labels.Nodup ∧ ∀ name ∈ r.gotos, name ∈ r.labels) ∧
      ∀ (i : Nat) (r : Routine) (u : ObjectCode), program.routines[i]? = some r → units[i]? = some u →
        ∃ code, r.code (r.coder node settings program.moduleSize) = .ok code ∧
          code.labels = r.labels ∧ code.gotos = r.gotos ∧ u.Patched code := by
  let node : Node := ⟨"", 16, [], [], []⟩
  have hunits : (do
      let lines ← readLines ⟨.l2, 1, []⟩
        ⟨"x: \x7b goto x; x: \x7d if (1 > 2) \x7b goto x; \x7d goto x;", none⟩
      let program ← Program.ofLines node ⟨.l2, 1, []⟩ lines
      let units ← program.assemble node ⟨.l2, 1, []⟩
      return (program.routines.map (·.labels), program.routines.map (·.gotos), units.length) :
      Result (List (List String) × List (List String) × Nat)).toOption =
      some ([["x@0", "x@1"]], [["x@1", "x@0"]], 1) := by
    decide +kernel
  obtain ⟨lines, hlines, hunits⟩ := bind_eq_ok.mp (eq_ok_of_toOption hunits)
  obtain ⟨program, hprogram, hunits⟩ := bind_eq_ok.mp hunits
  obtain ⟨units, hunits, hvalues⟩ := bind_eq_ok.mp hunits
  have hvalues := Except.ok.inj hvalues
  obtain ⟨-, hlabelled, -, hpatched⟩ := (gotos_keep_labels hlines).2 program hprogram
  exact ⟨node, _, _, lines, program, units, hlines, hprogram, hunits, congrArg (·.1) hvalues,
    congrArg (·.2.1) hvalues, hlabelled, (hpatched units hunits).2⟩

end RobotScript
