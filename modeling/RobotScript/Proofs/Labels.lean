/-
# Laying out labels

Labels are declared ahead of the statements of their block, in its scope, and
a jump looks for its label from the innermost scope outwards, up to the scope
of its routine. So each label of a laid out routine has the number of the block
it stands in, and each jump that of the innermost block around it which has a
label of its name.

Key definitions: `Stmt.outline`, `Stmt.Formed`, `Laying.Marks`, `Laying.Opens`.
Key theorems: `Stmt.layAll_marks`, `Routine.layAll_traced`.
-/
import RobotScript.Proofs.MemoryUse
import RobotScript.Proofs.Outline
import RobotScript.Proofs.Pairing

namespace RobotScript

open Laying (Quietly Quiet)
open Outline (Mangles Tags)

/-! ### The outline of statements -/

mutual

/-- The labels, jumps and blocks of a statement. The body of a `for` loop is a
block in that of its head. -/
def Stmt.outline : Stmt → Outline
  | .label _ name => .label name .done
  | .goto _ name => .goto name .done
  | .branch _ arms => arms.outline
  | .whenever _ _ body | .whileLoop _ _ _ body | .doWhile _ _ body _ | .rangeFor _ _ _ _ _ _ body
  | .switch _ _ _ body | .block _ body => .block (Stmt.outlineAll body) .done
  | .forLoop _ _ init _ _ body =>
    .block (Stmt.outlineAll init ++ .block (Stmt.outlineAll body) .done) .done
  | .varDecl _ _ | .constDecl _ _ _ | .expr _ _ | .case _ _ | .default _ | .exit _ _ _
  | .native _ _ _ | .callSub _ _ | .emit _ _ _ | .ret _ _ | .empty _ => .done

def Arms.outline : Arms → Outline
  | .done => .done
  | .otherwise body => .block (Stmt.outlineAll body) .done
  | .arm _ _ body rest => .block (Stmt.outlineAll body) rest.outline

def Stmt.outlineAll : List Stmt → Outline
  | [] => .done
  | s :: ss => s.outline ++ Stmt.outlineAll ss

end

/-- The arms of an `if` are blocks. -/
theorem Arms.direct_outline (arms : Arms) : arms.outline.direct = [] := by
  cases arms with
  | done => rfl
  | otherwise _ => rfl
  | arm _ _ _ rest => exact rest.direct_outline

namespace Stmt

theorem outlineAll_append (ss ts : List Stmt) : outlineAll (ss ++ ts) = outlineAll ss ++ outlineAll ts := by
  induction ss with
  | nil => rfl
  | cons s ss ih => rw [List.cons_append, outlineAll, outlineAll, ih, Outline.append_assoc]

theorem outlineAll_single (s : Stmt) : outlineAll [s] = s.outline := Outline.append_done _

end Stmt

/-! ### The forms of the languages -/

mutual

/-- A statement is made of parts that the language has. -/
def Stmt.Formed (language : Language) : Stmt → Prop
  | .branch _ arms => arms.Formed language
  | .whenever _ _ body | .whileLoop _ _ _ body | .doWhile _ _ body _ | .rangeFor _ _ _ _ _ _ body
  | .switch _ _ _ body | .block _ body => Stmt.AllFormed language body
  | .forLoop _ _ init _ _ body => init.all (·.isInit) = true ∧ Stmt.AllFormed language body
  | .label _ _ | .goto _ _ => language = .l2
  | .callSub _ _ => language = .simple
  | .varDecl _ _ | .constDecl _ _ _ | .expr _ _ | .case _ _ | .default _ | .exit _ _ _
  | .native _ _ _ | .emit _ _ _ | .ret _ _ | .empty _ => True

def Arms.Formed (language : Language) : Arms → Prop
  | .done => True
  | .otherwise body => Stmt.AllFormed language body
  | .arm _ _ body rest => Stmt.AllFormed language body ∧ rest.Formed language

def Stmt.AllFormed (language : Language) : List Stmt → Prop
  | [] => True
  | s :: ss => s.Formed language ∧ Stmt.AllFormed language ss

end

section Formed

variable {language : Language}

theorem Arms.formed_ofList : ∀ {arms : List (Span × Expr × List Stmt)} {final : Option (List Stmt)},
    (∀ arm ∈ arms, Stmt.AllFormed language arm.2.2) →
    (∀ body, final = some body → Stmt.AllFormed language body) →
    (Arms.ofList arms final).Formed language
  | [], none, _, _ => trivial
  | [], some body, _, hfinal => hfinal body rfl
  | (_, _, _) :: _, _, harms, hfinal =>
    ⟨harms _ List.mem_cons_self,
      formed_ofList (fun arm harm => harms arm (List.mem_cons_of_mem _ harm)) hfinal⟩

namespace Stmt

theorem AllFormed.append : ∀ {ss ts : List Stmt}, AllFormed language ss → AllFormed language ts →
    AllFormed language (ss ++ ts)
  | [], _, _, hts => hts
  | _ :: _, _, hss, hts => ⟨hss.1, hss.2.append hts⟩

theorem AllFormed.single {s : Stmt} (h : s.Formed language) : AllFormed language [s] := ⟨h, trivial⟩

theorem formed_of_standsIn {s : Stmt} (h : s.standsIn language = true) : s.Formed language := by
  cases s with
  | label span name => simpa [standsIn, Formed] using h
  | goto span name => simpa [standsIn, Formed] using h
  | callSub span name => simpa [standsIn, Formed] using h
  | varDecl | constDecl | expr | case | default | exit | native | emit | ret | empty => trivial
  | _ => cases h

theorem formed_of_closed {opener : Opener} {span : Span} {label : Option String} {body : List Stmt} {s : Stmt}
    (hopener : opener.standsIn language = true) (hclosed : opener.closed span label body = some s)
    (hbody : AllFormed language body) : s.Formed language := by
  cases opener with
  | forLoop init cond step =>
    cases hclosed
    rw [Opener.standsIn, Bool.and_eq_true] at hopener
    exact ⟨hopener.2, hbody⟩
  | whenever | whileLoop | rangeFor | switch | block =>
    cases hclosed
    exact hbody
  | _ => cases hclosed

end Stmt

mutual

/-- Lines that the language has make statements that it has. -/
theorem Stmt.Flat.formed {marks : Bool} {label : Option String} {s : Stmt} {ls : List Line} :
    Stmt.Flat marks label s ls → (∀ l ∈ ls, l.standsIn language = true) → s.Formed language
  | .whole _ _, hls => Stmt.formed_of_standsIn (hls _ List.mem_cons_self)
  | .block opener _ _ hclosed hbody, hls => by
    obtain ⟨hinner, -⟩ := List.forall_mem_append.mp hls
    obtain ⟨hopener, hinner⟩ := List.forall_mem_cons.mp hinner
    exact Stmt.formed_of_closed hopener hclosed (hbody.formed hinner)
  | .doWhile _ _ _ hbody, hls => by
    obtain ⟨hinner, -⟩ := List.forall_mem_append.mp hls
    exact hbody.formed (List.forall_mem_cons.mp hinner).2
  | .branch _ harms, hls => by
    obtain ⟨hinner, -⟩ := List.forall_mem_append.mp hls
    exact Arms.formed_ofList (harms.formed hinner) nofun
  | .branchElse _ _ harms hbody, hls => by
    obtain ⟨hinner, -⟩ := List.forall_mem_append.mp hls
    obtain ⟨hfirst, hsecond⟩ := List.forall_mem_append.mp hinner
    refine Arms.formed_ofList (harms.formed hfirst) ?_
    rintro body ⟨⟩
    exact hbody.formed (List.forall_mem_cons.mp hsecond).2

theorem Stmt.AllFlat.formed {marks : Bool} {ss : List Stmt} {ls : List Line} :
    Stmt.AllFlat marks ss ls → (∀ l ∈ ls, l.standsIn language = true) → Stmt.AllFormed language ss
  | .nil, _ => trivial
  | .snoc hss ht, hls => by
    obtain ⟨hfirst, hlast⟩ := List.forall_mem_append.mp hls
    exact (hss.formed hfirst).append (.single (ht.formed hlast))

theorem Arms.Flat.formed {span : Span} {arms : List (Span × Expr × List Stmt)}
    {last : Span × Expr × List Stmt} {ls : List Line} :
    Arms.Flat span arms last ls → (∀ l ∈ ls, l.standsIn language = true) →
    ∀ arm ∈ arms ++ [last], Stmt.AllFormed language arm.2.2
  | .first _ hbody, hls => by
    intro arm harm
    cases List.mem_singleton.mp harm
    exact hbody.formed (List.forall_mem_cons.mp hls).2
  | .next _ _ harms hbody, hls => by
    obtain ⟨hfirst, hsecond⟩ := List.forall_mem_append.mp hls
    intro arm harm
    rcases List.mem_append.mp harm with harm | harm
    · exact harms.formed hfirst arm harm
    · cases List.mem_singleton.mp harm
      exact hbody.formed (List.forall_mem_cons.mp hsecond).2

end

variable {ls : List Line} {rs : List Routine}

theorem Routine.Sections.formed {r : Routine} (h : Routine.Sections rs r ls)
    (hls : ∀ l ∈ ls, l.standsIn language = true) : ∀ q ∈ rs ++ [r], Stmt.AllFormed language q.body := by
  induction h with
  | init hbody =>
    intro q hq
    cases List.mem_singleton.mp hq
    exact hbody.formed hls
  | header _ _ _ hbody ih =>
    obtain ⟨hfirst, hsecond⟩ := List.forall_mem_append.mp hls
    intro q hq
    rcases List.mem_append.mp hq with hq | hq
    · exact ih hfirst q hq
    · cases List.mem_singleton.mp hq
      exact hbody.formed (List.forall_mem_cons.mp hsecond).2

theorem Routine.Interleaved.formed {body : List Stmt} (h : Routine.Interleaved body rs ls)
    (hls : ∀ l ∈ ls, l.standsIn language = true) :
    Stmt.AllFormed language body ∧ ∀ q ∈ rs, Stmt.AllFormed language q.body := by
  induction h with
  | nil => exact ⟨trivial, nofun⟩
  | stmt _ ht ih =>
    obtain ⟨hfirst, hlast⟩ := List.forall_mem_append.mp hls
    exact ⟨(ih hfirst).1.append (.single (ht.formed hlast)), (ih hfirst).2⟩
  | routine _ _ _ _ _ hbody ih =>
    obtain ⟨hinner, -⟩ := List.forall_mem_append.mp hls
    obtain ⟨hfirst, hsecond⟩ := List.forall_mem_append.mp hinner
    refine ⟨(ih hfirst).1, fun q hq => ?_⟩
    rcases List.mem_append.mp hq with hq | hq
    · exact (ih hfirst).2 q hq
    · cases List.mem_singleton.mp hq
      exact hbody.formed (List.forall_mem_cons.mp hsecond).2

/-- The routines that lines of a language make are made of parts that it has. -/
theorem Routine.AllFlat.formed (h : Routine.AllFlat language rs ls)
    (hls : ∀ l ∈ ls, l.standsIn language = true) : ∀ r ∈ rs, Stmt.AllFormed language r.body := by
  cases language with
  | simple =>
    obtain ⟨rs', r', rfl, hrs⟩ := h
    exact hrs.formed hls
  | l2 =>
    obtain ⟨body, rs', rfl, hrs⟩ := h
    exact List.forall_mem_cons.mpr (hrs.formed hls)

end Formed

/-! ### The simple language has no labels -/

/-- The first part of the head of a `for` loop has no labels. -/
theorem Stmt.outlineAll_init : ∀ {init : List Stmt}, init.all (·.isInit) = true →
    outlineAll init = .done
  | [], _ => rfl
  | s :: ss, h => by
    rw [List.all_cons, Bool.and_eq_true] at h
    have hs : s.outline = .done := by
      cases s with
      | varDecl | expr => rfl
      | _ => cases h.1
    rw [outlineAll, hs, outlineAll_init h.2]
    rfl

mutual

theorem Stmt.bare_outline : ∀ {s : Stmt}, s.Formed .simple → s.outline.Bare
  | .branch _ _, h => Arms.bare_outline h
  | .whenever _ _ _, h | .whileLoop _ _ _ _, h | .doWhile _ _ _ _, h | .rangeFor _ _ _ _ _ _ _, h
  | .switch _ _ _ _, h | .block _ _, h => .block (Stmt.bare_outlineAll h) ⟨rfl, rfl⟩
  | .forLoop _ _ _ _ _ _, h => by
    rw [Stmt.outline, Stmt.outlineAll_init h.1]
    exact .block (.block (Stmt.bare_outlineAll h.2) ⟨rfl, rfl⟩) ⟨rfl, rfl⟩
  | .label _ _, h | .goto _ _, h => nomatch h
  | .varDecl _ _, _ | .constDecl _ _ _, _ | .expr _ _, _ | .case _ _, _ | .default _, _
  | .exit _ _ _, _ | .native _ _ _, _ | .callSub _ _, _ | .emit _ _ _, _ | .ret _ _, _
  | .empty _, _ => ⟨rfl, rfl⟩

theorem Arms.bare_outline : ∀ {arms : Arms}, arms.Formed .simple → arms.outline.Bare
  | .done, _ => ⟨rfl, rfl⟩
  | .otherwise _, h => .block (Stmt.bare_outlineAll h) ⟨rfl, rfl⟩
  | .arm _ _ _ _, h => .block (Stmt.bare_outlineAll h.1) (Arms.bare_outline h.2)

theorem Stmt.bare_outlineAll : ∀ {ss : List Stmt}, Stmt.AllFormed .simple ss →
    (Stmt.outlineAll ss).Bare
  | [], _ => ⟨rfl, rfl⟩
  | _ :: _, h => (Stmt.bare_outline h.1).append (Stmt.bare_outlineAll h.2)

end

/-! ### Scopes of labels -/

/-- The tags of the scopes whose labels jumps of a routine can mean; a routine
with a scope of its own does not see the outermost one. -/
def Outline.Tags.visible (own : Bool) (tags : Tags) : Tags := if own then tags.dropLast else tags

theorem Outline.Tags.visible_cons (own : Bool) (tag : Nat × List String) {tags : Tags}
    (h : tags ≠ []) : Tags.visible own (tag :: tags) = tag :: Tags.visible own tags := by
  unfold visible
  by_cases hown : own = true
  · rw [if_pos hown, if_pos hown, List.dropLast_cons_of_ne_nil h]
  · rw [if_neg hown, if_neg hown]

namespace Layout

/-- The numbers and labels of the open scopes. -/
def tags (l : Layout) : Tags := l.scopes.map fun s => (s.id, s.labels)

/-- All of a layout that labels depend on. -/
def marks (l : Layout) : Tags × Nat := (l.tags, l.nextId)

theorem tags_pushScope (l : Layout) : l.pushScope.tags = (l.nextId, []) :: l.tags := rfl

theorem declare_marks (name : String) (binding : Binding) (span : Span) :
    Quiet marks (declare name binding span) := by
  refine declare_quiet name binding span fun l s ss names hscopes => ?_
  simp [marks, tags, hscopes]

theorem reserve_marks (node : Node) (size : Nat) (span : Span) : Quiet marks (reserve node size span) := by
  intro m
  refine Yields.get.bind fun l hl => ?_
  split
  · rename_i f _
    have hframe : Quiet marks (reserveFrame f size) := fun _ =>
      Yields.bind (Yields.modify fun _ h => h) fun _ _ => .pure trivial
    exact (hframe m).bind fun _ _ => .pure trivial
  · split
    · exact Quietly.lift m
    · exact Yields.bind (.set hl) fun _ _ => .pure trivial

/-- A name means the label of the innermost scope that has it. -/
theorem labelName_run (own : Bool) (name : String) (span : Span) (l : Layout) :
    labelName own name span l =
      (match (if own then l.scopes.dropLast else l.scopes).find? (·.labels.contains name) with
        | some s => pure (mangle name s.id)
        | none => liftM (semantic (.unknownLabel name) span) : Laying String) l := rfl

theorem labelName_eq_ok {own : Bool} {name x : String} {span : Span} {l l' : Layout}
    (h : labelName own name span l = .ok (x, l')) :
    l' = l ∧ ∃ tag, (Tags.visible own l.tags).find? name = some tag ∧ x = mangle name tag.1 := by
  have hvisible : Tags.visible own l.tags =
      (if own then l.scopes.dropLast else l.scopes).map fun s => (s.id, s.labels) := by
    unfold Tags.visible tags
    by_cases hown : own = true
    · rw [if_pos hown, if_pos hown, List.map_dropLast]
    · rw [if_neg hown, if_neg hown]
  rw [labelName_run] at h
  rw [hvisible, Tags.find?, List.find?_map]
  cases hfound : (if own then l.scopes.dropLast else l.scopes).find? (·.labels.contains name) with
  | some s =>
    rw [hfound] at h
    cases h
    exact ⟨rfl, (s.id, s.labels), congrArg _ hfound, rfl⟩
  | none =>
    rw [hfound] at h
    cases h

/-- A label is new in its scope. -/
theorem declareLabel_run (name : String) (span : Span) (l : Layout) :
    declareLabel name span l = (match l.scopes with
      | [] => pure ()
      | scope :: scopes =>
        if scope.labels.contains name then liftM (semantic (.duplicateLabel name) span)
        else set { l with scopes := { scope with labels := name :: scope.labels } :: scopes } :
      Laying Unit) l := rfl

theorem declareLabel_eq_ok {name : String} {span : Span} {l l' : Layout} {u : Unit} {k : Nat}
    {names : List String} {tags : Tags} (h : declareLabel name span l = .ok (u, l'))
    (htags : l.tags = (k, names) :: tags) :
    name ∉ names ∧ l'.tags = (k, name :: names) :: tags ∧ l'.nextId = l.nextId := by
  rw [declareLabel_run] at h
  cases hscopes : l.scopes with
  | nil =>
    rw [Layout.tags, hscopes] at htags
    cases htags
  | cons scope scopes =>
    rw [Layout.tags, hscopes, List.map_cons, List.cons.injEq, Prod.mk.injEq] at htags
    obtain ⟨⟨hid, hlabels⟩, hrest⟩ := htags
    simp only [hscopes, hlabels] at h
    by_cases hold : names.contains name = true
    · rw [if_pos hold] at h
      cases h
    · rw [if_neg hold] at h
      cases h
      refine ⟨fun hmem => hold (List.contains_iff_mem.mpr hmem), ?_, rfl⟩
      rw [Layout.tags, List.map_cons, hid, hrest]

end Layout

open Layout

/-- The labels of statements are declared ahead of them, each once. -/
theorem declareLabels_eq_ok : ∀ {ss : List Stmt} {l l' : Layout} {u : Unit} {k : Nat}
    {names : List String} {tags : Tags}, declareLabels ss l = .ok (u, l') →
    l.tags = (k, names) :: tags → names.Nodup →
    l'.tags = (k, (Stmt.outlineAll ss).direct.reverse ++ names) :: tags ∧ l'.nextId = l.nextId ∧
      ((Stmt.outlineAll ss).direct.reverse ++ names).Nodup
  | [], l, _, _, _, _, _, h, htags, hnodup => by
    cases h
    exact ⟨htags, rfl, hnodup⟩
  | s :: ss, l, l', u, k, names, tags, h, htags, hnodup => by
    rw [Stmt.outlineAll, Outline.direct_append]
    have hother : s.outline.direct = [] → declareLabels ss l = .ok (u, l') →
        l'.tags = (k, (s.outline.direct ++ (Stmt.outlineAll ss).direct).reverse ++ names) :: tags ∧
          l'.nextId = l.nextId ∧
          ((s.outline.direct ++ (Stmt.outlineAll ss).direct).reverse ++ names).Nodup := by
      intro hdirect hss
      rw [hdirect, List.nil_append]
      exact declareLabels_eq_ok hss htags hnodup
    cases s with
    | label span name =>
      obtain ⟨⟨_, l₁⟩, hdeclare, hss⟩ := bind_eq_ok.mp h
      obtain ⟨hnew, htags1, hid1⟩ := declareLabel_eq_ok hdeclare htags
      obtain ⟨htags', hid', hnodup'⟩ :=
        declareLabels_eq_ok hss htags1 (List.nodup_cons.mpr ⟨hnew, hnodup⟩)
      simp only [Stmt.outline, Outline.direct, List.singleton_append, List.reverse_cons,
        List.append_assoc]
      exact ⟨htags', hid'.trans hid1, hnodup'⟩
    | branch span arms => exact hother arms.direct_outline h
    | _ => exact hother rfl h

/-- Without labels nothing changes. -/
theorem declareLabels_of_none : ∀ {ss : List Stmt} {l l' : Layout} {u : Unit},
    (Stmt.outlineAll ss).direct = [] → declareLabels ss l = .ok (u, l') → l' = l
  | [], _, _, _, _, h => by
    cases h
    rfl
  | s :: ss, _, _, _, hdirect, h => by
    rw [Stmt.outlineAll, Outline.direct_append, List.append_eq_nil_iff] at hdirect
    cases s with
    | label span name => cases hdirect.1
    | _ => exact declareLabels_of_none hdirect.2 h

namespace Laying

variable {α β : Type} {s : Surroundings} {x : Laying α} {o : Outline} {outline : α → Outline}

/-- The step lays out what has the given outline, and keeps the scopes. -/
def Marks (s : Surroundings) (o : Outline) (outline : α → Outline) (x : Laying α) : Prop :=
  ∀ l a l', x l = .ok (a, l') → l.tags ≠ [] → l'.tags = l.tags ∧
    Mangles s.blockScoping (Tags.visible s.ownScope l.tags) l.nextId o (outline a) l'.nextId

/-- The step lays out what has the given outline, and declares its labels in an
innermost scope that has none before. -/
def Opens (s : Surroundings) (o : Outline) (outline : α → Outline) (x : Laying α) : Prop :=
  ∀ l a l' k tags, x l = .ok (a, l') → l.tags = (k, []) :: tags → ∃ names,
    l'.tags = (k, names) :: tags ∧ o.direct.Nodup ∧ (∀ name, name ∈ names ↔ name ∈ o.direct) ∧
      Mangles s.blockScoping (Tags.visible s.ownScope ((k, names) :: tags)) l.nextId o (outline a)
        l'.nextId

namespace Marks

theorem of_quietly (h : Quietly marks (fun a => outline a = .done) x) : Marks s .done outline x := by
  intro l a l' hrun _
  obtain ⟨hnone, hmarks⟩ := h.run hrun
  rw [marks, marks, Prod.mk.injEq] at hmarks
  rw [hnone, hmarks.2]
  exact ⟨hmarks.1, .done⟩

theorem plain {t : Stmt} (h : t.outline = .done) : Marks s .done Stmt.outlineAll (pure [t]) :=
  of_quietly (.pure ((Stmt.outlineAll_single t).trans h))

theorem after {y : Laying β} {f : β → Laying α} (hy : Quiet marks y)
    (hf : ∀ b, Marks s o outline (f b)) : Marks s o outline (y >>= f) := by
  intro l a l' hrun hne
  obtain ⟨⟨b, l₁⟩, hb, hrest⟩ := bind_eq_ok.mp hrun
  obtain ⟨-, hmarks⟩ := Quietly.run hy hb
  rw [marks, marks, Prod.mk.injEq] at hmarks
  rw [← hmarks.1] at hne ⊢
  rw [← hmarks.2]
  exact hf b l₁ a l' hrest hne

/-- What follows neither changes the outline nor the scopes. -/
theorem bind {f : α → Laying β} {outline' : β → Outline} (h : Marks s o outline x)
    (hf : ∀ a, Quietly marks (fun b => outline' b = outline a) (f a)) : Marks s o outline' (x >>= f) := by
  intro l b l' hrun hne
  obtain ⟨⟨a, l₁⟩, ha, hrest⟩ := bind_eq_ok.mp hrun
  obtain ⟨htags, hmangles⟩ := h l a l₁ ha hne
  obtain ⟨hout, hmarks⟩ := (hf a).run hrest
  rw [marks, marks, Prod.mk.injEq] at hmarks
  rw [hout, hmarks.1, hmarks.2]
  exact ⟨htags, hmangles⟩

/-- What two steps lay out stands one behind the other. -/
theorem seq {γ : Type} {p : Outline} {outline' : β → Outline} {whole : γ → Outline} {f : α → Laying β}
    {g : α → β → γ} (hx : Marks s o outline x) (hf : ∀ a, Marks s p outline' (f a))
    (hg : ∀ a b, whole (g a b) = outline a ++ outline' b) :
    Marks s (o ++ p) whole (do let a ← x; let b ← f a; return g a b) := by
  intro l c l' hrun hne
  obtain ⟨⟨a, l₁⟩, ha, hrun⟩ := bind_eq_ok.mp hrun
  obtain ⟨⟨b, l₂⟩, hb, hrun⟩ := bind_eq_ok.mp hrun
  cases hrun
  obtain ⟨htags, hmangles⟩ := hx l a l₁ ha hne
  obtain ⟨htags', hmangles'⟩ := hf a l₁ b l' hb (htags ▸ hne)
  rw [htags] at htags' hmangles'
  rw [hg]
  exact ⟨htags', hmangles.append hmangles'⟩

/-- Without labels of its own, what is laid out leaves a scope without labels. -/
theorem opens (h : Marks s o outline x) (hdirect : o.direct = []) : Opens s o outline x := by
  intro l a l' k tags hrun htags
  have hne : l.tags ≠ [] := by
    rw [htags]
    exact List.cons_ne_nil _ _
  obtain ⟨hkeep, hmangles⟩ := h l a l' hrun hne
  rw [htags] at hkeep hmangles
  rw [hdirect]
  exact ⟨[], hkeep, List.nodup_nil, fun _ => Iff.rfl, hmangles⟩

/-- Labels are declared ahead of the statements. -/
theorem opens_labels {body : List Stmt} (h : Marks s (Stmt.outlineAll body) outline x) :
    Opens s (Stmt.outlineAll body) outline (do declareLabels body; x) := by
  intro l a l' k tags hrun htags
  obtain ⟨⟨_, l₁⟩, hdeclare, hx⟩ := bind_eq_ok.mp hrun
  obtain ⟨htags1, hid, hnodup⟩ := declareLabels_eq_ok hdeclare htags List.nodup_nil
  rw [List.append_nil] at htags1 hnodup
  have hne : l₁.tags ≠ [] := by
    rw [htags1]
    exact List.cons_ne_nil _ _
  obtain ⟨hkeep, hmangles⟩ := h l₁ a l' hx hne
  rw [htags1] at hkeep hmangles
  rw [hid] at hmangles
  exact ⟨_, hkeep, (List.reverse_perm _).nodup_iff.mp hnodup, fun _ => List.mem_reverse, hmangles⟩

/-- Where there are no labels, none are declared. -/
theorem after_labels {body : List Stmt} (h : Marks s o outline x)
    (hdirect : (Stmt.outlineAll body).direct = []) : Marks s o outline (do declareLabels body; x) := by
  intro l a l' hrun hne
  obtain ⟨⟨_, l₁⟩, hdeclare, hx⟩ := bind_eq_ok.mp hrun
  obtain rfl := declareLabels_of_none hdirect hdeclare
  exact h l₁ a l' hx hne

end Marks

/-- What is laid out in a block has the number of a scope of its own, if blocks
open scopes. -/
theorem Opens.closes (h : Opens s o outline x) (hinline : s.blockScoping = false → Marks s o outline x)
    {l l₁ : Layout} {a : α}
    (hx : x (if s.blockScoping then l.pushScope else l) = .ok (a, l₁)) (hne : l.tags ≠ []) :
    (closeTo l s.blockScoping l₁).tags = l.tags ∧
      Mangles s.blockScoping (Tags.visible s.ownScope l.tags) l.nextId (.block o .done)
        (.block (outline a) .done) (closeTo l s.blockScoping l₁).nextId := by
  by_cases hnested : s.blockScoping = true
  · rw [if_pos hnested] at hx
    obtain ⟨names, -, hnodup, hnames, hmangles⟩ := h l.pushScope a l₁ _ _ hx l.tags_pushScope
    rw [Tags.visible_cons _ _ hne] at hmangles
    refine ⟨?_, .block hnested hnodup hnames hmangles .done⟩
    rw [hnested]
    rfl
  · rw [if_neg hnested] at hx
    rw [Bool.not_eq_true] at hnested
    obtain ⟨htags, hmangles⟩ := hinline hnested l a l₁ hx hne
    refine ⟨?_, .inline hnested hmangles .done⟩
    rw [hnested]
    exact htags

/-- Only in the simple language blocks open no scopes. -/
theorem direct_eq_nil {body : List Stmt} (h : Stmt.AllFormed s.calls.language body)
    (hflat : s.blockScoping = false) : (Stmt.outlineAll body).direct = [] := by
  unfold Surroundings.blockScoping at hflat
  cases hlanguage : s.calls.language with
  | simple =>
    rw [hlanguage] at h
    exact (Stmt.bare_outlineAll h).direct
  | l2 =>
    rw [hlanguage] at hflat
    cases hflat

theorem Marks.block {body : List Stmt} (hbody : Stmt.AllFormed s.calls.language body)
    (h : Marks s (Stmt.outlineAll body) outline x) :
    Marks s (.block (Stmt.outlineAll body) .done) (fun a => .block (outline a) .done)
      (layBlock s body x) := by
  intro l a l' hrun hne
  obtain ⟨l₁, hx, rfl⟩ := enclosed_eq_ok hrun
  exact h.opens_labels.closes (fun hflat => h.after_labels (direct_eq_nil hbody hflat)) hx hne

/-- A label or a jump gets the number of the scope with its label. -/
theorem labelName_marks {t : String → Stmt} {name : String} {span : Span} {o : Outline}
    (h : ∀ (tags : Tags) tag id, tags.find? name = some tag →
      Mangles s.blockScoping tags id o (t (mangle name tag.1)).outline id) :
    Marks s o Stmt.outlineAll (do return [t (← labelName s.ownScope name span)]) := by
  intro l a l' hrun _
  obtain ⟨⟨x, l₁⟩, hname, hrun⟩ := bind_eq_ok.mp hrun
  cases hrun
  obtain ⟨rfl, tag, htag, rfl⟩ := labelName_eq_ok hname
  rw [Stmt.outlineAll_single]
  exact ⟨rfl, h _ tag _ htag⟩

end Laying

open Laying (Marks Opens)

theorem Surroundings.varDecl_marks (s : Surroundings) (span : Span) (d : VarDecl) :
    Marks s .done Stmt.outlineAll (s.varDecl span d) := by
  refine Marks.after (Expr.lay?_quiet d.init) fun init => ?_
  refine Marks.after (dimensions_quiet init span d.dims) fun dims => ?_
  refine Marks.after (reserve_marks _ _ _) fun p => Marks.after (declare_marks _ _ _) fun _ => ?_
  cases init with
  | none => exact .plain rfl
  | some value => exact .of_quietly (.pure rfl)

namespace Stmt

variable {s : Surroundings}

theorem allFormed_of_isInit {language : Language} : ∀ {init : List Stmt},
    init.all (·.isInit) = true → AllFormed language init
  | [], _ => trivial
  | t :: ts, h => by
    rw [List.all_cons, Bool.and_eq_true] at h
    refine ⟨?_, allFormed_of_isInit h.2⟩
    cases t with
    | varDecl | expr => trivial
    | _ => cases h.1

mutual

/-- A statement is laid out with the numbers of scopes in its labels. -/
theorem lay_marks : ∀ {t : Stmt}, t.Formed s.calls.language →
    Marks s t.outline outlineAll (lay s t)
  | .varDecl span d, _ => s.varDecl_marks span d
  | .constDecl _ _ value, _ =>
    .after (Surroundings.constant_quiet _ value) fun _ => .after (declare_marks _ _ _) fun _ =>
      .of_quietly (.pure rfl)
  | .expr _ e, _ => .after e.lay_quiet fun _ => .plain rfl
  | .branch _ _, h => (layArms_marks h).bind fun _ => .pure (outlineAll_single _)
  | .whenever _ cond _, h =>
    .after cond.lay_quiet fun _ => ((layAll_marks h).block h).bind fun _ => .pure rfl
  | .whileLoop _ _ cond _, h =>
    .after (Expr.lay?_quiet cond) fun _ => ((layAll_marks h).block h).bind fun _ => .pure rfl
  | .doWhile _ _ _ cond, h =>
    ((layAll_marks h).block h).bind fun _ => cond.lay_quiet.bind fun _ => .pure rfl
  | .rangeFor _ _ var first last step _, h =>
    .after var.lay_quiet fun _ => .after first.lay_quiet fun _ => .after last.lay_quiet fun _ =>
      .after (Expr.lay?_quiet step) fun _ => ((layAll_marks h).block h).bind fun _ => .pure rfl
  | .forLoop span tag init cond step body, h => by
    intro l ss l' hrun hne
    obtain ⟨l₁, hx, rfl⟩ := Laying.enclosed_eq_ok hrun
    obtain ⟨⟨init', l₂⟩, hinit, hx⟩ := bind_eq_ok.mp hx
    obtain ⟨⟨cond', l3⟩, hcond, hx⟩ := bind_eq_ok.mp hx
    obtain ⟨⟨step', l4⟩, hstep, hx⟩ := bind_eq_ok.mp hx
    obtain ⟨⟨body', l5⟩, hbody, hx⟩ := bind_eq_ok.mp hx
    cases hx
    -- The parts of the loop, before they are put together.
    let parts : Laying (List Stmt × List Stmt) := do
      let init ← layAll s init
      let body ← (do
        let _ ← Expr.lay? cond
        let _ ← Expr.lay? step
        layBlock s body (layAll s body))
      return (init, body)
    have hparts : parts (if s.blockScoping then l.pushScope else l) = .ok ((init', body'), l₁) :=
      bind_eq_ok.mpr ⟨_, hinit, bind_eq_ok.mpr ⟨_, bind_eq_ok.mpr ⟨_, hcond,
        bind_eq_ok.mpr ⟨_, hstep, hbody⟩⟩, rfl⟩⟩
    have hmarks : Marks s (outlineAll init ++ .block (outlineAll body) .done)
        (fun p => outlineAll p.1 ++ .block (outlineAll p.2) .done) parts :=
      (layAll_marks (allFormed_of_isInit h.1)).seq (fun _ => .after (Expr.lay?_quiet cond) fun _ =>
        .after (Expr.lay?_quiet step) fun _ => (layAll_marks h.2).block h.2) fun _ _ => rfl
    have hdirect : (outlineAll init ++ .block (outlineAll body) .done).direct = [] := by
      rw [outlineAll_init h.1]
      rfl
    rw [outlineAll_single]
    exact (hmarks.opens hdirect).closes (fun _ => hmarks) hparts hne
  | .switch _ _ subject _, h =>
    .after subject.lay_quiet fun _ => ((layAll_marks h).block h).bind fun _ => .pure rfl
  | .case _ value, _ => .after value.lay_quiet fun _ => .plain rfl
  | .block _ _, h => ((layAll_marks h).block h).bind fun _ => .pure rfl
  | .label _ _, _ => Laying.labelName_marks fun _ _ _ htag => .label htag .done
  | .goto _ _, _ => Laying.labelName_marks fun _ _ _ htag => .goto htag .done
  | .native _ _ args, _ => .after (Expr.layAll_quiet args) fun _ => .plain rfl
  | .emit _ _ value, _ => .after (Expr.lay?_quiet value) fun _ => .plain rfl
  | .ret _ value, _ => .after .lift fun _ => .after (Expr.lay?_quiet value) fun _ => .plain rfl
  | .default _, _ | .exit _ _ _, _ | .callSub _ _, _ | .empty _, _ => .plain rfl

theorem layArms_marks : ∀ {arms : Arms}, arms.Formed s.calls.language →
    Marks s arms.outline Arms.outline (layArms s arms)
  | .done, _ => .of_quietly (.pure rfl)
  | .otherwise _, h => ((layAll_marks h).block h).bind fun _ => .pure rfl
  | .arm _ cond _ _, h =>
    .after cond.lay_quiet fun _ =>
      ((layAll_marks h.1).block h.1).seq (fun _ => layArms_marks h.2) fun _ _ => rfl

theorem layAll_marks : ∀ {ss : List Stmt}, AllFormed s.calls.language ss →
    Marks s (outlineAll ss) outlineAll (layAll s ss)
  | [], _ => .of_quietly (.pure rfl)
  | _ :: _, h => (lay_marks h.1).seq (fun _ => layAll_marks h.2) outlineAll_append

end

end Stmt

/-! ### Routines -/

/-- Laying out the parameters of a function does not touch labels. -/
theorem Surroundings.params_marks {s : Surroundings} : ∀ ps : List ParamDecl,
    Quiet marks (s.params ps)
  | [] => .pure trivial
  | p :: ps => by
    unfold Surroundings.params
    have hdims : Quiet marks (p.dims.mapM (s.dimension "argument dimension")) :=
      .mapM fun e _ => dimension_quiet _ e
    have hframe : ∀ f : Frame, Quiet marks (reserveFrame f 1) := fun _ _ =>
      Yields.bind (Yields.modify fun _ h => h) fun _ _ => .pure trivial
    refine hdims.bind fun dims => Quietly.get.bind fun l => (hframe _).bind fun offset => ?_
    refine (declare_marks _ _ _).bind fun _ => ?_
    exact (params_marks ps).bind fun _ => .pure trivial

/-- The second statements are the first with their jumps resolved, each to a
label around it. -/
structure Stmt.Traced (ss ts : List Stmt) : Prop where
  resolved : (outlineAll ss).Resolved (outlineAll ts)
  closed : (outlineAll ts).Closed (outlineAll ts).direct

namespace Allocation

open Stmt (Traced)

variable {node : Node} {language : Language} {a a' : Allocation} {r r' : Routine}

/-- The body of a routine is laid out in a scope that has no labels before, and
sees no labels outside of it. -/
theorem layBody_traced {s : Surroundings} {l l' : Layout} {body body' : List Stmt} {k : Nat}
    {tags : Tags} (hformed : Stmt.AllFormed s.calls.language body)
    (hrun : layBody s body l = .ok (body', l')) (htags : l.tags = (k, []) :: tags) (hk : k < l.nextId)
    (hvisible : ∀ names, Tags.visible s.ownScope ((k, names) :: tags) = [(k, names)]) :
    l.nextId ≤ l'.nextId ∧ Traced body body' ∧
      ∃ names, l'.tags = (k, names) :: tags ∧ (s.calls.language = .simple → names = []) := by
  obtain ⟨names, htags', hnodup, hnames, hmangles⟩ :=
    (Stmt.layAll_marks hformed).opens_labels l body' l' k tags hrun htags
  rw [hvisible] at hmangles
  refine ⟨hmangles.le, ?_, names, htags', fun hsimple => ?_⟩
  · cases hlanguage : s.calls.language with
    | simple =>
      rw [hlanguage] at hformed
      have hbare := Stmt.bare_outlineAll hformed
      have hbare' := hmangles.bare hbare
      exact ⟨hbare.resolved hbare', hbare'.closed _⟩
    | l2 =>
      have hnested : s.blockScoping = true := by
        rw [Surroundings.blockScoping, hlanguage]
        rfl
      rw [hnested] at hmangles
      obtain ⟨hresolved, hclosed⟩ := hmangles.resolved hk hnodup hnames
      exact ⟨hresolved, hclosed⟩
  · rw [hsimple] at hformed
    refine List.eq_nil_iff_forall_not_mem.mpr fun name hname => ?_
    rw [hnames, (Stmt.bare_outlineAll hformed).direct] at hname
    cases hname

/-- The outermost scope has the labels of the init code, if that is laid out. -/
structure Rooted (a : Allocation) (names : List String) : Prop where
  tags : a.layout.tags = [(0, names)]
  id : 0 < a.layout.nextId

/-- A routine with a scope of its own does not see the outermost scope. -/
theorem visible_own (k : Nat) (names outer : List String) :
    Tags.visible true [(k, names), (0, outer)] = [(k, names)] := rfl

variable {names : List String}

theorem layFunction_traced {decl : FunctionDecl} (hroot : a.Rooted names)
    (hformed : Stmt.AllFormed language r.body) (h : layFunction node language a r decl = .ok (r', a')) :
    Traced r.body r'.body ∧ a'.Rooted names := by
  unfold layFunction at h
  split at h
  · cases h
  · obtain ⟨⟨params, l₁⟩, hparams, h⟩ := bind_eq_ok.mp h
    obtain ⟨-, hmarks⟩ := (Surroundings.params_marks decl.params).run hparams
    rw [marks, Prod.mk.injEq] at hmarks
    obtain ⟨htags, hid⟩ := hmarks
    have htags1 : l₁.tags = (a.layout.nextId, []) :: [(0, names)] := by
      rw [← hroot.tags]
      exact htags
    have hid1 : l₁.nextId = a.layout.nextId + 1 := hid
    obtain ⟨⟨body, l₂⟩, hbody, h⟩ := bind_eq_ok.mp h
    cases h
    obtain ⟨hle, htraced, -⟩ := layBody_traced hformed hbody htags1 (by omega)
      fun ns => visible_own _ ns names
    refine ⟨htraced, hroot.tags, ?_⟩
    show 0 < l₂.nextId
    omega

theorem layPlain_traced {own : Bool} (hroot : a.Rooted names)
    (hfresh : (own && language.blockScoping) = false → names = []) (hformed : Stmt.AllFormed language r.body)
    (h : layPlain node language a r own = .ok (r', a')) :
    Traced r.body r'.body ∧ ∃ names', a'.Rooted names' ∧ (language = .simple → names = [] → names' = []) := by
  obtain ⟨⟨body, l⟩, hbody, h⟩ := bind_eq_ok.mp h
  dsimp only at h
  by_cases hown : (own && language.blockScoping) = true
  · rw [if_pos hown] at hbody
    rw [if_pos hown] at h
    cases h
    have htags : a.layout.pushScope.tags = (a.layout.nextId, []) :: [(0, names)] := by
      rw [tags_pushScope, hroot.tags]
    obtain ⟨hle, htraced, -⟩ := layBody_traced hformed hbody htags (Nat.lt_succ_self _)
      fun ns => by rw [hown]; exact visible_own _ ns names
    have hid : 0 < l.nextId := Nat.lt_of_lt_of_le (Nat.succ_pos _) hle
    exact ⟨htraced, names, ⟨hroot.tags, hid⟩, fun _ hnames => hnames⟩
  · rw [if_neg hown] at hbody
    rw [if_neg hown] at h
    cases h
    rw [Bool.not_eq_true] at hown
    obtain rfl := hfresh hown
    obtain ⟨hle, htraced, names', htags, hsimple⟩ := layBody_traced hformed hbody hroot.tags hroot.id
      fun ns => by rw [hown]; rfl
    exact ⟨htraced, names', ⟨htags, Nat.lt_of_lt_of_le hroot.id hle⟩, fun hlanguage _ => hsimple hlanguage⟩

/-- Where blocks open scopes, only the init code declares its labels in the
outermost scope. -/
theorem layRoutine_traced (hroot : a.Rooted names) (hfresh : language = .simple ∨ r.kind = .init → names = [])
    (hformed : Stmt.AllFormed language r.body) (h : layRoutine node language a r = .ok (r', a')) :
    Traced r.body r'.body ∧ ∃ names', a'.Rooted names' ∧ (language = .simple → names' = []) := by
  have hplain : ∀ (own : Bool) (b : Allocation), b.Rooted names → (own = false → r.kind = .init) →
      layPlain node language b r own = .ok (r', a') →
      Traced r.body r'.body ∧ ∃ names', a'.Rooted names' ∧ (language = .simple → names' = []) := by
    intro own b hb hown hrun
    have hnone : (own && language.blockScoping) = false → names = [] := by
      intro hclosed
      rcases Bool.and_eq_false_iff.mp hclosed with howned | hflat
      · exact hfresh (.inr (hown howned))
      · refine hfresh (.inl ?_)
        cases language with
        | simple => rfl
        | l2 => cases hflat
    obtain ⟨htraced, names', hroot', hsimple⟩ := layPlain_traced hb hnone hformed hrun
    exact ⟨htraced, names', hroot', fun hlanguage => hsimple hlanguage (hfresh (.inl hlanguage))⟩
  unfold layRoutine at h
  split at h
  · obtain ⟨htraced, hroot'⟩ := layFunction_traced hroot hformed h
    exact ⟨htraced, names, hroot', fun hlanguage => hfresh (.inl hlanguage)⟩
  · rename_i name _
    split at h
    · cases h
    · exact hplain true { a with subs := name :: a.subs } ⟨hroot.tags, hroot.id⟩ nofun h
  · exact hplain true a hroot nofun h
  · exact hplain false a hroot (fun _ => ‹r.kind = .init›) h

/-- Each routine is laid out with its jumps resolved. -/
theorem layAll_traced : ∀ {rs rs' : List Routine} {a : Allocation} {names : List String},
    a.Rooted names → (language = .simple → names = []) →
    (∀ r ∈ rs, r.kind = .init → language = .simple) →
    (∀ r ∈ rs, Stmt.AllFormed language r.body) → layAll node language a rs = .ok (rs', a') →
    rs'.length = rs.length ∧
      ∀ (i : Nat) (r r' : Routine), rs[i]? = some r → rs'[i]? = some r' → Traced r.body r'.body
  | [], _, _, _, _, _, _, _, h => by
    cases h
    exact ⟨rfl, fun _ _ _ hr => by simp at hr⟩
  | r :: rs, _, a, names, hroot, hsimple, hinit, hformed, h => by
    obtain ⟨⟨r', a1⟩, hr, h⟩ := bind_eq_ok.mp h
    obtain ⟨⟨rs', a2⟩, hrs, h⟩ := bind_eq_ok.mp h
    cases h
    have hfresh : language = .simple ∨ r.kind = .init → names = [] :=
      fun hor => hsimple (hor.elim id (hinit r List.mem_cons_self))
    obtain ⟨htraced, names', hroot', hsimple'⟩ :=
      layRoutine_traced hroot hfresh (hformed r List.mem_cons_self) hr
    obtain ⟨hlength, hall⟩ := layAll_traced hroot' hsimple'
      (fun q hq => hinit q (List.mem_cons_of_mem _ hq))
      (fun q hq => hformed q (List.mem_cons_of_mem _ hq)) hrs
    refine ⟨congrArg (· + 1) hlength, fun i q q' hq hq' => ?_⟩
    cases i with
    | zero =>
      cases hq
      cases hq'
      exact htraced
    | succ i => exact hall i q q' hq hq'

end Allocation

namespace Routine

theorem Interleaved.not_init {body : List Stmt} {rs : List Routine} {ls : List Line}
    (h : Interleaved body rs ls) : ∀ r ∈ rs, r.kind ≠ .init := by
  induction h with
  | nil => exact nofun
  | stmt _ _ ih => exact ih
  | routine opener _ _ _ hopener _ ih =>
    intro r hr
    rcases List.mem_append.mp hr with hr | hr
    · exact ih r hr
    · cases List.mem_singleton.mp hr
      rintro rfl
      cases opener with
      | _ => cases hopener

/-- The routines of a script are laid out with their jumps resolved. -/
theorem layAll_traced {node : Node} {language : Language} {written laid : List Routine}
    {lines : List Line} {allocation : Allocation} (hflat : AllFlat language written lines)
    (hstands : ∀ l ∈ lines, l.standsIn language = true)
    (h : layAll node language written = .ok (laid, allocation)) :
    laid.length = written.length ∧ ∀ (i : Nat) (r r' : Routine), written[i]? = some r →
      laid[i]? = some r' → Stmt.Traced r.body r'.body := by
  have hformed := hflat.formed hstands
  have hroot : Allocation.Rooted ⟨.start node, [], []⟩ [] := ⟨rfl, Nat.one_pos⟩
  cases language with
  | simple => exact Allocation.layAll_traced hroot (fun _ => rfl) (fun _ _ _ => rfl) hformed h
  | l2 =>
    obtain ⟨body, rs, rfl, hrs⟩ := hflat
    -- The init code comes first and puts its labels into the outermost scope.
    obtain ⟨⟨r', a⟩, hinit, h⟩ := bind_eq_ok.mp h
    obtain ⟨⟨rs', a'⟩, hrest, h⟩ := bind_eq_ok.mp h
    cases h
    obtain ⟨hbody, hothers⟩ := List.forall_mem_cons.mp hformed
    obtain ⟨htraced, names, hroot', -⟩ :=
      Allocation.layRoutine_traced hroot (fun _ => rfl) hbody hinit
    have hnames : Language.l2 = .simple → names = [] := nofun
    obtain ⟨hlength, hall⟩ := Allocation.layAll_traced hroot' hnames
      (fun r hr hkind => absurd hkind (hrs.not_init r hr)) hothers hrest
    refine ⟨congrArg (· + 1) hlength, fun i r q hr hq => ?_⟩
    cases i with
    | zero =>
      cases hr
      cases hq
      exact htraced
    | succ i => exact hall i r q hr hq

end Routine

end RobotScript
