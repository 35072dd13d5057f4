/-
# Notes in drafts

What the note on an element says is so: behind it stands the code that uses the
element of its variable, and the variable can be used so. Drafts are made of
drafts, one behind the other, and closing a loop changes neither a note nor an
instruction, so this holds of the draft of every statement.

Key definitions: `Draft.Noted`, `Draft.Composed`.
Key theorems: `Emits.composed`, `Stmt.Emits.noted`.
-/
import RobotScript.Proofs.Drafts

namespace RobotScript

open Machine (Instr)
open Draft (plain)

namespace Draft

theorem mem_notes {k : Draft} {here p : Nat} {n : Note} :
    (p, n) ∈ k.notes here ↔ ∃ front back : Draft, k = front ++ .note n :: back ∧ p = here + front.size := by
  induction k generalizing here with
  | nil => simp [notes]
  | cons x k ih =>
    cases x with
    | item i =>
      rw [notes, ih]
      constructor
      · rintro ⟨front, back, rfl, rfl⟩
        exact ⟨.item i :: front, back, rfl, by rw [size_item, Nat.add_assoc]⟩
      · rintro ⟨front, back, hk, rfl⟩
        cases front with
        | nil => cases hk
        | cons y front =>
          obtain ⟨rfl, rfl⟩ := List.cons.inj hk
          exact ⟨front, back, rfl, by rw [size_item, Nat.add_assoc]⟩
    | note m =>
      rw [notes, List.mem_cons, ih]
      constructor
      · rintro (heq | ⟨front, back, rfl, rfl⟩)
        · obtain ⟨rfl, rfl⟩ := Prod.mk.inj heq
          exact ⟨[], k, rfl, rfl⟩
        · exact ⟨.note m :: front, back, rfl, rfl⟩
      · rintro ⟨front, back, hk, rfl⟩
        cases front with
        | nil =>
          cases hk
          exact .inl rfl
        | cons y front =>
          obtain ⟨rfl, rfl⟩ := List.cons.inj hk
          exact .inr ⟨front, back, rfl, rfl⟩

/-- Behind the note on an element stands the code that uses it. -/
inductive Noted (c : Coder) : Draft → Prop
  | nil : Noted c []
  | item {k : Draft} (i : Item) (hk : Noted c k) : Noted c (.item i :: k)
  | note {k : Draft} {n : Note} (hn : ∀ s use, n ≠ .element s use) (hk : Noted c k) : Noted c (.note n :: k)
  | element {k : Draft} {s : Storage} {use : Use} (hs : s.Usable c use 0)
    (hback : ∃ post, k = plain (s.back c use) ++ post) (hk : Noted c k) : Noted c (.note (.element s use) :: k)

theorem closeLoop_plain {next stop here : Nat} {is : List Instr} {k l : Draft}
    (h : closeLoop next stop here (plain is ++ k) = some l) : ∃ k', l = plain is ++ k' := by
  induction is generalizing here l with
  | nil => exact ⟨l, rfl⟩
  | cons i is ih =>
    obtain ⟨l', hl', h⟩ := Option.bind_eq_some_iff.mp h
    cases h
    obtain ⟨k', rfl⟩ := ih hl'
    exact ⟨k', rfl⟩

/-- Drafts of expressions are made of instructions, calls and notes, and behind the
note on an element stands the code that uses it. -/
inductive Composed (c : Coder) : Draft → Prop
  | nil : Composed c []
  | append {k l : Draft} (hk : Composed c k) (hl : Composed c l) : Composed c (k ++ l)
  | instr (i : Instr) : Composed c [.item (.instr i)]
  | call (name : String) (span : Span) : Composed c [.item (.call name span)]
  | note {k : Draft} {n : Note} (hn : ∀ s use, n ≠ .element s use) (hk : Composed c k) : Composed c (.note n :: k)
  | element {s : Storage} {use : Use} (hs : s.Usable c use 0) :
    Composed c (.note (.element s use) :: plain (s.back c use))

namespace Composed

variable {c : Coder} {k l : Draft}

theorem instrs : ∀ is : List Instr, Composed c (plain is)
  | [] => .nil
  | i :: is => .append (.instr i) (instrs is)

theorem temps (frame : Option Nat) (base : Nat) (is : List Instr) :
    Composed c (.note (.temps frame base) :: plain is) := .note nofun (.instrs is)

theorem moved {items : List Item} (h : ∀ item ∈ items, Composed c [.item item]) :
    Composed c (Draft.moved items) := by
  induction items with
  | nil => exact .nil
  | cons i items ih =>
    rw [List.forall_mem_cons] at h
    exact .note nofun (h.1.append (ih h.2))

theorem flatMap {ks : Nat → Draft} (js : List Nat) (h : ∀ j ∈ js, Composed c (ks j)) :
    Composed c (js.flatMap ks) := by
  induction js with
  | nil => exact .nil
  | cons j js ih =>
    rw [List.forall_mem_cons] at h
    exact h.1.append (ih h.2)

theorem reachPure (goal : Goal) (hk : Composed c k) : Composed c (Draft.reachPure goal k) := by
  cases goal with
  | value => exact hk
  | effect => exact .nil
  | test => exact hk.append (.instrs _)

theorem reachUsed (goal : Goal) (hk : Composed c k) : Composed c (Draft.reachUsed goal k) := by
  cases goal with
  | test => exact hk.append (.instrs _)
  | _ => exact hk

end Composed

namespace Noted

variable {c : Coder} {k l : Draft}

theorem append (hk : Noted c k) (hl : Noted c l) : Noted c (k ++ l) := by
  induction hk with
  | nil => exact hl
  | item i _ ih => exact .item i ih
  | note hn _ ih => exact .note hn ih
  | element hs hback _ ih =>
    obtain ⟨post, rfl⟩ := hback
    exact .element hs ⟨post ++ l, List.append_assoc ..⟩ ih

theorem instrs (is : List Instr) : Noted c (plain is) := by
  induction is with
  | nil => exact .nil
  | cons i is ih => exact .item (.instr i) ih

/-- The jumps out of a loop are no part of what a note is on. -/
theorem closeLoop {next stop here : Nat} (hk : Noted c k)
    (h : Draft.closeLoop next stop here k = some l) : Noted c l := by
  induction hk generalizing here l with
  | nil =>
    cases h
    exact .nil
  | item i _ ih =>
    obtain ⟨i', -, h⟩ := Option.bind_eq_some_iff.mp h
    obtain ⟨l', hl', h⟩ := Option.bind_eq_some_iff.mp h
    cases h
    exact .item i' (ih hl')
  | note hn _ ih =>
    obtain ⟨l', hl', h⟩ := Option.bind_eq_some_iff.mp h
    cases h
    exact .note hn (ih hl')
  | element hs hback _ ih =>
    obtain ⟨l', hl', h⟩ := Option.bind_eq_some_iff.mp h
    cases h
    obtain ⟨post, rfl⟩ := hback
    exact .element hs (closeLoop_plain hl') (ih hl')

/-- What the note on an element says is so. -/
theorem behind {front back : Draft} {s : Storage} {use : Use}
    (h : Noted c (front ++ .note (.element s use) :: back)) :
    s.Usable c use 0 ∧ ∃ post, back = plain (s.back c use) ++ post := by
  induction front with
  | nil =>
    cases h with
    | note hn _ => exact absurd rfl (hn s use)
    | element hs hback _ => exact ⟨hs, hback⟩
  | cons x front ih =>
    cases h with
    | item _ h | note _ h | element _ _ h => exact ih h

end Noted

theorem Composed.noted {c : Coder} {k : Draft} (h : Composed c k) : Noted c k := by
  induction h with
  | nil => exact .nil
  | append _ _ ih ih' => exact ih.append ih'
  | instr | call => exact .item _ .nil
  | note hn _ ih => exact .note hn ih
  | element hs => exact .element hs ⟨[], by simp⟩ (.instrs _)

end Draft

/-! ### Expressions -/

section

variable {c : Coder}
variable {k : Draft} {t t' : Nat}

theorem Coder.nativeDraft_composed (hk : k.Composed c) (id : Word) (groups free : List Nat) :
    (Coder.nativeDraft id groups free k).Composed c := ((Draft.Composed.instrs _).append hk).append (.instrs _)

theorem OnValues.composed {name : String} {n : Nat} {used : Bool} (h : OnValues c name n used t k t') :
    k.Composed c := by
  cases h with
  | intro _ _ =>
    refine ((Draft.Composed.temps _ _ _).append ?_).append (.instrs _)
    exact Coder.nativeDraft_composed (.instrs _) ..

theorem Fitted.composed {goal : Goal} {l : Draft} (h : Fitted c goal k t l t') (hk : k.Composed c) :
    l.Composed c := by
  cases h with
  | value => exact hk
  | effect _ => exact hk.append (.temps _ _ _)
  | test => exact hk.append (.instrs _)

theorem Combines.composed {b : Machine.Binary} {xTy yTy : Ty} {x y : Draft}
    (h : Combines c b xTy yTy x y t k t') (hx : x.Composed c) (hy : y.Composed c) : k.Composed c := by
  cases h with
  | plainly _ => exact (hx.append hy).append (.instrs _)
  | scaled h hn =>
    refine Draft.Composed.append ?_ hn.composed
    unfold Coder.scaledOperands at h
    split at h <;> cases h
    · exact (hx.append hy).append (.instrs _)
    · exact (hx.append (.instrs _)).append hy
    · exact (hx.append (.instrs _)).append hy

/-- The draft of an expression. -/
theorem Emits.composed {job : Job} (h : Emits c job t k t') : k.Composed c := by
  induction h with
  | number | fixed => exact .reachPure _ (.instrs _)
  | placeholder => exact .reachPure _ .nil
  | unusedVar | noIndex | varPlace | knownPlace | computedPlace | notKept | noValue | none | noArg
  | noAddress => exact .nil
  | known | saved => exact .instrs _
  | var _ _ _ _ ih => exact ih.reachUsed _
  | index _ _ hl ih ih' => exact hl.composed (ih.append ih')
  | call ks ts hlength _ ih =>
    refine .reachUsed _ (.note nofun (.append (.flatMap _ fun j hj => ?_) ?_))
    · rw [List.mem_range] at hj
      exact ih j _ _ (List.getElem?_eq_getElem (hlength ▸ hj)) (List.getElem?_eq_getElem hj)
    · refine ((Draft.Composed.instrs _).append (.moved fun item hitem => ?_)).append (.instrs _)
      rcases List.mem_cons.mp hitem with rfl | hitem
      · exact .call _ _
      · obtain ⟨i, -, rfl⟩ := List.mem_map.mp hitem
        exact .instr i
  | native _ _ hk' ih => exact (ih.append hk'.composed).reachUsed _
  | absolute _ _ hl ih | unary _ _ hl ih | not _ _ hl ih | cast _ hl ih =>
    exact hl.composed (ih.append (.instrs _))
  | comparison _ _ _ ih ih' | valueOf _ _ ih ih' | reference _ _ _ ih ih' | each _ _ ih ih'
  | placeArg _ _ ih ih' | wordsArg _ _ _ ih ih' | placeAddress _ _ ih ih' => exact ih.append ih'
  | binary _ _ _ hl hl' ih ih' => exact hl'.composed (hl.composed ih ih')
  | logic _ _ _ _ hl ih ih' => exact hl.composed (((ih.append (.instrs _)).append (.instrs _)).append ih')
  | notTest _ ih | tempAddress _ ih => exact ih.append (.instrs _)
  | choice _ _ _ _ _ hl ih ih1 ih2 =>
    exact hl.composed ((((ih.append (.instrs _)).append ih1).append (.instrs _)).append ih2)
  | comma _ _ ih ih' => exact (ih.append ih').reachUsed _
  | assign _ _ _ _ ih ih1 ih2 ih3 => exact (ih.append ((ih1.append ih2).append ih3)).reachUsed _
  | post _ _ _ _ _ _ ih ih1 ih2 ih3 ih4 | update _ _ _ _ _ _ _ ih ih1 ih2 ih3 ih4 =>
    exact (ih.append (((ih1.append ih2).append ih3).append ih4)).reachUsed _
  | indexOf _ _ ih ih' => exact (ih.append (.instrs _)).append ih'
  | savedPlace _ _ _ _ ih => exact ih.append (.temps _ _ _)
  | direct _ _ => exact .note nofun (.instrs _)
  | indexed _ hs _ ih =>
    exact ((Draft.Composed.instrs _).append ih).append (.element hs)
  | computed _ ih | kept _ ih | argument _ _ ih | arrayWords _ ih | varWords _ _ _ ih | word _ ih => exact ih

/-! ### Statements -/

theorem Popped.composed {args : List Passed} {found : List Found} (h : Popped c args t k found t') :
    k.Composed c := by
  induction h with
  | nil => exact .nil
  | place _ ih => exact ih
  | words _ _ ih => exact ih.append (.temps _ _ _)

theorem Tests.composed {cond : Option Expr} (h : Tests c cond t k t') : k.Composed c := by
  cases h with
  | none => exact .nil
  | some hk => exact hk.composed

theorem Branches.composed {op : Option Machine.Binary} {distance : Nat} (h : Branches op distance k) :
    k.Composed c := by
  cases h with
  | none => exact .nil
  | some => exact .instrs _

theorem Advances.composed {step : Option Expr} (h : Advances c step t k t') : k.Composed c := by
  cases h with
  | none => exact .nil
  | some hk => exact hk.composed

theorem CaseTests.composed {ss : List Stmt} {ks : List Draft} (h : CaseTests c ss t ks t')
    (branches : List Instr) : (Draft.joinTests ks branches).Composed c := by
  induction h generalizing branches with
  | nil => exact .nil
  | other _ _ ih => exact ih branches
  | case hk _ ih =>
    cases branches with
    | nil => exact .nil
    | cons i branches =>
      exact (((Draft.Composed.instrs _).append hk.composed).append (.instrs _)).append (ih branches)

theorem Sends.composed {value : Option Expr} {addr : Nat} (h : Sends c value t k addr t') : k.Composed c := by
  cases h with
  | nothing | inPlace => exact .nil
  | words hk _ => exact hk.composed.append (.temps _ _ _)

/-- What the notes on elements in the draft of a statement say is so. -/
theorem Stmt.Emits.noted {job : Stmt.Job} (h : Stmt.Emits c job t k t') : k.Noted c := by
  induction h with
  | @stmt _ s _ _ _ _ ih =>
    split
    · exact .item _ ih
    · exact ih
  | nothing | noArm | nil | noCase => exact .nil
  | expr hk => exact hk.composed.noted
  | branch _ ih | block _ ih | otherwise _ ih | case _ _ ih | lateCase _ ih | default _ ih => exact ih
  | whenever hk _ _ ih => exact (hk.composed.noted.append (.instrs _)).append ih
  | whileLoop hk _ hb _ hl ih =>
    exact (((hk.composed.noted.append hb.composed.noted).append ih).append (.instrs _)).closeLoop hl
  | doWhile _ hk' _ hl ih =>
    exact (((ih.append hk'.composed.noted).append (.instrs _)).append (.instrs _)).closeLoop hl
  | rangeFor _ hk hk1 hk2 hk3 hk4 _ hk6 hk7 hb _ hl ih =>
    have hround := ((hk3.composed.noted.append hk4.composed.noted).append hb.composed.noted).append ih
    have hstep (n : Cell) :=
      (hk6.composed.noted.append (.instrs [.immediate n, .binary .add])).append hk7.composed.noted
    exact ((hk.composed.noted.append hk1.composed.noted).append hk2.composed.noted).append
      (((hround.append (hstep _)).append (.instrs _)).closeLoop hl)
  | forLoop _ hk1 _ hk3 hb _ hl ih ih2 =>
    have hround := ((hk1.composed.noted.append hb.composed.noted).append ih2).append hk3.composed.noted
    exact ih.append ((hround.append (.instrs _)).closeLoop hl)
  | switch hk hks _ _ hl ih =>
    have htests (branches : List Instr) :=
      (hk.composed.noted.append (.instrs [.store c.returnSlot])).append (hks.composed branches).noted
    exact (((htests _).append (.instrs _)).append ih).closeLoop hl
  | label | goto | exit | callSub => exact .item _ .nil
  | native hk hk1 _ hk2 =>
    exact ((hk.composed.append hk1.composed).append (Coder.nativeDraft_composed hk2.composed ..)).noted
  | emit _ hk => exact hk.composed.noted.append (.instrs _)
  | ret => exact .instrs _
  | retValue hk => exact hk.composed.noted.append (.instrs _)
  | arm hk _ _ _ _ ih ih2 =>
    exact (((hk.composed.noted.append (.instrs _)).append ih).append (.instrs _)).append ih2
  | cons _ _ ih ih' | among _ _ _ ih ih' => exact ih.append ih'

end
end RobotScript
