/-
# The temporaries of a statement

Generating code takes temporaries one stretch after another, downwards from
the end of the variable memory, and gives them back only all at once. `Acts`
follows a step of generating code through its parts down to the two operations
on temporaries and lists those in order. In a step that can be followed that
way, what is taken between two moments at which all temporaries are free lies
behind the variables and is disjoint.

Key definitions: `Stretch`, `Coding.Event`, `Coding.Acts`, `Coding.Told`.
Key theorem: `Coding.Acts.disjoint`.
-/
import RobotScript.Code.Object
import RobotScript.Proofs.Outcome

namespace RobotScript

/-- Words of memory one behind another. -/
structure Stretch where
  base : Nat
  size : Nat
  deriving DecidableEq, Repr

namespace Stretch

/-- The word belongs to the stretch. -/
def Has (a : Stretch) (word : Nat) : Prop := a.base ≤ word ∧ word < a.base + a.size

/-- No word belongs to both stretches. -/
def Apart (a b : Stretch) : Prop := ∀ word, a.Has word → ¬ b.Has word

/-- The stretch lies between two addresses. -/
def Within (a : Stretch) (lo hi : Nat) : Prop := lo ≤ a.base ∧ a.base + a.size ≤ hi

variable {a b : Stretch} {lo hi lo' hi' : Nat}

theorem Apart.symm (h : a.Apart b) : b.Apart a := fun word hb ha => h word ha hb

theorem apart_of_le (h : a.base + a.size ≤ b.base) : a.Apart b := by
  intro word ha hb
  have := ha.2
  have := hb.1
  omega

theorem Within.mono (h : a.Within lo hi) (hlo : lo' ≤ lo) (hhi : hi ≤ hi') : a.Within lo' hi' :=
  ⟨Nat.le_trans hlo h.1, Nat.le_trans h.2 hhi⟩

end Stretch

/-- What happens to the temporaries. -/
inductive Coding.Event where
  /-- All are free again. -/
  | freed
  | taken (stretch : Stretch)
  deriving DecidableEq, Repr

namespace Coding

/-- A step of generating code, followed from a state on: what happens to the
temporaries on the way, the value it gives and the state it ends in. Other
than by the first three rules no step changes which temporaries are taken. -/
inductive Acts (c : Coder) :
    {α : Type} → Coding α → State → List Event → α → State → Prop where
  | temps {n base : Nat} {s s' : State} :
      c.temps n s = .ok (base, s') → Acts c (c.temps n) s [.taken ⟨base, n⟩] base s'
  | freeTemps {s s' : State} : c.freeTemps s = .ok ((), s') → Acts c c.freeTemps s [.freed] () s'
  | begin {s : State} {span : Span} :
      Acts c (MonadStateOf.set (⟨c.tempTop, span⟩ : State) : Coding PUnit) s [.freed] ⟨⟩
        ⟨c.tempTop, span⟩
  | pure {α : Type} {a : α} {s : State} : Acts c (pure a) s [] a s
  | get {s : State} : Acts c MonadState.get s [] s s
  | lift {α : Type} {r : Result α} {a : α} {s : State} :
      r = .ok a → Acts c (liftM r : Coding α) s [] a s
  | placedAt {α : Type} {x : Coding α} {span : Span} {a : α} {s s' : State} {es : List Event} :
      Acts c x s es a s' → Acts c (placedAt span x) s es a s'
  | bind {α β : Type} {x : Coding α} {f : α → Coding β} {a : α} {b : β} {s s' s'' : State}
      {es es' : List Event} :
      Acts c x s es a s' → Acts c (f a) s' es' b s'' → Acts c (x >>= f) s (es ++ es') b s''

/-! ### Downwards from the top -/

/-- The events follow on each other: from the word `next` on temporaries are
taken downwards, each stretch just below the one before, until all are freed. -/
def Descends (c : Coder) : Nat → List Event → Nat → Prop
  | next, [], last => next = last
  | _, .freed :: es, last => Descends c c.tempTop es last
  | next, .taken a :: es, last =>
    a.base + a.size = next ∧ c.moduleSize ≤ a.base ∧ Descends c a.base es last

variable {c : Coder}

theorem Descends.append {es' : List Event} {last : Nat} : ∀ (es : List Event) {next mid : Nat},
    Descends c next es mid → Descends c mid es' last → Descends c next (es ++ es') last
  | [], _, _, h, h' => by
    cases h
    exact h'
  | .freed :: es, _, _, h, h' => append es h h'
  | .taken _ :: es, _, _, h, h' => ⟨h.1, h.2.1, append es h.2.2 h'⟩

theorem Descends.split {es' : List Event} {last : Nat} : ∀ (es : List Event) {next : Nat},
    next ≤ c.tempTop → Descends c next (es ++ es') last →
    ∃ mid, mid ≤ c.tempTop ∧ Descends c mid es' last
  | [], next, hnext, h => ⟨next, hnext, h⟩
  | .freed :: es, _, _, h => split es (Nat.le_refl _) h
  | .taken a :: es, next, hnext, h => by
    have hbase : a.base ≤ c.tempTop := by
      have := h.1
      omega
    exact split es hbase h.2.2

/-- What is taken in a row without anything being freed is disjoint, and lies
between the variables and the end of the temporaries. -/
theorem Descends.disjoint {rest : List Event} {last : Nat} : ∀ {row : List Stretch} {next : Nat},
    Descends c next (row.map .taken ++ rest) last →
    row.Pairwise Stretch.Apart ∧ ∀ a ∈ row, a.Within c.moduleSize next
  | [], _, _ => ⟨.nil, nofun⟩
  | a :: row, next, h => by
    obtain ⟨hnext, hbase, hrow⟩ := h
    obtain ⟨hapart, hwithin⟩ := disjoint hrow
    refine ⟨List.pairwise_cons.mpr ⟨fun b hb => ?_, hapart⟩, ?_⟩
    · exact (Stretch.apart_of_le (hwithin b hb).2).symm
    · intro b hb
      rcases List.mem_cons.mp hb with rfl | hb
      · exact ⟨hbase, Nat.le_of_eq hnext⟩
      · exact (hwithin b hb).mono (Nat.le_refl _) (by omega)

theorem temps_eq_ok {n base : Nat} {s s' : State} (h : c.temps n s = .ok (base, s')) :
    base + n = s.nextTemp ∧ c.moduleSize ≤ base ∧ s'.nextTemp = base := by
  change (if s.nextTemp < c.moduleSize + n then (liftM (semantic .outOfMemory s.span) : Coding Nat)
    else fun _ => .ok (s.nextTemp - n, { s with nextTemp := s.nextTemp - n })) s = _ at h
  split at h
  · cases h
  · rename_i hroom
    cases h
    refine ⟨?_, ?_, rfl⟩
    · omega
    · omega

theorem Acts.descends {α : Type} {x : Coding α} {a : α} {s s' : State} {es : List Event}
    (h : Acts c x s es a s') : Descends c s.nextTemp es s'.nextTemp := by
  induction h with
  | temps h =>
    obtain ⟨hnext, hbase, hlast⟩ := temps_eq_ok h
    exact ⟨hnext, hbase, hlast.symm⟩
  | freeTemps h =>
    cases h
    rfl
  | begin => rfl
  | pure => rfl
  | get => rfl
  | lift => rfl
  | placedAt _ ih => exact ih
  | bind _ _ ih ih' => exact Descends.append _ ih ih'

/-- The temporaries taken between two moments at which all are free. -/
theorem Acts.disjoint {α : Type} {x : Coding α} {a : α} {s s' : State} {es : List Event}
    (h : Acts c x s es a s') (hs : s.nextTemp ≤ c.tempTop) {row : List Stretch}
    (hrow : row.map .taken <:+: es) :
    row.Pairwise Stretch.Apart ∧ ∀ a ∈ row, a.Within c.moduleSize c.tempTop := by
  obtain ⟨before, rest, rfl⟩ := hrow
  have hdescends := h.descends
  rw [List.append_assoc] at hdescends
  obtain ⟨mid, hmid, hdescends⟩ := Descends.split before hs hdescends
  obtain ⟨hapart, hwithin⟩ := hdescends.disjoint
  exact ⟨hapart, fun a ha => (hwithin a ha).mono (Nat.le_refl _) hmid⟩

end Coding
end RobotScript
