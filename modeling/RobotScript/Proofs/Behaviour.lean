/-
# Behaviours

What a part of a program does to a state: the effects it performs in order, and
if it comes to an end, the value and the state it ends with. A part that goes
on forever performs more and more effects and has no end, and so does one that
a fault stops, with the fault as its last effect. From a state there is one
course only: of two lists of effects that have been performed, one is the
beginning of the other.

Behaviours are a monad, and `Behaviour.iterate` does one over and over until it
gives a value, so that the meaning of statements can be written as a program.

Key definitions: `Behaviour`, `Behaviour.bind`, `Behaviour.iterate`.
Key theorems: `Behaviour.iterate_eq`.
-/

namespace RobotScript

variable {σ ε α β γ : Type}

structure Behaviour (σ ε α : Type) where
  /-- From a state, after these effects, it ends with a value and in a state. -/
  ends : σ → List ε → α → σ → Prop
  /-- From a state it gets as far as these effects. -/
  performs : σ → List ε → Prop
  performs_nil : ∀ m, performs m []
  performs_left : ∀ {m t t'}, performs m (t ++ t') → performs m t
  linear : ∀ {m t t'}, performs m t → performs m t' → t <+: t' ∨ t' <+: t
  performs_end : ∀ {m t a m'}, ends m t a m' → performs m t
  last : ∀ {m t a m' t'}, ends m t a m' → performs m t' → t' <+: t
  unique : ∀ {m t a m' a' m''}, ends m t a m' → ends m t a' m'' → a = a' ∧ m' = m''

namespace Behaviour

variable {x : Behaviour σ ε α} {m m' : σ} {t t' : List ε}

/-- Behaviours are the same if they perform the same and end the same. -/
theorem ext {x y : Behaviour σ ε α} (hends : ∀ m t a m', x.ends m t a m' ↔ y.ends m t a m')
    (hperforms : ∀ m t, x.performs m t ↔ y.performs m t) : x = y := by
  cases x
  cases y
  congr
  · funext m t a m'
    exact propext (hends m t a m')
  · funext m t
    exact propext (hperforms m t)

/-- There is one end at most. -/
theorem ends_unique {a a' : α} {m'' : σ} (h : x.ends m t a m') (h' : x.ends m t' a' m'') :
    t = t' ∧ a = a' ∧ m' = m'' := by
  have ht : t <+: t' := x.last h' (x.performs_end h)
  have ht' : t' <+: t := x.last h (x.performs_end h')
  obtain rfl : t = t' := ht.eq_of_length_le ht'.length_le
  exact ⟨rfl, x.unique h h'⟩

/-- Nothing is done. -/
protected def pure (a : α) : Behaviour σ ε α where
  ends m t b m' := t = [] ∧ b = a ∧ m' = m
  performs _ t := t = []
  performs_nil _ := rfl
  performs_left h := (List.append_eq_nil_iff.mp h).1
  linear h _ := .inl (h ▸ List.nil_prefix)
  performs_end h := h.1
  last _ h' := h' ▸ List.nil_prefix
  unique h h' := ⟨h.2.1.trans h'.2.1.symm, h.2.2.trans h'.2.2.symm⟩

/-- The effects up to somewhere in the second of two parts. -/
inductive Then (x : Behaviour σ ε α) (P : α → σ → List ε → Prop) : σ → List ε → Prop
  | mk {m m' : σ} {t t' : List ε} {a : α} (h : x.ends m t a m') (h' : P a m' t') : Then x P m (t ++ t')

theorem Then.of_ends {P : α → σ → List ε → Prop} {a : α} (h : x.ends m t a m')
    (hthen : Then x P m t') : ∃ s, t' = t ++ s ∧ P a m' s := by
  cases hthen with
  | mk h1 h' =>
    obtain ⟨rfl, rfl, rfl⟩ := x.ends_unique h h1
    exact ⟨_, rfl, h'⟩

/-- One after the other. -/
protected def bind (x : Behaviour σ ε α) (f : α → Behaviour σ ε β) : Behaviour σ ε β where
  ends m t b m'' := Then x (fun a m' t' => (f a).ends m' t' b m'') m t
  performs m t := x.performs m t ∨ Then x (fun a m' t' => (f a).performs m' t') m t
  performs_nil m := .inl (x.performs_nil m)
  performs_left := by
    intro m t t' h
    rcases h with h | h
    · exact .inl (x.performs_left h)
    · generalize hs : t ++ t' = s at h
      cases h with
      | mk h h' =>
        rcases List.append_eq_append_iff.mp hs with ⟨r, rfl, rfl⟩ | ⟨r, rfl, rfl⟩
        · exact .inl (x.performs_left (x.performs_end h))
        · exact .inr (.mk h ((f _).performs_left h'))
  linear := by
    have hmixed : ∀ {m t t'}, x.performs m t → Then x (fun a m' s => (f a).performs m' s) m t' →
        t <+: t' := by
      intro m t t' h h'
      cases h' with
      | mk h1 h2 => exact (x.last h1 h).trans (List.prefix_append _ _)
    intro m t t' h h'
    rcases h with h | h <;> rcases h' with h' | h'
    · exact x.linear h h'
    · exact .inl (hmixed h h')
    · exact .inr (hmixed h' h)
    · cases h with
      | mk h1 h2 =>
        obtain ⟨s, rfl, h3⟩ := h'.of_ends h1
        simpa only [List.prefix_append_right_inj] using (f _).linear h2 h3
  performs_end h := by
    cases h with
    | mk h h' => exact .inr (.mk h ((f _).performs_end h'))
  last h h' := by
    cases h with
    | mk h1 h2 =>
      rcases h' with h' | h'
      · exact (x.last h1 h').trans (List.prefix_append _ _)
      · obtain ⟨s, rfl, h3⟩ := h'.of_ends h1
        exact (List.prefix_append_right_inj _).mpr ((f _).last h2 h3)
  unique h h' := by
    cases h with
    | mk h1 h2 =>
      obtain ⟨s, hs, h3⟩ := h'.of_ends h1
      obtain rfl := List.append_cancel_left hs
      exact (f _).unique h2 h3

instance : Monad (Behaviour σ ε) where
  pure := Behaviour.pure
  bind := Behaviour.bind

theorem ends_pure {a b : α} : (pure a : Behaviour σ ε α).ends m t b m' ↔ t = [] ∧ b = a ∧ m' = m := Iff.rfl

theorem performs_pure {a : α} : (pure a : Behaviour σ ε α).performs m t ↔ t = [] := Iff.rfl

theorem ends_bind {f : α → Behaviour σ ε β} {b : β} : (x >>= f).ends m t b m' ↔
    Then x (fun a m1 s => (f a).ends m1 s b m') m t := Iff.rfl

theorem performs_bind {f : α → Behaviour σ ε β} : (x >>= f).performs m t ↔
    x.performs m t ∨ Then x (fun a m1 s => (f a).performs m1 s) m t := Iff.rfl

theorem then_pure {a : α} {P : α → σ → List ε → Prop} : Then (pure a) P m t ↔ P a m t := by
  constructor
  · intro h
    cases h with
    | mk h h' =>
      obtain ⟨rfl, rfl, rfl⟩ := h
      exact h'
  · intro h
    exact .mk (t := []) ⟨rfl, rfl, rfl⟩ h

theorem then_bind {f : α → Behaviour σ ε β} {P : β → σ → List ε → Prop} :
    Then (x >>= f) P m t ↔ Then x (fun a m' s => Then (f a) P m' s) m t := by
  constructor
  · intro h
    cases h with
    | mk h h' =>
      cases h with
      | mk h1 h2 =>
        rw [List.append_assoc]
        exact .mk h1 (.mk h2 h')
  · intro h
    cases h with
    | mk h h' =>
      cases h' with
      | mk h1 h2 =>
        rw [← List.append_assoc]
        exact .mk (.mk h h1) h2

theorem then_or {P Q : α → σ → List ε → Prop} :
    Then x (fun a m' s => P a m' s ∨ Q a m' s) m t ↔ Then x P m t ∨ Then x Q m t := by
  constructor
  · intro h
    cases h with
    | mk h h' => exact h'.imp (.mk h) (.mk h)
  · rintro (⟨h, h'⟩ | ⟨h, h'⟩)
    · exact .mk h (.inl h')
    · exact .mk h (.inr h')

theorem map_id (x : Behaviour σ ε α) : id <$> x = x := by
  have hends : ∀ {m t a m'}, Then x (fun b m1 s => s = [] ∧ a = b ∧ m' = m1) m t ↔ x.ends m t a m' := by
    intro m t a m'
    constructor
    · intro h
      cases h with
      | mk h h' =>
        obtain ⟨rfl, rfl, rfl⟩ := h'
        rwa [List.append_nil]
    · intro h
      have hthen : Then x (fun b m1 s => s = [] ∧ a = b ∧ m' = m1) m (t ++ []) := .mk h ⟨rfl, rfl, rfl⟩
      rwa [List.append_nil] at hthen
  refine ext (fun m t a m' => hends) fun m t => or_iff_left_iff_imp.mpr fun h => ?_
  cases h with
  | mk h h' =>
    obtain rfl : _ = [] := h'
    rw [List.append_nil]
    exact x.performs_end h

theorem bind_of_pure (a : α) (f : α → Behaviour σ ε β) : pure a >>= f = f a := by
  refine ext (fun m t b m' => ?_) fun m t => ?_
  · rw [ends_bind, then_pure]
  · rw [performs_bind, then_pure, performs_pure, or_iff_right_iff_imp]
    rintro rfl
    exact (f a).performs_nil m

theorem bind_of_bind (x : Behaviour σ ε α) (f : α → Behaviour σ ε β) (g : β → Behaviour σ ε γ) :
    x >>= f >>= g = x >>= fun a => f a >>= g := by
  refine ext (fun m t c m' => ?_) fun m t => ?_
  · simp only [ends_bind, then_bind]
  · simp only [performs_bind, then_bind, then_or, or_assoc]

instance : LawfulMonad (Behaviour σ ε) := LawfulMonad.mk' _ map_id bind_of_pure bind_of_bind

/-! ### Doing something over and over -/

/-- Rounds without a value, and then what `P` says. -/
inductive Rounds (x : Behaviour σ ε (Option β)) (P : σ → List ε → Prop) : σ → List ε → Prop
  | here {m : σ} {t : List ε} (h : P m t) : Rounds x P m t
  | round {m m' : σ} {t t' : List ε} (h : x.ends m t none m') (hs : Rounds x P m' t') :
    Rounds x P m (t ++ t')

section

variable {x : Behaviour σ ε (Option β)} {P : σ → List ε → Prop}

/-- What is performed in a round that ends is the beginning of what the round
ends with. -/
theorem Rounds.prefix_end {b : β} (h : Rounds x (fun m t => x.ends m t (some b) m') m t)
    (h' : Rounds x x.performs m t') : t' <+: t := by
  induction h generalizing t' with
  | @here m t h =>
    cases h' with
    | here h' => exact x.last h h'
    | round h1 hs => cases (x.ends_unique h h1).2.1
  | @round m m1 t s h hs ih =>
    cases h' with
    | here h' => exact (x.last h h').trans (List.prefix_append _ _)
    | round h1 hs' =>
      obtain ⟨rfl, -, rfl⟩ := x.ends_unique h h1
      exact (List.prefix_append_right_inj _).mpr (ih hs')

theorem Rounds.linear (h : Rounds x x.performs m t) (h' : Rounds x x.performs m t') :
    t <+: t' ∨ t' <+: t := by
  induction h generalizing t' with
  | @here m t h =>
    cases h' with
    | here h' => exact x.linear h h'
    | round h1 hs => exact .inl ((x.last h1 h).trans (List.prefix_append _ _))
  | @round m m1 t s h hs ih =>
    cases h' with
    | here h' => exact .inr ((x.last h h').trans (List.prefix_append _ _))
    | round h1 hs' =>
      obtain ⟨rfl, -, rfl⟩ := x.ends_unique h h1
      simpa only [List.prefix_append_right_inj] using ih hs'

theorem Rounds.left (h : Rounds x x.performs m (t ++ t')) : Rounds x x.performs m t := by
  generalize hs : t ++ t' = s at h
  induction h generalizing t t' with
  | here h =>
    subst hs
    exact .here (x.performs_left h)
  | round h hs' ih =>
    rcases List.append_eq_append_iff.mp hs with ⟨r, rfl, rfl⟩ | ⟨r, rfl, rfl⟩
    · exact .here (x.performs_left (x.performs_end h))
    · exact .round h (ih rfl)

theorem Rounds.performs_end {b : β} (h : Rounds x (fun m t => x.ends m t (some b) m') m t) :
    Rounds x x.performs m t := by
  induction h with
  | here h => exact .here (x.performs_end h)
  | round h _ ih => exact .round h ih

theorem Rounds.unique {b b' : β} {m'' : σ} (h : Rounds x (fun m t => x.ends m t (some b) m') m t)
    (h' : Rounds x (fun m t => x.ends m t (some b') m'') m t') : b = b' ∧ m' = m'' := by
  induction h generalizing t' with
  | here h =>
    cases h' with
    | here h' =>
      obtain ⟨-, hb, hm⟩ := x.ends_unique h h'
      exact ⟨Option.some.inj hb, hm⟩
    | round h1 hs => cases (x.ends_unique h h1).2.1
  | round h hs ih =>
    cases h' with
    | here h' => cases (x.ends_unique h h').2.1
    | round h1 hs' =>
      obtain ⟨-, -, rfl⟩ := x.ends_unique h h1
      exact ih hs'

end

/-- Over and over, until there is a value. -/
def iterate (x : Behaviour σ ε (Option β)) : Behaviour σ ε β where
  ends m t b m' := Rounds x (fun m1 s => x.ends m1 s (some b) m') m t
  performs := Rounds x x.performs
  performs_nil m := .here (x.performs_nil m)
  performs_left := Rounds.left
  linear := Rounds.linear
  performs_end := Rounds.performs_end
  last := Rounds.prefix_end
  unique := Rounds.unique

/-- One round, and unless that gives a value all over again. -/
theorem iterate_eq (x : Behaviour σ ε (Option β)) :
    iterate x = x >>= fun | none => iterate x | some b => pure b := by
  have hstop : ∀ {m t m'} {b : β} {P : Option β → σ → List ε → Prop}, x.ends m t (some b) m' →
      P (some b) m' [] → Then x P m t := by
    intro m t m' b P h hP
    have hthen : Then x P m (t ++ []) := .mk h hP
    rwa [List.append_nil] at hthen
  refine ext (fun m t b m' => ⟨fun h => ?_, fun h => ?_⟩) fun m t => ⟨fun h => ?_, fun h => ?_⟩
  · cases h with
    | here h => exact hstop h ⟨rfl, rfl, rfl⟩
    | round h hs => exact .mk h hs
  · obtain @⟨m1, s, s', o, h, h'⟩ := ends_bind.mp h
    cases o with
    | none => exact .round h h'
    | some b' =>
      obtain ⟨rfl, rfl, rfl⟩ := ends_pure.mp h'
      rw [List.append_nil]
      exact .here h
  · cases h with
    | here h => exact .inl h
    | round h hs => exact .inr (.mk h hs)
  · rcases performs_bind.mp h with h1 | @⟨m1, s, s', o, h1, h'⟩
    · exact .here h1
    · cases o with
      | none => exact .round h1 h'
      | some b' =>
        obtain rfl : s' = [] := h'
        rw [List.append_nil]
        exact .here (x.performs_end h1)

/-- One step: effects, and unless the machine stops there a value and the next
state. -/
def act (f : σ → List ε × Option (α × σ)) : Behaviour σ ε α where
  ends m t a m' := f m = (t, some (a, m'))
  performs m t := t <+: (f m).1
  performs_nil _ := List.nil_prefix
  performs_left h := (List.prefix_append _ _).trans h
  linear h h' := List.prefix_or_prefix_of_prefix h h'
  performs_end h := h ▸ List.prefix_rfl
  last h h' := by
    rwa [h] at h'
  unique h h' := by
    cases h.symm.trans h'
    exact ⟨rfl, rfl⟩

theorem act_value (a : α) : (act fun m => ([], some (a, m)) : Behaviour σ ε α) = pure a := by
  refine ext (fun m t b m' => ?_) fun m t => List.prefix_nil
  rw [ends_pure]
  constructor
  · intro h
    cases h
    exact ⟨rfl, rfl, rfl⟩
  · rintro ⟨rfl, rfl, rfl⟩
    rfl

end Behaviour
end RobotScript
