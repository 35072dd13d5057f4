/-
# How a stage ends

A stage of the compiler ends with a value or with a failure. `Ends` says what
is known in either case, so that a fact about the values and a fact about the
failures of a stage are proved together, in the order in which the stage is
written. `Yields` is the same for a stage with a state that it keeps in order.

Key definitions: `Ends`, `Yields`.
Key theorems: `bind_eq_ok`, `mapM_eq_ok`, `Ends.bind`, `Ends.mapM`, `Yields.bind`, `Yields.mapM`.
-/

namespace RobotScript

variable {ε α β σ : Type}

theorem bind_eq_ok {x : Except ε α} {f : α → Except ε β} {b : β} :
    x >>= f = .ok b ↔ ∃ a, x = .ok a ∧ f a = .ok b := by
  cases x with
  | ok a => exact ⟨fun h => ⟨a, rfl, h⟩, fun ⟨a', ha, h⟩ => by cases ha; exact h⟩
  | error e => exact ⟨fun h => (by cases h), fun ⟨a', ha, _⟩ => (by cases ha)⟩

/-- The values of steps taken for the elements of a list, one by one. -/
theorem mapM_eq_ok {f : α → Except ε β} : ∀ {xs : List α} {ys : List β}, xs.mapM f = .ok ys →
    ys.length = xs.length ∧ ∀ (i : Nat) (a : α) (b : β), xs[i]? = some a → ys[i]? = some b → f a = .ok b
  | [], ys, h => by
    rw [List.mapM_nil] at h
    cases h
    exact ⟨rfl, nofun⟩
  | a :: xs, ys, h => by
    rw [List.mapM_cons] at h
    obtain ⟨b, hb, h⟩ := bind_eq_ok.mp h
    obtain ⟨bs, hbs, h⟩ := bind_eq_ok.mp h
    cases h
    obtain ⟨hlength, hall⟩ := mapM_eq_ok hbs
    refine ⟨congrArg (· + 1) hlength, fun i a' b' ha' hb' => ?_⟩
    cases i with
    | zero =>
      cases ha'
      cases hb'
      exact hb
    | succ i => exact hall i a' b' ha' hb'

/-- Lists of one length have their elements at the same places. -/
theorem exists_getElem?_of_length_eq {xs : List α} {ys : List β} (hlength : xs.length = ys.length)
    {i : Nat} {a : α} (h : xs[i]? = some a) : ∃ b, ys[i]? = some b := by
  have hi : i < ys.length := by
    rw [← hlength]
    exact (List.getElem?_eq_some_iff.mp h).1
  exact ⟨_, List.getElem?_eq_getElem hi⟩

theorem mapError_eq_ok {ι : Type} {f : ε → ι} {x : Except ε α} {a : α} :
    x.mapError f = .ok a ↔ x = .ok a := by
  cases x with
  | ok b => exact ⟨fun h => congrArg _ (Except.ok.inj h), fun h => congrArg _ (Except.ok.inj h)⟩
  | error e => exact ⟨nofun, nofun⟩

theorem eq_ok_of_toOption {x : Except ε α} {a : α} (h : x.toOption = some a) : x = .ok a := by
  cases x with
  | ok b => rw [Option.some.inj h]
  | error e => cases h

/-- A value is `good`, a failure is `fair`. -/
def Ends (fair : ε → Prop) (good : α → Prop) : Except ε α → Prop
  | .ok a => good a
  | .error e => fair e

namespace Ends

variable {fair : ε → Prop} {good : α → Prop} {x : Except ε α}

theorem ok {a : α} (h : good a) : Ends fair good (.ok a) := h

theorem pure {a : α} (h : good a) : Ends fair good (pure a : Except ε α) := h

theorem of_ok {a : α} (h : Ends fair good x) (hx : x = .ok a) : good a := by
  subst hx
  exact h

theorem of_error {e : ε} (h : Ends fair good x) (hx : x = .error e) : fair e := by
  subst hx
  exact h

/-- Nothing to be known of a stage. -/
theorem any (x : Except ε α) : Ends (fun _ => True) (fun _ => True) x := by
  cases x with
  | ok a => trivial
  | error e => trivial

theorem mono {good' : α → Prop} (h : Ends fair good x) (hg : ∀ a, good a → good' a) : Ends fair good' x := by
  cases x with
  | ok a => exact hg a h
  | error e => exact h

theorem weaken {fair' : ε → Prop} (h : Ends fair good x) (hf : ∀ e, fair e → fair' e) :
    Ends fair' good x := by
  cases x with
  | ok a => exact h
  | error e => exact hf e h

/-- A value is that of the stage. -/
theorem self (h : Ends fair good x) : Ends fair (fun a => x = .ok a ∧ good a) x := by
  cases x with
  | ok a => exact ⟨rfl, h⟩
  | error e => exact h

theorem bind {good' : β → Prop} {f : α → Except ε β} (h : Ends fair good x)
    (hf : ∀ a, good a → Ends fair good' (f a)) : Ends fair good' (x >>= f) := by
  cases x with
  | ok a => exact hf a h
  | error e => exact h

theorem map {good' : β → Prop} {f : α → β} (h : Ends fair good x)
    (hf : ∀ a, good a → good' (f a)) : Ends fair good' (f <$> x) := by
  cases x with
  | ok a => exact hf a h
  | error e => exact h

theorem mapError {ι : Type} {fair' : ι → Prop} {f : ε → ι} (h : Ends fair good x)
    (hf : ∀ e, fair e → fair' (f e)) : Ends fair' good (x.mapError f) := by
  cases x with
  | ok a => exact h
  | error e => exact hf e h

/-- Steps taken for the elements of a list in turn. -/
theorem mapM {good' : β → Prop} {f : α → Except ε β} : ∀ xs : List α,
    (∀ a ∈ xs, Ends fair good' (f a)) →
    Ends fair (fun ys => ys.length = xs.length ∧ ∀ b ∈ ys, good' b) (xs.mapM f)
  | [], _ => by
    rw [List.mapM_nil]
    exact ⟨rfl, by simp⟩
  | a :: xs, h => by
    rw [List.mapM_cons]
    refine (h a List.mem_cons_self).bind fun b hb => ?_
    refine (mapM xs fun a' ha' => h a' (List.mem_cons_of_mem _ ha')).bind fun ys hys => ?_
    refine Ends.pure ⟨by simp [hys.1], ?_⟩
    rintro b' (_ | ⟨_, hb'⟩)
    · exact hb
    · exact hys.2 b' hb'

/-- Steps that build on each other, one for each element of a list. -/
theorem foldlM {f : β → α → Except ε β} {inv : β → Prop} : ∀ (xs : List α) (b : β), inv b →
    (∀ b, inv b → ∀ a ∈ xs, Ends fair inv (f b a)) → Ends fair inv (xs.foldlM f b)
  | [], _, hb, _ => by
    rw [List.foldlM_nil]
    exact hb
  | a :: xs, b, hb, h => by
    rw [List.foldlM_cons]
    refine (h b hb a List.mem_cons_self).bind fun b' hb' => ?_
    exact foldlM xs b' hb' fun b hb a' ha' => h b hb a' (List.mem_cons_of_mem _ ha')

end Ends

/-- From a state that is in order, a value is `good` and the new state in
order, or a failure is `fair`. -/
def Yields (fair : ε → Prop) (inv : σ → Prop) (good : α → Prop) (x : StateT σ (Except ε) α) : Prop :=
  ∀ s, inv s → Ends fair (fun r => good r.1 ∧ inv r.2) (x s)

namespace Yields

variable {fair : ε → Prop} {inv : σ → Prop} {good : α → Prop} {x : StateT σ (Except ε) α}

theorem pure {a : α} (h : good a) : Yields fair inv good (pure a) := fun _ hs => ⟨h, hs⟩

theorem lift {r : Except ε α} (h : Ends fair good r) :
    Yields fair inv good (liftM r : StateT σ (Except ε) α) := by
  intro s hs
  cases r with
  | ok a => exact ⟨h, hs⟩
  | error e => exact h

theorem get : Yields fair inv inv (MonadState.get : StateT σ (Except ε) σ) := fun _ hs => ⟨hs, hs⟩

theorem set {s' : σ} (h : inv s') :
    Yields fair inv (fun _ => True) (MonadStateOf.set s' : StateT σ (Except ε) PUnit) :=
  fun _ _ => ⟨trivial, h⟩

theorem modify {f : σ → σ} (h : ∀ s, inv s → inv (f s)) :
    Yields fair inv (fun _ => True) (modify f : StateT σ (Except ε) PUnit) :=
  fun s hs => ⟨trivial, h s hs⟩

theorem mono {good' : α → Prop} (h : Yields fair inv good x) (hg : ∀ a, good a → good' a) :
    Yields fair inv good' x :=
  fun s hs => (h s hs).mono fun r hr => ⟨hg r.1 hr.1, hr.2⟩

theorem bind {good' : β → Prop} {f : α → StateT σ (Except ε) β} (h : Yields fair inv good x)
    (hf : ∀ a, good a → Yields fair inv good' (f a)) : Yields fair inv good' (x >>= f) :=
  fun s hs => (h s hs).bind fun r hr => hf r.1 hr.1 r.2 hr.2

/-- Steps taken for the elements of a list in turn. -/
theorem mapM {good' : β → Prop} {f : α → StateT σ (Except ε) β} : ∀ xs : List α,
    (∀ a ∈ xs, Yields fair inv good' (f a)) →
    Yields fair inv (fun ys => ys.length = xs.length ∧ ∀ b ∈ ys, good' b) (xs.mapM f)
  | [], _ => by
    rw [List.mapM_nil]
    exact Yields.pure ⟨rfl, by simp⟩
  | a :: xs, h => by
    rw [List.mapM_cons]
    refine (h a List.mem_cons_self).bind fun b hb => ?_
    refine (mapM xs fun a' ha' => h a' (List.mem_cons_of_mem _ ha')).bind fun ys hys => ?_
    refine Yields.pure ⟨by simp [hys.1], ?_⟩
    rintro b' (_ | ⟨_, hb'⟩)
    · exact hb
    · exact hys.2 b' hb'

end Yields
end RobotScript
