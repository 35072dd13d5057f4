/-
# Taking from the front of a list

What is taken from the front of a list is a value and the elements left, with
a bound on how many those are. A repetition that takes something each time
ends by that bound.

Key definitions: `Taken`.
-/

namespace RobotScript

/-- A value taken from a list of `τ`, and fewer than `bound` elements left. -/
structure Taken (τ α : Type) (bound : Nat) where
  value : α
  rest : List τ
  within : rest.length < bound

namespace Taken

variable {τ α β : Type} {m n : Nat}

/-- The same, under a larger bound. -/
def widen (t : Taken τ α m) (h : m ≤ n) : Taken τ α n :=
  ⟨t.value, t.rest, Nat.lt_of_lt_of_le t.within h⟩

/-- The same, under the next bound. -/
def loosen (t : Taken τ α n) : Taken τ α (n + 1) := t.widen (Nat.le_succ n)

def map (f : α → β) (t : Taken τ α n) : Taken τ β n := ⟨f t.value, t.rest, t.within⟩

/-- Take the first element. -/
def head (value : α) (a : τ) (as : List τ) : Taken τ α (a :: as).length :=
  ⟨value, as, Nat.lt_succ_self _⟩

/-- Take nothing. -/
def nothing (value : α) (as : List τ) : Taken τ α (as.length + 1) :=
  ⟨value, as, Nat.lt_succ_self _⟩

/-- What is taken behind the first element. -/
def past (a : τ) {as : List τ} (t : Taken τ α as.length) : Taken τ α (a :: as).length := t.loosen

/-- What is taken behind something else. -/
def andThen (t : Taken τ β n) (u : Taken τ α t.rest.length) : Taken τ α n :=
  u.widen (Nat.le_of_lt t.within)

/-- What is taken behind something else, and may be nothing. -/
def andMaybe (t : Taken τ β n) (u : Taken τ α (t.rest.length + 1)) : Taken τ α n :=
  u.widen (Nat.succ_le_of_lt t.within)

/-- What is taken behind something that may be nothing. -/
def maybeThen (t : Taken τ β (n + 1)) (u : Taken τ α t.rest.length) : Taken τ α n :=
  u.widen (Nat.le_of_lt_succ t.within)

end Taken
end RobotScript
