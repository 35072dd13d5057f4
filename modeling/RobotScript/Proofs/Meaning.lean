/-
# What statements mean

The behaviour of structured statements, given what their expressions mean. An
expression can be evaluated for a word or for the words of an array, run for its
effect or used as a place; a native call works on the meanings of its arguments.
A condition holds if its word is not zero, and the word of a fixed-point literal
is the scaled one. What is sent as an event shows as an effect, and what else
expressions and calls do shows as effects of their own.

The assignment of an array is one assignment for each element, the elements in
storage order: the first index runs fastest.

A run of statements ends with an exit: behind them, or with a jump out of a
loop or switch, which the innermost one that is meant catches, or with a
return. A jump to a label is an exit as well; where it goes on is not said.

Key definitions: `Meaning`, `Exit.behind`, `indexTuples`, `Stmt.steps`, `Stmt.run`,
`Stmt.runBlock`.
-/
import RobotScript.Code.Stmt
import RobotScript.Expr.Folding
import RobotScript.Proofs.Behaviour

namespace RobotScript

/-- What can be seen of a run. -/
inductive Visible (ω : Type) where
  | event (name : String) (words : List Cell)
  | other (o : ω)

/-- How a run of statements ends. -/
inductive Exit where
  | normal
  | jump (kind : LoopExit) (label : Option String)
  | ret (value : Option Cell)
  | goto (name : String)
  deriving DecidableEq

/-- What an expression means, wherever it stands. -/
structure Sense (σ ω π : Type) where
  word : Behaviour σ (Visible ω) Cell
  words : Behaviour σ (Visible ω) (List Cell)
  effect : Behaviour σ (Visible ω) Unit
  place : Behaviour σ (Visible ω) π

/-- What the parts of statements mean, over states `σ` and places `π`. -/
structure Meaning (σ ω π : Type) where
  settings : Settings
  sense : Expr → Sense σ ω π
  load : π → Behaviour σ (Visible ω) Cell
  store : π → Cell → Behaviour σ (Visible ω) Unit
  /-- Whether the condition of the `when` at a place, which holds now or does
  not, has started to hold. -/
  starts : Span → Bool → Behaviour σ (Visible ω) Bool
  native : String → List (Sense σ ω π) → Behaviour σ (Visible ω) Unit
  callSub : String → Behaviour σ (Visible ω) Unit
  word_number : ∀ i n, (sense (.number i n)).word = pure n
  word_fixed : ∀ i f, (sense (.fixed i f)).word = pure (settings.scaled f)

variable {σ ω π : Type}

/-- A condition holds if its word is not zero. -/
def Sense.holds (s : Sense σ ω π) : Behaviour σ (Visible ω) Bool := return (← s.word) != 0

namespace Exit

/-- How a loop or switch ends if its body ends so; none if a loop goes on. -/
def behind (flow : Flow) : Exit → Option Exit
  | normal => none
  | jump kind label =>
    if flow.matches? kind label then
      match kind with
      | .leave => some normal
      | .again => none
    else some (jump kind label)
  | ret value => some (ret value)
  | goto name => some (goto name)

/-- One after the other, unless the first ends with an exit. -/
def seq (x y : Behaviour σ ω Exit) : Behaviour σ ω Exit := do
  match ← x with
  | normal => y
  | exit => return exit

theorem pure_seq (y : Behaviour σ ω Exit) : seq (pure normal) y = y := pure_bind _ _

theorem seq_pure (x : Behaviour σ ω Exit) : seq x (pure normal) = x := by
  have hsame : (fun exit => match exit with | normal => pure normal | exit => pure exit :
      Exit → Behaviour σ ω Exit) = pure := by
    funext exit
    cases exit <;> rfl
  unfold seq
  rw [hsame, bind_pure]

theorem seq_assoc (x y z : Behaviour σ ω Exit) : seq (seq x y) z = seq x (seq y z) := by
  unfold seq
  rw [bind_assoc]
  congr 1
  funext exit
  cases exit with
  | normal => rfl
  | _ => exact pure_bind _ _

/-- A loop with a test before its body and a step behind it. -/
def loop (flow : Flow) (test : Behaviour σ ω Bool) (body : Behaviour σ ω Exit)
    (step : Behaviour σ ω Unit) : Behaviour σ ω Exit :=
  Behaviour.iterate do
    if ← test then
      match (← body).behind flow with
      | some exit => return some exit
      | none =>
        step
        return none
    else return some normal

/-- A loop with a test behind its body. -/
def loopOnce (flow : Flow) (body : Behaviour σ ω Exit) (test : Behaviour σ ω Bool) :
    Behaviour σ ω Exit :=
  Behaviour.iterate do
    match (← body).behind flow with
    | some exit => return some exit
    | none => return if ← test then none else some normal

/-- A loop whose test fails at once. -/
theorem loop_false (flow : Flow) (body : Behaviour σ ω Exit) (step : Behaviour σ ω Unit) :
    loop flow (pure false) body step = pure normal := by
  unfold loop
  rw [Behaviour.iterate_eq, pure_bind, if_neg Bool.false_ne_true, pure_bind]

end Exit

/-- The indices of the elements of an array in storage order: the first index
runs fastest. -/
def indexTuples : List Nat → List (List Nat)
  | [] => [[]]
  | d :: ds => (indexTuples ds).flatMap fun ks => (List.range d).map (· :: ks)

/-- The element of a variable with the given indices. -/
def Expr.elementAt (info : Info) (v : Variable) (ks : List Nat) : Expr :=
  .index (.scalar info.span info.ty) v (ks.map fun k => .int (Int16.ofNat k) info.span)

/-- The elements of an array in storage order. -/
def Expr.elements : Expr → List Expr
  | .var info v => (indexTuples info.dims).map (Expr.elementAt info v)
  | .array _ items => items
  | e => [e]

namespace Stmt

/-- The expressions that a statement consisting of one comes to: the assignment
of a whole array is one assignment for each element, in storage order. -/
def steps : Expr → List Expr
  | .op info .assign [target, value] =>
    if target.isScalar && value.isScalar then [.op info .assign [target, value]]
    else List.zipWith (fun t x => .op (.scalar info.span target.ty) .assign [t, x]) target.elements value.elements
  | e => [e]

variable (M : Meaning σ ω π)

/-- What an expression means in some way, or what holds without it. -/
def given {α : Type} (f : Sense σ ω π → α) (a : α) : Option Expr → α
  | none => a
  | some e => f (M.sense e)

/-- The outcome of an optional condition; without one it holds. -/
def test : Option Expr → Behaviour σ (Visible ω) Bool := given M Sense.holds (return true)

/-- The effect of an optional expression. -/
def step : Option Expr → Behaviour σ (Visible ω) Unit := given M Sense.effect (return ())

/-- The step of a loop over a range. -/
def stride : Option Expr → Behaviour σ (Visible ω) Cell := given M Sense.word (return 1)

/-- The words of an optional value. -/
def words : Option Expr → Behaviour σ (Visible ω) (List Cell) := given M Sense.words (return [])

/-- The value of an expression converted to `int`. -/
def int (e : Expr) : Behaviour σ (Visible ω) Cell := (M.sense (e.cast .int)).word

/-- Expressions run for their effects. -/
def perform : List Expr → Behaviour σ (Visible ω) Exit
  | [] => return .normal
  | e :: es => do
    (M.sense e).effect
    perform es

mutual

/-- What a statement does in a routine with a given result type. -/
def run (result : Option Ty) : Stmt → Behaviour σ (Visible ω) Exit
  | expr _ e => perform M (steps e)
  | branch _ arms => runArms result arms
  | whenever span cond body => do
    if ← M.starts span (← (M.sense cond).holds) then runBlock result body
    else return .normal
  | whileLoop _ tag cond body =>
    Exit.loop ⟨tag, false⟩ (test M cond) (runBlock result body) (return ())
  | doWhile _ tag body cond =>
    Exit.loopOnce ⟨tag, false⟩ (runBlock result body) (M.sense cond).holds
  | rangeFor _ tag var first last step body => do
    let step ← stride M step
    let counter ← (M.sense var).place
    M.store counter (← int M first)
    let test := do
      let k ← M.load counter
      let last ← int M last
      return if 0 ≤ step then decide (k ≤ last) else decide (last ≤ k)
    Exit.loop ⟨tag, false⟩ test (runBlock result body) do
      M.store counter ((← M.load counter) + step)
  | forLoop _ tag init cond step body =>
    Exit.seq (runBlock result init)
      (Exit.loop ⟨tag, false⟩ (test M cond) (runBlock result body) (Stmt.step M step))
  | switch _ tag subject body => do
    let out ← runSwitch result (← int M subject) (return .normal) body
    return (out.behind ⟨tag, true⟩).getD .normal
  | block _ body => runBlock result body
  | exit _ kind tag => return .jump kind tag
  | goto _ name => return .goto name
  | native _ name args => do
    M.native name (args.map M.sense)
    return .normal
  | callSub _ name => do
    M.callSub name
    return .normal
  | emit _ event value => do
    let sent ← words M value
    Behaviour.act fun m => ([.event event sent], some ((), m))
    return .normal
  | ret _ value =>
    match value with
    | none => return .ret none
    | some e => do return .ret (some (← (M.sense (e.cast (result.getD e.ty))).word))
  | varDecl _ _ | constDecl _ _ _ | case _ _ | default _ | label _ _ | empty _ => return .normal

/-- What the arms of an `if` do. -/
def runArms (result : Option Ty) : Arms → Behaviour σ (Visible ω) Exit
  | .done => return .normal
  | .otherwise body => runBlock result body
  | .arm _ cond body rest => do
    if ← (M.sense cond).holds then runBlock result body else runArms result rest

/-- What statements do one after another. -/
def runBlock (result : Option Ty) : List Stmt → Behaviour σ (Visible ω) Exit
  | [] => return .normal
  | s :: ss => Exit.seq (run result s) (runBlock result ss)

/-- What the body of a switch does for a value: it is entered at the first case
of the value, else as given by `otherwise` or at the last `default`. -/
def runSwitch (result : Option Ty) (value : Cell) (otherwise : Behaviour σ (Visible ω) Exit) :
    List Stmt → Behaviour σ (Visible ω) Exit
  | [] => otherwise
  | case _ e :: ss => do
    if value = (← int M e) then runBlock result ss else runSwitch result value otherwise ss
  | default _ :: ss => runSwitch result value (runBlock result ss) ss
  | _ :: ss => runSwitch result value otherwise ss

end

end Stmt
end RobotScript
