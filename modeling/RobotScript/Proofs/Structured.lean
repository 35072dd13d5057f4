/-
# Structured statements

A control is what is left to do of structured statements, construct by
construct from the innermost one out. `Control.next` says what comes next: a
leaf statement or the step of a `for`, which are performed, a condition, whose
outcome decides how to go on, or the subject of a switch, whose value does. The
code of these pieces says nothing about their order; the machine has to find
that in the code around them.

The machine follows a control if it comes to the code of each piece in turn,
whatever the pieces do to memory and stack and however the conditions turn out.

Key definitions: `Stmt.isStructured`, `Control.next`, `Coding.Gives`, `Follows`.
-/
import RobotScript.Code.Stmt
import RobotScript.Proofs.Execution

namespace RobotScript

open Machine (Instr State)

mutual

/-- Whether the statement and all in it are leaves, `if` chains, `while`,
`do`-`while` and C-like `for` loops, switches over numbers, blocks, returns,
jumps out of loops and the labels that these name. -/
def Stmt.isStructured : Stmt → Bool
  | .branch _ arms => arms.isStructured
  | .whileLoop _ _ _ body | .doWhile _ _ body _ | .switch _ _ _ body | .block _ body =>
    Stmt.allStructured body
  | .forLoop _ _ init _ _ body => Stmt.allStructured init && Stmt.allStructured body
  | .case _ value => value.number?.isSome
  | .whenever _ _ _ | .rangeFor _ _ _ _ _ _ _ | .goto _ _ => false
  | .varDecl _ _ | .constDecl _ _ _ | .expr _ _ | .default _ | .exit _ _ _ | .native _ _ _
  | .callSub _ _ | .emit _ _ _ | .ret _ _ | .label _ _ | .empty _ => true

/-- Whether all statements in the arms are structured. -/
def Arms.isStructured : Arms → Bool
  | .done => true
  | .otherwise body => Stmt.allStructured body
  | .arm _ _ body rest => Stmt.allStructured body && rest.isStructured

/-- Whether the statements are all structured. -/
def Stmt.allStructured : List Stmt → Bool
  | [] => true
  | s :: ss => s.isStructured && Stmt.allStructured ss

end

theorem Stmt.allStructured_cons {s : Stmt} {ss : List Stmt} :
    Stmt.allStructured (s :: ss) = true ↔ s.isStructured = true ∧ Stmt.allStructured ss = true := by
  rw [Stmt.allStructured, Bool.and_eq_true]

/-! ### Where control is -/

/-- What is left to do of a construct. -/
inductive Pending where
  | block (ss : List Stmt)
  | arms (arms : Arms)
  /-- A loop at its test. A `while` is a loop without a step. -/
  | loopTest (label : Option String) (cond step : Option Expr) (body : List Stmt)
  /-- A loop whose body is done with, or under way above. -/
  | loopStep (label : Option String) (cond step : Option Expr) (body : List Stmt)
  /-- A `do` whose body is done with, or under way above. -/
  | doTest (label : Option String) (body : List Stmt) (cond : Expr)
  /-- A switch whose body is done with, or under way above. -/
  | switchEnd (label : Option String)
  /-- The routine returns. -/
  | ret

/-- The loop or switch that has its body under way. -/
def Pending.flow? : Pending → Option Flow
  | loopStep label _ _ _ | doTest label _ _ => some ⟨label, false⟩
  | switchEnd label => some ⟨label, true⟩
  | block _ | arms _ | loopTest _ _ _ _ | ret => none

/-- Whether a jump means the construct: by its label, or else any loop, and for
`break` any switch as well. -/
def Pending.isMeant (kind : LoopExit) (label : Option String) (f : Pending) : Bool :=
  match f.flow?, label with
  | none, _ => false
  | some flow, some name => flow.label == some name
  | some flow, none => kind == .leave || !flow.isSwitch

/-- What is left to do, innermost first. -/
abbrev Control := List Pending

/-- What is run as a whole, with code of its own. -/
inductive Piece where
  | leaf (s : Stmt)
  /-- The step of a loop. -/
  | step (e : Expr)
  /-- The result of the routine. -/
  | result (e : Expr)

/-- What comes next, and how control goes on behind it. -/
inductive Move where
  /-- Nothing is run. -/
  | silent (next : Control)
  /-- A loop starts over. -/
  | turn (next : Control)
  | perform (piece : Piece) (next : Control)
  | test (cond : Expr) (next : Bool → Control)
  | choose (subject : Expr) (next : Cell → Control)
  | done
  | returned
  /-- There is no structured way on. -/
  | astray

/-- The statements behind the first case of the value. -/
def Stmt.behindCase? (v : Cell) : List Stmt → Option (List Stmt)
  | [] => none
  | .case _ value :: ss => if value.number? = some v then some ss else behindCase? v ss
  | _ :: ss => behindCase? v ss

/-- The statements behind the last `default`. -/
def Stmt.behindDefault? : List Stmt → Option (List Stmt)
  | [] => none
  | .default _ :: ss => some ((behindDefault? ss).getD ss)
  | _ :: ss => behindDefault? ss

namespace Control

/-- The loops and switches whose bodies are under way, innermost first. -/
def flows (K : Control) : List Flow := K.filterMap Pending.flow?

/-- Where a jump goes: `break` behind the innermost construct that it means,
`continue` to the end of its body. -/
def exit (kind : LoopExit) (label : Option String) : Control → Option Control
  | [] => none
  | f :: K =>
    if f.isMeant kind label then
      match kind with
      | .leave => some K
      | .again => if f.flow?.any (·.isSwitch) then none else some (f :: K)
    else exit kind label K

/-- The body of a switch from its entry for the value on: the first case of the
value, else the last `default`. -/
def enter (label : Option String) (body : List Stmt) (K : Control) (v : Cell) : Control :=
  match (Stmt.behindCase? v body).or (Stmt.behindDefault? body) with
  | some ss => .block ss :: .switchEnd label :: K
  | none => K

/-- A statement comes next, then the control given. -/
def start (s : Stmt) (K : Control) : Move :=
  match s with
  | .branch _ arms => .silent (.arms arms :: K)
  | .whileLoop _ label cond body => .silent (.loopTest label cond none body :: K)
  | .doWhile _ label body cond => .silent (.block body :: .doTest label body cond :: K)
  | .forLoop _ label init cond step body =>
    .silent (.block init :: .loopTest label cond step body :: K)
  | .switch _ label subject body => .choose subject (enter label body K)
  | .block _ body => .silent (.block body :: K)
  | .exit _ kind label =>
    match exit kind label K with
    | some K' => .silent K'
    | none => .astray
  | .ret _ (some e) => .perform (.result e) [.ret]
  | .ret _ none => .silent [.ret]
  | .case _ _ | .default _ | .label _ _ => .silent K
  | .whenever _ _ _ | .rangeFor _ _ _ _ _ _ _ | .goto _ _ => .astray
  | .varDecl _ _ | .constDecl _ _ _ | .expr _ _ | .native _ _ _ | .callSub _ _ | .emit _ _ _
  | .empty _ => .perform (.leaf s) K

/-- What comes next. -/
def next : Control → Move
  | [] => .done
  | .block [] :: K => .silent K
  | .block (s :: ss) :: K => start s (.block ss :: K)
  | .arms .done :: K => .silent K
  | .arms (.otherwise body) :: K => .silent (.block body :: K)
  | .arms (.arm _ cond body rest) :: K =>
    .test cond fun b => if b then .block body :: K else .arms rest :: K
  | .loopTest label (some e) step body :: K =>
    .test e fun b => if b then .block body :: .loopStep label (some e) step body :: K else K
  | .loopTest label none step body :: K =>
    .silent (.block body :: .loopStep label none step body :: K)
  | .loopStep label cond (some e) body :: K =>
    .perform (.step e) (.loopTest label cond (some e) body :: K)
  | .loopStep label cond none body :: K => .turn (.loopTest label cond none body :: K)
  | .doTest label body cond :: K =>
    .test cond fun b => if b then .block body :: .doTest label body cond :: K else K
  | .switchEnd _ :: K => .silent K
  | .ret :: _ => .returned

/-- What silent moves use up. -/
noncomputable def weight : Control → Nat
  | [] => 0
  | .block ss :: K => sizeOf ss + weight K
  | .arms arms :: K => sizeOf arms + weight K
  | .loopTest _ _ _ body :: K => sizeOf body + 1 + weight K
  | .switchEnd _ :: K => 1 + weight K
  | .loopStep _ _ _ _ :: K | .doTest _ _ _ :: K | .ret :: K => weight K

theorem weight_exit {kind : LoopExit} {label : Option String} : ∀ {K K' : Control},
    exit kind label K = some K' → K'.weight ≤ K.weight
  | [], _, h => by cases h
  | f :: K, K', h => by
    have hcons : weight K ≤ weight (f :: K) := by
      cases f <;> simp only [weight] <;> omega
    unfold exit at h
    split at h
    · split at h
      · cases h
        exact hcons
      · split at h
        · cases h
        · cases h
          exact Nat.le_refl _
    · exact Nat.le_trans (weight_exit h) hcons

/-- Silent moves come to an end. -/
theorem weight_silent {K K' : Control} (h : K.next = .silent K') : K'.weight < K.weight := by
  match K, h with
  | .block [] :: K, h =>
    cases h
    simp only [weight, List.nil.sizeOf_spec]
    omega
  | .block (s :: ss) :: K, h =>
    cases s with
    | exit span kind label =>
      simp only [next, start] at h
      split at h
      · rename_i hexit
        cases h
        have := weight_exit hexit
        simp only [weight, List.cons.sizeOf_spec] at this ⊢
        omega
      · cases h
    | ret span value =>
      cases value with
      | none =>
        cases h
        simp only [weight, List.cons.sizeOf_spec]
        omega
      | some e => cases h
    | _ =>
      cases h <;>
        simp only [weight, List.cons.sizeOf_spec, Stmt.branch.sizeOf_spec, Stmt.whileLoop.sizeOf_spec,
          Stmt.doWhile.sizeOf_spec, Stmt.forLoop.sizeOf_spec, Stmt.block.sizeOf_spec] <;>
        omega
  | .arms .done :: K, h =>
    cases h
    simp only [weight, Arms.done.sizeOf_spec]
    omega
  | .arms (.otherwise body) :: K, h =>
    cases h
    simp only [weight, Arms.otherwise.sizeOf_spec]
    omega
  | .loopTest label none step body :: K, h =>
    cases h
    simp only [weight]
    omega
  | .switchEnd label :: K, h =>
    cases h
    simp only [weight]
    omega
end Control

/-! ### Code of pieces -/

/-- Generating code from some state gives the value. -/
def Coding.Gives {α : Type} (x : Coding α) (a : α) : Prop := ∃ s s', x s = .ok (a, s')

/-- The code generated for a piece. -/
def Piece.Coded (c : Coder) : Piece → Code → Prop
  | leaf s, k => ∃ flows, (s.code c flows).Gives k
  | step e, k => (e.code c .effect).Gives k
  | result e, k => ∃ value, (e.code c .value).Gives value ∧ k = value ++ .plain [.store c.returnSlot]

/-- The item stands in the image at the address; a call may lead anywhere. -/
def Item.Stands (image : Array Word) (a : Nat) : Item → Prop
  | instr i => ∃ held, i.Stands held image a
  | call _ _ => ∃ addr, (Instr.callSub addr).Stands false image a
  | goto _ _ => ∃ o, (Instr.jump o).Stands false image a
  | exit _ _ | label _ | mark _ => True

/-- The items of the code stand in the image from the address on. -/
def Code.Stands (image : Array Word) (a : Nat) (k : Code) : Prop :=
  ∀ pre item post, k = pre ++ item :: post → item.Stands image (a + size pre)

namespace Code.Stands

variable {image : Array Word} {a : Nat} {k k' : Code}

theorem left (h : Code.Stands image a (k ++ k')) : Code.Stands image a k :=
  fun pre item post hk => h pre item (post ++ k') (by rw [hk, List.append_assoc, List.cons_append])

theorem right (h : Code.Stands image a (k ++ k')) : Code.Stands image (a + size k) k' := by
  intro pre item post hk
  rw [Nat.add_assoc, ← Code.size_append]
  exact h (k ++ pre) item post (by rw [hk, List.append_assoc])

theorem instr {i : Instr} (h : Code.Stands image a (plain [i])) : ∃ held, i.Stands held image a :=
  h [] (.instr i) [] rfl

end Code.Stands

/-! ### The machine -/

/-- The machine takes steps from one state to another. -/
inductive Steps (node : Node) : State → State → Prop
  | refl (s : State) : Steps node s s
  | head {s s1 s2 : State} (h : (Machine.step node).run s = .ok true s1)
    (hs : Steps node s1 s2) : Steps node s s2

theorem Steps.trans {node : Node} {m1 m2 m3 : State} (h : Steps node m1 m2) (h' : Steps node m2 m3) :
    Steps node m1 m3 := by
  induction h with
  | refl => exact h'
  | head hstep _ ih => exact .head hstep (ih h')

/-- Steps that change nothing but the program counter bring the machine to the
address. -/
inductive Reaches (node : Node) : State → Nat → Prop
  | here (s : State) : Reaches node s s.pc
  | head {s : State} {p q : Nat} (h : (Machine.step node).run s = .ok true { s with pc := q })
    (hs : Reaches node { s with pc := q } p) : Reaches node s p

/-- The machine runs the code of the size `n` at the program counter to its
end. On the way it may call other code, but the code `W` at the address `base`
stands as before: of an image the machine changes the marks of edge branches
only, and structured statements have none. -/
structure Passes (node : Node) (base : Nat) (W : Code) (n : Nat) (m m' : State) : Prop where
  steps : Steps node m m'
  pc : m'.pc = m.pc + n
  code : W.Stands m'.image base

/-- The machine comes to the code `k`, and `P` holds whenever it has run that. -/
def Runs (node : Node) (base : Nat) (W k : Code) (P : State → Prop) (m : State) : Prop :=
  ∃ p, Reaches node m p ∧ k.Stands m.image p ∧
    ∀ m', Passes node base W k.size { m with pc := p } m' → P m'

/-- The address of the return slot, as instructions have it. -/
def Coder.slot (c : Coder) : Nat := c.returnSlot.toNat % 4096

/-- In code `W` that stands at the address `base`, the machine does what control
says for `n` moves. A condition leaves two words to compare. The value of a
subject is kept in the return slot, from where it is compared with the cases; a
machine without the slot, or without room for two words on its stack, stops
there with a fault. -/
def Follows (node : Node) (c : Coder) (base : Nat) (W : Code) : Nat → Control → State → Prop
  | 0, _, _ => True
  | n + 1, K, m =>
    match K.next with
    | .silent K' => K'.weight < K.weight ∧ Follows node c base W n K' m
    | .turn K' => ∃ p, (Machine.step node).run m = .ok true { m with pc := p } ∧
        Follows node c base W n K' { m with pc := p }
    | .perform piece K' => ∃ k, piece.Coded c k ∧
        Runs node base W k (Follows node c base W n K') m
    | .test e K' => ∃ k, (e.code c .test).Gives k ∧
        Runs node base W k (fun m' => ∀ x y rest, m'.stack = y :: x :: rest →
          ∃ p, (Machine.step node).run m' = .ok true { m' with stack := rest, pc := p } ∧
            Follows node c base W n (K' (e.testOp.evalCell x y != some 0))
              { m' with stack := rest, pc := p }) m
    | .choose e K' => ∃ k, (e.code c .value).Gives k ∧
        Runs node base W k (fun m' => ∀ v rest, m'.stack = v :: rest →
          rest.length + 2 ≤ Machine.stackSize → c.slot < m'.memory.size →
          ∃ p, Steps node m' { m'.setWord c.slot v with stack := rest, pc := p } ∧
            Follows node c base W n (K' v)
              { m'.setWord c.slot v with stack := rest, pc := p }) m
    | .done => Reaches node m (base + W.size)
    | .returned => ∃ p held, Reaches node m p ∧ c.exit.Stands held m.image p
    | .astray => False

end RobotScript
