/-
# The code of expressions computes their values

For an expression over numbers and truth values that folding has been through,
over variables outside functions, the code pushes the value that `Expr.eval`
gives it, or the machine stops with its fault. The code of a test leaves two
words of which the comparison holds exactly if the value is not zero.

Key definitions: `Expr.IsDirect`, `Expr.room`, `Job.Computes`.
Key theorems: `Emits.computes`, `expression_code_computes`.
-/
import RobotScript.Proofs.Computing
import RobotScript.Proofs.Drafting
import RobotScript.Proofs.Folded

namespace RobotScript

open Machine (Instr Binary Unary State RunFault)
open Code (plain size)
open Coding (Gives)

namespace Expr

/-! ### Expressions that are computed directly -/

/-- At its top an expression is one over literals, words of variables outside
functions that lie before the return slot, and operators. -/
def IsDirect (node : Node) : Expr → Prop
  | number _ _ => True
  | var _ v => ∃ s, v.storage = some s ∧ s.mode = .absolute ∧ volume s.dims = 1 ∧
      s.offset + volume s.dims ≤ node.returnSlot
  | index _ v es => es ≠ [] ∧ ∃ s, v.storage = some s ∧ s.mode = .absolute ∧ 0 < volume s.dims ∧
      s.offset + volume s.dims ≤ node.returnSlot
  | op _ o _ => o.isIntegral = true ∧ o ≠ .comma
  | _ => False

instance (node : Node) : DecidablePred (IsDirect node)
  | number _ _ => isTrue trivial
  | var _ v => decidable_of_iff
      (v.storage.any fun s =>
        s.mode = .absolute ∧ volume s.dims = 1 ∧ s.offset + volume s.dims ≤ node.returnSlot)
      (by simp [IsDirect, Option.any_eq_true])
  | index _ v es => decidable_of_iff (es.isEmpty = false ∧ v.storage.any fun s =>
        s.mode = .absolute ∧ 0 < volume s.dims ∧ s.offset + volume s.dims ≤ node.returnSlot)
      (by simp [IsDirect, Option.any_eq_true])
  | op _ o _ => inferInstanceAs (Decidable (o.isIntegral = true ∧ o ≠ .comma))
  | fixed _ _ | array _ _ | call _ _ _ _ | placeholder _ => isFalse id

/-- What is asked of each part of an expression. -/
structure DirectPart (node : Node) (a : Expr) : Prop where
  ty : a.ty.IsWhole
  direct : a.IsDirect node
  folded : a.IsFolded

mutual

/-- The words of the stack that the code of an expression needs. -/
def room : Expr → Nat
  | index _ _ (e :: es) => max e.room (roomBehind es)
  | op _ o args =>
    match o, args with
    | .binary _, [x, y] => max x.room (y.room + 1)
    | .logicAnd, [x, y] | .logicOr, [x, y] => max (max x.room 2) y.room
    | .conditional, [cond, op _ .conditionalElse [a, b]] => max (max cond.room 2) (max a.room b.room)
    | .not, [x] | .cast _, [x] => max x.room 2
    | .negate, [x] | .abs, [x] | .bitNot, [x] => x.room
    | _, _ => 1
  | _ => 1

/-- The words of the stack that the code of indices behind the first needs: the
position so far lies below, and a stride above. -/
def roomBehind : List Expr → Nat
  | [] => 1
  | e :: es => max (max (e.room + 1) 3) (roomBehind es)

end

section Room

variable (i j : Info) (x y a b : Expr)

theorem room_binary (op : Binary) : (Expr.op i (.binary op) [x, y]).room = max x.room (y.room + 1) :=
  rfl

theorem room_logic {o : Op} (ho : o = .logicAnd ∨ o = .logicOr) :
    (Expr.op i o [x, y]).room = max (max x.room 2) y.room := by
  rcases ho with rfl | rfl <;> rfl

theorem room_unary (u : Unary) : (Expr.op i u.op [x]).room = x.room := by
  cases u <;> rfl

theorem room_not : (Expr.op i .not [x]).room = max x.room 2 :=
  rfl

theorem room_cast (ty : Ty) : (Expr.op i (.cast ty) [x]).room = max x.room 2 :=
  rfl

theorem room_choice : (Expr.op i .conditional [x, .op j .conditionalElse [a, b]]).room =
    max (max x.room 2) (max a.room b.room) :=
  rfl

end Room

theorem room_pos (e : Expr) : 1 ≤ e.room := by
  induction e using induct with
  | h e ih =>
    unfold room
    split
    · have := ih _ (List.mem_cons_self)
      omega
    · split
      case h_7 | h_8 | h_9 => exact ih _ List.mem_cons_self
      all_goals omega
    · omega

end Expr

/-- What the variables hold, outside functions, in memory with the words given. -/
def wordsAt (words : Nat → Cell) : Contents := fun s k => words (s.offset + k)

/-- The two words left by a test compare as the value says. -/
def Compares (op : Binary) (v : Except ValueFault Cell) : Except ValueFault (List Cell) → Prop
  | .ok vs => ∃ x y t w, vs = [y, x] ∧ op.evalCell x y = some t ∧ v = .ok w ∧ (t = 0 ↔ w = 0)
  | .error f => v = .error f

/-- What code for a goal does: it pushes the value, or the two words of a test. -/
def Goal.Computes (node : Node) (slot : Nat) (words : Nat → Cell) (e : Expr) (k : Code) : Goal → Prop
  | value => RobotScript.Computes node slot words e.room [] k
      ((fun v => [v]) <$> e.eval (wordsAt words))
  | test => ∃ r, RobotScript.Computes node slot words (max e.room 2) [] k r ∧
      Compares e.testOp (e.eval (wordsAt words)) r
  | effect => True

variable {node : Node} {c : Coder} {words : Nat → Cell} {slot : Nat}

/-- Code that pushes the value, made to fit a goal. -/
theorem Computes.fit {goal : Goal} {e : Expr} {k : Code}
    (h : Computes node slot words e.room [] k ((fun v => [v]) <$> e.eval (wordsAt words)))
    (hop : goal = .test → e.testOp = .ne) : goal.Computes node slot words e (Coder.reachUsed goal k) := by
  cases goal with
  | value => exact h
  | effect => trivial
  | test =>
    refine ⟨e.eval (wordsAt words) >>= fun v => .ok [0, v], ?_, ?_⟩
    · refine (h.mono (Nat.le_max_left ..)).andThen fun v _ => ?_
      exact (immediate 0).mono (Nat.le_max_right ..)
    · rw [hop rfl]
      cases e.eval (wordsAt words) with
      | error f => rfl
      | ok v =>
        refine ⟨v, 0, _, v, rfl, Binary.evalCell_ne v 0, rfl, ?_⟩
        split <;> simp_all

theorem Fitted.computes {goal : Goal} {e : Expr} {k l : Draft} {t t' : Nat} (hl : Fitted c goal k t l t')
    (h : goal.Computes node slot words e (Coder.reachUsed goal k.code)) :
    goal.Computes node slot words e l.code := by
  cases hl with
  | value => exact h
  | effect => trivial
  | test =>
    rw [Draft.code_append, Draft.code_plain]
    exact h

/-- An element is looked up at a position of the array. -/
def lookup (words : Nat → Cell) (s : Storage) (k : Cell) : Except ValueFault Cell :=
  if k.toUInt16 < UInt16.ofNat s.size then .ok (words (s.offset + k.toUInt16.toNat))
  else .error .indexOutOfRange

/-- What the code of a job computes, as far as it concerns expressions that are
computed directly. -/
def Job.Computes (node : Node) (c : Coder) (words : Nat → Cell) (k : Code) : Job → Prop
  | expr goal e => e.Every (Expr.DirectPart c.node) → goal.Computes node c.slot words e k
  | indices dims 0 stride (e :: es) => stride = 1 →
    (∀ a ∈ e :: es, a.Every (Expr.DirectPart c.node)) →
      RobotScript.Computes node c.slot words (max e.room (Expr.roomBehind es)) [] k
        ((fun p => [p]) <$> Expr.position (wordsAt words) dims 1 (e :: es))
  | indices _ 0 _ [] => True
  | indices dims (j + 1) stride es => (∀ e ∈ es, e.Every (Expr.DirectPart c.node)) → ∀ sum,
      RobotScript.Computes node c.slot words (Expr.roomBehind es) [sum] k
        ((fun p => [sum + p]) <$> Expr.position (wordsAt words) (dims.drop (j + 1)) stride es)
  | position dims (.computed (e :: es)) =>
    (∀ a ∈ e :: es, a.Every (Expr.DirectPart c.node)) →
      RobotScript.Computes node c.slot words (max e.room (Expr.roomBehind es)) [] k
        ((fun p => [p]) <$> Expr.position (wordsAt words) dims 1 (e :: es))
  | place reused (.index _ v es) s spot => reused = false → k = [] ∧ v.storage = some s ∧
      (spot = .computed es ∨ ∃ j, spot = .known j ∧ Expr.knownIndex? es = some j)
  | access .load s (.known j) => s.mode = .absolute → s.offset + j < c.slot →
      RobotScript.Computes node c.slot words 1 [] k (.ok [words (s.offset + j)])
  | access .load s (.computed (e :: es)) => s.mode = .absolute → s.offset + s.size ≤ c.slot →
    (∀ a ∈ e :: es, a.Every (Expr.DirectPart c.node)) →
      RobotScript.Computes node c.slot words (max e.room (Expr.roomBehind es)) [] k
        ((fun v => [v]) <$> (Expr.position (wordsAt words) s.dims 1 (e :: es) >>= lookup words s))
  | _ => True

theorem Coder.slot_lt (c : Coder) : c.slot < 4096 := Nat.mod_lt _ (by decide)

/-! ### Forms of expressions -/

section Forms

variable {x y : Expr} {k k' : Code}

/-- The code pushes the value of the expression. -/
abbrev Pushes (node : Node) (slot : Nat) (words : Nat → Cell) (e : Expr) (k : Code) : Prop :=
  Computes node slot words e.room [] k ((fun v => [v]) <$> e.eval (wordsAt words))

theorem Pushes.number (i : Info) (n : Cell) : Pushes node slot words (.number i n) (plain [.immediate n]) :=
  .immediate n

theorem Computes.compare_zero {b : Binary} {g : Cell → Cell} (hb : ∀ v, b.evalCell v 0 = some (g v))
    (v : Cell) : Computes node slot words 2 [v] (plain [.immediate 0, .binary b]) (.ok [g v]) := by
  show Computes node slot words 2 [v] (plain [.immediate 0] ++ plain [.binary b]) (.ok [g v])
  exact (Computes.immediate 0).seq ((Computes.binary_ok (hb v)).mono (Nat.le_succ 1))

theorem evalCell_ne_zero (v : Cell) : Binary.ne.evalCell v 0 = some (truthCell (v != 0)) := by
  rw [Binary.evalCell_ne]
  by_cases h : v = 0
  · rw [if_pos h, h]
    rfl
  · rw [if_neg h, bne_iff_ne.mpr h]
    rfl

theorem evalCell_eq_zero (v : Cell) : Binary.eq.evalCell v 0 = some (truthCell (v == 0)) := by
  obtain ⟨t, ht, ht'⟩ := Binary.evalCell_negated (b := .eq) rfl v 0
  rw [evalCell_ne_zero, bne] at ht'
  rw [ht]
  revert ht'
  cases t <;> cases v == 0 <;> decide

/-- Whether the first operand of a conjunction or disjunction decides. -/
def Op.decidedBy (o : Op) (p : Cell) : Bool := if o = .logicAnd then p == 0 else p != 0

/-- Conjunction and disjunction of truth values have the value of the operand
that decides. -/
theorem eval_truths {look : Contents} {o : Op} (ho : o = .logicAnd ∨ o = .logicOr) (i : Info)
    (hx : x.ty = .bool) (hy : y.ty = .bool) : (Expr.op i o [x, y]).eval look =
      x.eval look >>= fun p => if o.decidedBy p then .ok p else y.eval look := by
  have hsame : convertCell .bool .bool = id := funext (Expr.convertCell_self .bool)
  have hvalue : (do return id (← y.eval look) : Except ValueFault Cell) = y.eval look := bind_pure _
  rcases ho with rfl | rfl
  · rw [Expr.eval, hx, hy, hsame]
    refine congrArg _ (funext fun p => ?_)
    by_cases h : p = 0
    · rw [h]
      rfl
    · have hopen : Op.logicAnd.decidedBy p = false := beq_eq_false_iff_ne.mpr h
      rw [hopen]
      exact (if_neg h).trans hvalue
  · rw [Expr.eval, hx, hy, hsame]
    refine congrArg _ (funext fun p => ?_)
    by_cases h : p = 0
    · rw [h]
      exact hvalue
    · have hdecided : Op.logicOr.decidedBy p = true := bne_iff_ne.mpr h
      rw [hdecided]
      exact if_neg h

variable (i : Info) (hx : Pushes node slot words x k)

include hx

/-- A value is pushed, then changed. -/
theorem Pushes.change {g : Cell → Cell} {o : Op} {n : Nat} (hroom : (Expr.op i o [x]).room = max x.room n)
    (hvalue : (Expr.op i o [x]).eval (wordsAt words) = g <$> x.eval (wordsAt words))
    (hchange : ∀ v, Computes node slot words n [v] k' (.ok [g v])) :
    Pushes node slot words (.op i o [x]) (k ++ k') := by
  have hmap : (fun v => [v]) <$> (g <$> x.eval (wordsAt words)) =
      x.eval (wordsAt words) >>= fun v => .ok [g v] := by
    cases x.eval (wordsAt words) <;> rfl
  unfold Pushes
  rw [hroom, hvalue, hmap]
  exact (hx.mono (Nat.le_max_left ..)).andThen fun v _ => (hchange v).mono (Nat.le_max_right ..)

theorem Pushes.unary {u : Unary} : Pushes node slot words (.op i u.op [x]) (k ++ plain [.unary u]) := by
  refine hx.change i (n := 1) ?_ (Expr.eval_unary i u x) fun v => .unary u v
  rw [Expr.room_unary, Nat.max_eq_left x.room_pos]

theorem Pushes.not : Pushes node slot words (.op i .not [x]) (k ++ plain [.immediate 0, .binary .eq]) :=
  hx.change i (Expr.room_not i x) (Expr.eval_not i x) (Computes.compare_zero evalCell_eq_zero)

/-- A negation is left to the branch behind its operand. -/
theorem Pushes.notTest : Goal.test.Computes node slot words (.op i .not [x]) (k ++ plain [.immediate 0]) := by
  refine ⟨x.eval (wordsAt words) >>= fun v => .ok [0, v], ?_, ?_⟩
  · rw [Expr.room_not]
    refine (hx.mono (by omega)).andThen fun v _ => ?_
    exact (Computes.immediate 0).mono (by rw [List.length_singleton]; omega)
  · rw [Expr.eval_not]
    cases x.eval (wordsAt words) with
    | error f => rfl
    | ok v => exact ⟨v, 0, _, _, rfl, evalCell_eq_zero v, rfl, Iff.rfl⟩

theorem Pushes.cast {ty : Ty} (c : Coder) (hty : x.ty.IsWhole) (hwhole : ty.IsWhole) :
    Pushes node slot words (.op i (.cast ty) [x]) (k ++ plain (c.convert x.ty ty)) := by
  refine hx.change i (Expr.room_cast i x ty) (Expr.eval_cast_op i ty x) fun v => ?_
  have hnone (h : c.convert x.ty ty = []) (hv : convertCell x.ty ty v = v) :
      Computes node slot words 2 [v] (plain (c.convert x.ty ty)) (.ok [convertCell x.ty ty v]) := by
    rw [h, hv]
    exact .nil 2 [v]
  rcases hwhole with rfl | rfl
  · refine hnone ?_ (Expr.convertCell_int x.ty v)
    rcases hty with h | h <;> rw [h] <;> rfl
  · rcases hty with h | h
    · have hconvert : c.convert x.ty .bool = [.immediate 0, .binary .ne] := by
        rw [h]
        rfl
      have hcell (v : Cell) : convertCell x.ty .bool v = truthCell (v != 0) := by
        rw [h]
        rfl
      rw [hconvert, hcell]
      exact Computes.compare_zero evalCell_ne_zero v
    · refine hnone ?_ ?_
      · rw [h]; rfl
      · rw [h]; exact Expr.convertCell_self _ v

section

variable (hy : Pushes node slot words y k')

include hy

theorem Pushes.binary {b : Binary} :
    Pushes node slot words (.op i (.binary b) [x, y]) (k ++ k' ++ plain [.binary b]) := by
  unfold Pushes
  rw [Expr.room_binary, Expr.eval_binary, map_bind, List.append_assoc]
  refine (hx.mono (Nat.le_max_left ..)).andThen fun p _ => ?_
  rw [map_bind]
  refine ((hy.under_value [p]).mono (Nat.le_max_right ..)).andThen fun q _ => ?_
  refine (Computes.binary b p q).mono ?_
  rw [List.length_nil, List.length_singleton]
  omega

/-- A comparison is left to the branch behind its operands. -/
theorem Pushes.compare {b : Binary} (hb : b.isComparison = true) :
    Goal.test.Computes node slot words (.op i (.binary b) [x, y]) (k ++ k') := by
  have hop : (Expr.op i (.binary b) [x, y]).testOp = b := if_pos hb
  refine ⟨x.eval (wordsAt words) >>= fun p => (fun q => [q, p]) <$> y.eval (wordsAt words), ?_, ?_⟩
  · rw [Expr.room_binary]
    refine (hx.mono (by omega)).andThen fun p _ => ?_
    refine (hy.under_value [p]).mono ?_
    rw [List.length_singleton]
    omega
  · rw [hop, Expr.eval_binary]
    cases x.eval (wordsAt words) with
    | error f => rfl
    | ok p =>
      cases y.eval (wordsAt words) with
      | error f => rfl
      | ok q =>
        obtain ⟨t, ht⟩ := Binary.exists_evalCell hb p q
        refine ⟨p, q, t, t, rfl, ht, ?_, Iff.rfl⟩
        show applyBinary b p q = .ok t
        rw [applyBinary, ht]

theorem Pushes.logic {o : Op} {a : Word} {skip : Instr} (ho : o = .logicAnd ∨ o = .logicOr)
    (ha : a.toNat % 4096 = slot) (hxty : x.ty = .bool) (hyty : y.ty = .bool)
    (hskip : jumpBy? (1 + size k') = some skip) :
    Pushes node slot words (.op i o [x, y]) (k ++ plain [.store a, .load a, .immediate 0,
      .branch (if o = .logicAnd then .eq else .ne) false 4, .load a] ++ plain [skip] ++ k') := by
  unfold Pushes
  rw [Expr.room_logic i x y ho, eval_truths ho i hxty hyty, map_bind, List.append_assoc,
    List.append_assoc]
  refine (hx.mono (by omega)).andThen fun p _ => ?_
  have hv : (if o = .logicAnd then Binary.eq else .ne).evalCell p 0 = some (truthCell (o.decidedBy p)) := by
    rcases ho with rfl | rfl
    · exact evalCell_eq_zero p
    · exact evalCell_ne_zero p
  generalize o.decidedBy p = decided at hv ⊢
  refine Computes.decide ha hv hskip (by omega) (fun h => ?_) fun h => ?_
  · cases decided with
    | true => cases h
    | false => exact hy.mono (by omega)
  · cases decided with
    | true => rfl
    | false => exact absurd rfl h

/-- The choice between two values. -/
theorem Pushes.choice {cond : Expr} {k0 : Code} {br skip : Instr} (j : Info)
    (hbr : branchBy? cond.testOp false (2 + size k + 1) = some br)
    (hskip : jumpBy? (1 + size k') = some skip) (hcond : Goal.test.Computes node slot words cond k0) :
    Pushes node slot words (.op i .conditional [cond, .op j .conditionalElse [x, y]])
      (k0 ++ plain [br] ++ k ++ plain [skip] ++ k') := by
  obtain ⟨r, hr, htest⟩ := hcond
  unfold Pushes
  rw [Expr.room_choice, Expr.eval]
  simp only [List.append_assoc]
  have hr' := hr.mono (Nat.le_max_left _ (max x.room y.room))
  cases r with
  | error f =>
    rw [show cond.eval (wordsAt words) = .error f from htest]
    exact hr'.append (f := fun _ => .error f) fun vs hvs => by cases hvs
  | ok vs =>
    obtain ⟨p, q, t, w, rfl, ht, hcond, htw⟩ := htest
    rw [hcond]
    refine hr'.append (f := fun _ => (fun v => [v]) <$> if w = 0 then y.eval (wordsAt words)
      else x.eval (wordsAt words)) fun vs hvs => ?_
    obtain rfl := Except.ok.inj hvs
    refine Computes.branch ht hbr hskip (fun h => ?_) (fun h => ?_)
    · rw [if_neg (fun hw => h (htw.mpr hw))]
      exact hx.mono (by omega)
    · rw [if_pos (htw.mp h)]
      exact hy.mono (by omega)

end

/-! ### Elements -/

/-- The index behind others is added to the position so far. -/
theorem Pushes.indexBehind {es : List Expr} {dims : List Nat} {stride : Nat} {sum : Cell}
    (hes : ∀ sum, Computes node slot words (Expr.roomBehind es) [sum] k'
      ((fun p => [sum + p]) <$> Expr.position (wordsAt words) dims.tail (stride * dims.headD 1) es)) :
    Computes node slot words (Expr.roomBehind (x :: es)) [sum] (k ++ (plain
      (if stride = 1 then [] else [Coder.pushNat stride, .binary .mult]) ++ (plain [.binary .add] ++ k')))
      ((fun p => [sum + p]) <$> Expr.position (wordsAt words) dims stride (x :: es)) := by
  rw [Expr.roomBehind, Expr.position, map_bind]
  refine ((hx.under_value [sum]).mono (by rw [List.length_singleton]; omega)).andThen fun v _ => ?_
  have hvalue : (fun p => [sum + p]) <$> (do
      let rest ← Expr.position (wordsAt words) dims.tail (stride * dims.headD 1) es
      return v * Int16.ofNat stride + rest) = (fun p => [sum + v * Int16.ofNat stride + p]) <$>
        Expr.position (wordsAt words) dims.tail (stride * dims.headD 1) es := by
    cases Expr.position (wordsAt words) dims.tail (stride * dims.headD 1) es with
    | error f => rfl
    | ok p =>
      show Except.ok [sum + (v * Int16.ofNat stride + p)] = .ok [sum + v * Int16.ofNat stride + p]
      rw [Int16.add_assoc]
  rw [hvalue]
  refine ((Computes.scale stride v).mono (by rw [List.length_singleton]; omega)).seq ?_
  refine ((Computes.binary_ok (Binary.evalCell_add sum _)).mono (by rw [List.length_nil]; omega)).seq ?_
  exact (hes _).mono (by omega)

/-- The first index is the position so far. -/
theorem Pushes.indexFirst {es : List Expr} {dims : List Nat}
    (hes : ∀ sum, Computes node slot words (Expr.roomBehind es) [sum] k'
      ((fun p => [sum + p]) <$> Expr.position (wordsAt words) dims.tail (1 * dims.headD 1) es)) :
    Computes node slot words (max x.room (Expr.roomBehind es)) [] (k ++ k')
      ((fun p => [p]) <$> Expr.position (wordsAt words) dims 1 (x :: es)) := by
  rw [Expr.position, map_bind]
  refine (hx.mono (Nat.le_max_left ..)).andThen fun v _ => ?_
  have hvalue : (fun p => [p]) <$> (do
      let rest ← Expr.position (wordsAt words) dims.tail (1 * dims.headD 1) es
      return v * Int16.ofNat 1 + rest) = (fun p => [v + p]) <$>
        Expr.position (wordsAt words) dims.tail (1 * dims.headD 1) es := by
    cases Expr.position (wordsAt words) dims.tail (1 * dims.headD 1) es with
    | error f => rfl
    | ok p =>
      show Except.ok [v * 1 + p] = .ok [v + p]
      rw [Int16.mul_one]
  rw [hvalue]
  exact (hes v).mono (Nat.le_max_right ..)

end Forms

theorem Coder.scaledOperands_whole (c : Coder) (b : Binary) {p q : Ty} (hp : p.IsWhole) (hq : q.IsWhole)
    (k k' : Draft) : c.scaledOperands b p q k k' = none := by
  rcases hp with rfl | rfl <;> rcases hq with rfl | rfl <;> cases b <;> rfl

theorem Op.isAssignment_of_isIntegral {o : Op} (h : o.isIntegral = true) : o.isAssignment = false := by
  cases o with
  | assign | compound _ | preIncrement | preDecrement | postIncrement | postDecrement => cases h
  | _ => rfl

theorem Op.eq_of_unary? {o : Op} {u : Unary} (h : o.unary? = some u) : o = u.op := by
  cases o with
  | negate | abs | bitNot =>
    obtain rfl := Option.some.inj h
    rfl
  | _ => cases h

theorem Expr.eq_of_knownIndex? {es : List Expr} {j : Nat} (h : Expr.knownIndex? es = some j) :
    ∃ i n, es = [.number i n] ∧ 0 ≤ n ∧ n.toInt.toNat = j := by
  unfold Expr.knownIndex? at h
  split at h
  · split at h
    · rename_i hn
      exact ⟨_, _, rfl, hn, Option.some.inj h⟩
    · cases h
  · cases h

/-- A constant index that is one of the array is looked up. -/
theorem lookup_known {s : Storage} {n : Cell} (hn : 0 ≤ n) (hlt : n.toInt.toNat < s.size)
    (hsize : s.size < 65536) : lookup words s n = .ok (words (s.offset + n.toInt.toNat)) := by
  have hle : 0 ≤ n.toInt := Int16.le_iff_toInt_le.mp hn
  have hnat : n.toUInt16.toNat = n.toInt.toNat := by
    have hcases := Machine.toUInt16_toNat_cases n
    omega
  have hin : n.toUInt16 < UInt16.ofNat s.size := by
    rw [UInt16.lt_iff_toNat_lt, UInt16.toNat_ofNat', hnat]
    omega
  rw [lookup, if_pos hin, hnat]

theorem eval_index {i : Info} {v : Variable} {s : Storage} (hv : v.storage = some s) (es : List Expr) :
    (Expr.index i v es).eval (wordsAt words) =
      Expr.position (wordsAt words) s.dims 1 es >>= lookup words s := by
  rw [Expr.eval, hv]
  rfl

/-- What the code of an expression computes, form by form. -/
theorem Emits.computes (hslot : c.slot = c.node.returnSlot) {job : Job} {t t' : Nat} {k : Draft}
    (h : Emits c job t k t') : job.Computes node c words k.code := by
  induction h with
  | @number goal i n t =>
    intro _
    rw [Draft.code_reachPure, Draft.code_plain]
    have hpush : goal.Computes node c.slot words (.number i n)
        (Coder.reachUsed goal (plain [.immediate n])) :=
      Computes.fit (Pushes.number i n) fun _ => rfl
    cases goal with
    | effect => trivial
    | value | test => exact hpush
  | @var goal s t k t' i v hgoal hv hsize hk ih =>
    intro he
    obtain ⟨s', hs', hmode, hone, hbelow⟩ := he.top.direct
    obtain rfl : s = s' := Option.some.inj (hv.symm.trans hs')
    rw [Draft.code_reachUsed]
    refine Computes.fit ?_ fun _ => rfl
    have hload := ih hmode (by omega)
    have hvalue : (Expr.var i v).eval (wordsAt words) = .ok (words (s.offset + 0)) := by
      rw [Expr.eval, hv]
      exact if_pos hsize
    rw [hvalue]
    exact hload
  | @index i v es s spot t k t1 k' t2 goal l t' hk hk' hl ih ih' =>
    intro he
    obtain ⟨hsome, s', hs', hmode, hpos, hbelow⟩ := he.top.direct
    obtain ⟨hnil, hv, hspot⟩ := ih rfl
    obtain rfl : s = s' := Option.some.inj (hv.symm.trans hs')
    have hlt : s.offset + volume s.dims < 4096 := by
      have := c.slot_lt
      omega
    have hwords : s.size = volume s.dims := Storage.size_eq (by omega)
    refine hl.computes (Computes.fit ?_ fun _ => rfl)
    rw [Draft.code_append, hnil, List.nil_append, eval_index hv]
    rcases hspot with rfl | ⟨j, rfl, hj⟩
    · cases es with
      | nil => exact absurd rfl hsome
      | cons e es =>
        rw [Expr.room]
        exact ih' hmode (by omega) he.operands
    · obtain ⟨j', n, rfl, hn, rfl⟩ := Expr.eq_of_knownIndex? hj
      have hin : n.toInt.toNat < s.size := hwords ▸ he.top.folded s j' n hv rfl hn hpos
      have hvalue : Expr.position (wordsAt words) s.dims 1 [.number j' n] >>= lookup words s =
          .ok (words (s.offset + n.toInt.toNat)) := by
        rw [Expr.position_single]
        exact lookup_known hn hin (by omega)
      rw [hvalue]
      exact (ih' hmode (by omega)).mono (Expr.room_pos _)
  | @comparison x t k t1 y k' t' i b hb hk hk' ih ih' =>
    intro he
    have hx := ih (he.operands x (by simp [Expr.operands]))
    have hy := ih' (he.operands y (by simp [Expr.operands]))
    rw [Draft.code_append]
    exact Pushes.compare i hx hy hb
  | @binary goal x t k t1 y k' t2 b l t3 l' t' i hgoal hk hk' hl hl' ih ih' =>
    intro he
    have hxp := he.operands x (by simp [Expr.operands])
    have hyp := he.operands y (by simp [Expr.operands])
    cases hl with
    | scaled h _ =>
      rw [c.scaledOperands_whole b hxp.top.ty hyp.top.ty] at h
      cases h
    | plainly _ =>
      refine hl'.computes (Computes.fit ?_ fun htest => ?_)
      · rw [Draft.code_append, Draft.code_append, Draft.code_plain]
        exact Pushes.binary i (ih hxp) (ih' hyp)
      · exact if_neg fun hb => hgoal ⟨htest, hb⟩
  | @logic o x t k t1 y k' t2 skip goal l t' i ho hk hk' hskip hl ih ih' =>
    intro he
    have hxp := he.operands x (by simp [Expr.operands])
    have hyp := he.operands y (by simp [Expr.operands])
    have htruth (a : Expr) (ha : a ∈ [x, y]) : a.ty = .bool := by
      refine (he.top.folded.truths ho a ha).resolve_right fun hvoid => ?_
      have hwhole := (he.operands a ha).top.ty
      rw [hvoid] at hwhole
      exact absurd hwhole (by decide)
    refine hl.computes (Computes.fit ?_ fun _ => ?_)
    · simp only [Draft.code_append, Draft.code_plain]
      exact Pushes.logic i (ih hxp) (ih' hyp) ho rfl (htruth x (by simp)) (htruth y (by simp)) hskip
    · rcases ho with rfl | rfl <;> rfl
  | @unary u x t k t1 goal l t' i o ho hk hl ih =>
    intro he
    obtain rfl := Op.eq_of_unary? ho
    refine hl.computes (Computes.fit ?_ fun _ => by cases u <;> rfl)
    rw [Draft.code_append, Draft.code_plain]
    exact Pushes.unary i (ih (he.operands x (by simp [Expr.operands])))
  | @notTest x t k t' i hk ih =>
    intro he
    rw [Draft.code_append, Draft.code_plain]
    exact Pushes.notTest i (ih (he.operands x (by simp [Expr.operands])))
  | @not goal x t k t1 l t' i hgoal hk hl ih =>
    intro he
    refine hl.computes (Computes.fit ?_ fun htest => absurd htest hgoal)
    rw [Draft.code_append, Draft.code_plain]
    exact Pushes.not i (ih (he.operands x (by simp [Expr.operands])))
  | @cast x t k t1 goal ty l t' i hk hl ih =>
    intro he
    have hxp := he.operands x (by simp [Expr.operands])
    refine hl.computes (Computes.fit ?_ fun _ => rfl)
    rw [Draft.code_append, Draft.code_plain]
    exact Pushes.cast i (ih hxp) c hxp.top.ty (by simpa [Op.isIntegral] using he.top.direct.1)
  | @choice t k t1 a k1 t2 branch b k2 t3 skip goal l t' i j cond hk hk1 hbranch hk2 hskip hl ih ih1 ih2 =>
    intro he
    have helse := he.operands (.op j .conditionalElse [a, b]) (by simp [Expr.operands])
    refine hl.computes (Computes.fit ?_ fun _ => rfl)
    simp only [Draft.code_append, Draft.code_plain]
    exact Pushes.choice i (ih1 (helse.operands a (by simp [Expr.operands])))
      (ih2 (helse.operands b (by simp [Expr.operands]))) j hbranch hskip
      (ih (he.operands cond (by simp [Expr.operands])))
  | @indexOf e t k t1 dims j stride es k' t' hk hk' ih ih' =>
    have hdims : (dims.drop j).tail = dims.drop (j + 1) := List.tail_drop
    have hhead : (dims.drop j).headD 1 = dims[j]?.getD 1 := by
      rw [List.headD_eq_head?_getD, List.head?_drop]
    simp only [Draft.code_append, Draft.code_plain]
    cases j with
    | zero =>
      rintro rfl hes
      rw [List.drop_zero] at hdims hhead
      have hrest := ih' fun a ha => hes a (List.mem_cons_of_mem _ ha)
      rw [← hdims, ← hhead] at hrest
      rw [if_pos rfl, if_pos rfl, List.append_assoc]
      exact Pushes.indexFirst (ih (hes e List.mem_cons_self)) hrest
    | succ j =>
      intro hes sum
      have hrest := ih' fun a ha => hes a (List.mem_cons_of_mem _ ha)
      rw [← hdims, ← hhead] at hrest
      have hcode (scale : List Instr) : k.code ++ Code.plain (scale ++ [.binary .add]) ++ k'.code =
          k.code ++ (plain scale ++ (plain [.binary .add] ++ k'.code)) := by
        simp only [plain, List.map_append, List.append_assoc]
      rw [if_neg (Nat.succ_ne_zero j), hcode]
      exact Pushes.indexBehind (ih (hes e List.mem_cons_self)) hrest
  | @computed dims es t k t' hk ih =>
    cases es with
    | nil => trivial
    | cons e es => exact ih rfl
  | varPlace => trivial
  | savedPlace => rintro ⟨⟩
  | knownPlace hv hes => exact fun _ => ⟨rfl, hv, .inr ⟨_, rfl, hes⟩⟩
  | computedPlace hv hes => exact fun _ => ⟨rfl, hv, .inl rfl⟩
  | @direct is use s j t h hs =>
    cases use with
    | load =>
      intro hmode hlt
      obtain rfl : [.load (UInt16.ofNat (s.offset + j))] = is := by
        simpa [Storage.fixed?, hmode, Use.direct] using h
      rw [Draft.code_note, Draft.code_plain]
      exact Computes.load hlt c.slot_lt
    | store | address => trivial
  | @indexed spot t k t' use s h hs hk ih =>
    cases use with
    | load =>
      cases spot with
      | known j =>
        intro hmode
        simp [Storage.direct?, Storage.fixed?, hmode] at h
      | saved temp => trivial
      | computed es =>
        cases es with
        | nil => trivial
        | cons e es =>
          intro hmode hbelow hes
          have hfront : s.front c .load = [] := by simp [Storage.front, hmode]
          have hback : s.back c .load =
              [.loadIndirect (UInt16.ofNat s.offset) (UInt16.ofNat s.size)] := by
            simp [Storage.back, hmode, Use.indirect]
          rw [Draft.code_append, Draft.code_append, Draft.code_plain, Draft.code_note,
            Draft.code_plain, hfront, hback, map_bind]
          refine Computes.andThen (ih hes) fun p _ => ?_
          have hload : (fun v => [v]) <$> lookup words s p = if p.toUInt16 < UInt16.ofNat s.size
              then .ok [words (s.offset + p.toUInt16.toNat)] else .error .indexOutOfRange := by
            unfold lookup
            split <;> rfl
          rw [hload]
          refine (Computes.loadIndirect hbelow c.slot_lt p).mono ?_
          have := e.room_pos
          rw [List.length_nil]
          omega
    | store | address => trivial
  | @noIndex dims j stride t =>
    cases j with
    | zero => trivial
    | succ j =>
      intro _ sum
      show Computes node c.slot words 1 [sum] [] (.ok [sum + 0])
      rw [Int16.add_zero]
      exact .nil 1 [sum]
  | fixed | placeholder | call | native | absolute =>
    intro he
    exact he.top.direct.elim
  | comma =>
    intro he
    exact absurd rfl he.top.direct.2
  | assign =>
    intro he
    cases he.top.direct.1
  | @post o _ _ _ _ _ _ _ _ _ _ _ _ _ _ _ _ _ ho =>
    intro he
    rcases ho with rfl | rfl <;> cases he.top.direct.1
  | @update o _ _ _ _ _ _ _ _ _ _ _ _ _ _ _ _ _ ho =>
    intro he
    rw [Op.isAssignment_of_isIntegral he.top.direct.1] at ho
    cases ho
  | unusedVar => exact fun _ => trivial
  | _ => trivial

/-- The code of an expression for a goal does what the goal says. -/
theorem Expr.code_computes {goal : Goal} {e : Expr} {k : Code} (hslot : c.slot = c.node.returnSlot)
    (he : e.Every (Expr.DirectPart c.node)) (hk : (e.code c goal).Gives k) :
    goal.Computes node c.slot words e k := by
  obtain ⟨s, s', hrun⟩ := hk
  obtain ⟨-, K, rfl, hK⟩ := (Expr.drafted e).code goal s.nextTemp s k s' rfl hrun
  exact hK.computes hslot he

theorem Coder.slot_eq (hsize : c.node.maxVarSize ≤ 4096) (htwo : 2 ≤ c.node.maxVarSize) :
    c.slot = c.node.returnSlot := by
  rw [Coder.slot, Coder.returnSlot, UInt16.toNat_ofNat', Node.returnSlot]
  omega

/-- Any memory of the node shows its own words. -/
theorem Machine.State.shows_word {m : State} (hmemory : slot < m.memory.size) : m.Shows m.word slot := by
  refine ⟨fun a ha => ?_, hmemory⟩
  rw [State.word, Array.getD_eq_getD_getElem?, Array.getElem?_eq_getElem (by omega)]
  rfl

/-- A branch behind the two words of a test goes on behind itself or to its
target, as the value says. -/
theorem Goal.Computes.branch {e : Expr} {k : Code} {d : Int} {br : Instr} {m : State} {q : Nat}
    (h : Goal.test.Computes node slot words e k) (hbr : branchBy? e.testOp false d = some br)
    (hstands : (k ++ plain [br]).Stands m.image m.pc) (hq : ((m.pc + size k : Nat) : Int) + d = q)
    (hshows : m.Shows words slot) (hroom : m.stack.length + max e.room 2 ≤ Machine.stackSize) :
    match e.eval (wordsAt words) with
    | .ok v => Outcome node slot m.stack (if v = 0 then q else m.pc + size (k ++ plain [br])) m (.ok [])
    | .error f => Outcome node slot m.stack q m (.error f) := by
  obtain ⟨r, hcomputes, htest⟩ := h
  have hout := (hcomputes m m.pc m.stack hstands.left rfl hshows rfl hroom).outcome
  cases r with
  | error f =>
    rw [show e.eval (wordsAt words) = .error f from htest]
    exact hout
  | ok vs =>
    obtain ⟨x, y, t, v, rfl, ht, hv, htv⟩ := htest
    rw [hv]
    obtain ⟨w, hreached⟩ := hout
    obtain ⟨o, rfl, rfl⟩ := branchBy?_eq_some hbr
    obtain ⟨held, hbranch⟩ := hstands.right.instr
    have hshows' := hshows.arrived w ([y, x] ++ m.stack) (m.pc + size k)
    obtain ⟨w', hw'⟩ := hshows'.exists_arrived
    have hstep : (Machine.step node).run (m.arrived slot w ([y, x] ++ m.stack) (m.pc + size k)) = _ :=
      hbranch.step_compare rfl ht hq
    refine ⟨w', hreached.trans (.head hstep ?_)⟩
    have hend : (if t = 0 then q else m.pc + size k + 2) =
        if v = 0 then q else m.pc + size (k ++ plain [.branch e.testOp false o]) := by
      by_cases h0 : v = 0
      · rw [if_pos h0, if_pos (htv.mpr h0)]
      · rw [if_neg h0, if_neg (fun h => h0 (htv.mp h)), Code.size_append, Code.size_branch hbr,
          Nat.add_assoc]
    rw [← State.arrived_arrived m slot w w' ([y, x] ++ m.stack) _ (m.pc + size k), hw', ← hend]
    exact .refl _

/-- A machine that holds the code of an expression anywhere, and stands at its
start, comes to its end with the value on the stack and memory as it was but for
the return slot, or stops with the fault of the value. With a branch behind the
code of a test it comes behind the branch if the value is not zero and to the
target of the branch if it is, with the stack as it was. -/
theorem expression_code_computes {c : Coder} {source e : Expr} (hfold : source.fold = .ok e)
    (hparts : ∀ a ∈ e.parts, a.ty.IsWhole ∧ a.IsDirect c.node)
    (hnode : 2 ≤ c.node.maxVarSize ∧ c.node.maxVarSize ≤ 4096) (m : State)
    (hmemory : m.memory.size = c.node.maxVarSize) :
    (∀ k, (e.code c .value).Gives k → k.Stands m.image m.pc →
      m.stack.length + e.room ≤ Machine.stackSize →
      Outcome c.node c.node.returnSlot m.stack (m.pc + size k) m
        ((fun v => [v]) <$> e.eval (wordsAt m.word))) ∧
    ∀ k d br q, (e.code c .test).Gives k → branchBy? e.testOp false d = some br →
      (k ++ plain [br]).Stands m.image m.pc → ((m.pc + size k : Nat) : Int) + d = (q : Nat) →
      m.stack.length + max e.room 2 ≤ Machine.stackSize →
      match e.eval (wordsAt m.word) with
      | .ok v => Outcome c.node c.node.returnSlot m.stack
          (if v = 0 then q else m.pc + size (k ++ plain [br])) m (.ok [])
      | .error f => Outcome c.node c.node.returnSlot m.stack q m (.error f) := by
  have hslot := Coder.slot_eq hnode.2 hnode.1
  have hshows : m.Shows m.word c.slot := by
    refine Machine.State.shows_word ?_
    rw [hslot, hmemory, Node.returnSlot]
    omega
  have hevery : e.Every (Expr.DirectPart c.node) := fun a ha =>
    ⟨(hparts a ha).1, (hparts a ha).2, (Expr.fold_isFolded source).of_ok hfold a ha⟩
  rw [← hslot]
  refine ⟨fun k hk hstands hroom => ?_, fun k d br q hk hbr hstands hq hroom => ?_⟩
  · exact (Expr.code_computes hslot hevery hk m m.pc m.stack hstands rfl hshows rfl hroom).outcome
  · exact (Expr.code_computes hslot hevery hk).branch hbr hstands hq hshows hroom

/-- `b && a[x, 1] > x ? -x : 7` with `x` and `b` one and `a[1, 1]` eight. -/
theorem expression_code_computes_choice : ∃ (c : Coder) (e : Expr) (k : Code) (m : State),
    e.fold = .ok e ∧ (e.code c .value).Gives k ∧ k.Stands m.image m.pc ∧
      m.memory = #[1, 1, 5, 6, 7, 8, 0, 0, 0, 0, 0, 0] ∧
      Outcome c.node 10 [] (m.pc + size k) m (.ok [-1]) := by
  let node : Node := ⟨"", 12, [], [], []⟩
  let c : Coder := ⟨node, ⟨.l2, 1, []⟩, 6, none, .stop⟩
  let num : Info := .scalar default .int
  let truth : Info := .scalar default .bool
  let x : Expr := .var num ⟨"x", some ⟨0, [], .int, .absolute⟩⟩
  let b : Expr := .var truth ⟨"b", some ⟨1, [], .bool, .absolute⟩⟩
  let a : Expr := .index num ⟨"a", some ⟨2, [2, 2], .int, .absolute⟩⟩ [x, .number num 1]
  let e : Expr := .op num .conditional [.op truth .logicAnd [b, .op truth (.binary .gt) [a, x]],
    .op num .conditionalElse [.op num .negate [x], .number num 7]]
  have hsome : ((e.code c .value) ⟨10, default⟩).toOption.isSome = true := by decide +kernel
  obtain ⟨⟨k, s'⟩, hrun⟩ := Option.isSome_iff_exists.mp hsome
  have hcode : (e.code c .value).Gives k := ⟨_, s', eq_ok_of_toOption hrun⟩
  let memory : Array Cell := #[1, 1, 5, 6, 7, 8, 0, 0, 0, 0, 0, 0]
  let m : State := { State.start node k.words with memory }
  have hfold : e.fold = .ok e := rfl
  have hparts : ∀ a ∈ e.parts, a.ty.IsWhole ∧ a.IsDirect node := by decide +kernel
  have hroom : 0 + e.room ≤ Machine.stackSize := by decide +kernel
  have hvalue : e.eval (wordsAt fun a => memory.getD a 0) = .ok (-1) := by decide +kernel
  have hcomputes := (expression_code_computes hfold hparts (by decide) m rfl).1 k hcode
    k.stands_words hroom
  rw [show e.eval (wordsAt m.word) = .ok (-1) from hvalue] at hcomputes
  exact ⟨c, e, k, m, hfold, hcode, k.stands_words, rfl, hcomputes⟩

end RobotScript
