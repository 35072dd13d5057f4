/-
# Values of expressions

`Expr.eval` says what an expression over numbers and truth values is worth, in
the arithmetic of the machine: results are cut to a cell, `&&`, `||` and `?:`
evaluate no more than they need, and what has no value is a fault. Operands
that must be truth values are converted where their type says that they are
none. An expression that is not made for the machine's cells, or that has an
effect, is given no value.

Key definitions: `Contents`, `Expr.eval`, `Expr.position`.
Key theorems: `Expr.eval_cast`, `Expr.position_flatIndex`.
-/
import RobotScript.Expr.Folding

namespace RobotScript

open Machine (Unary Binary)

/-- What the variables hold: the word of a variable at a position in storage
order. -/
abbrev Contents := Storage → Nat → Cell

/-- Why an expression has no value. -/
inductive ValueFault where
  | divisionByZero
  | indexOutOfRange
  /-- It is no expression over numbers and truth values. -/
  | noValue
  deriving DecidableEq, Repr

/-- The type of numbers or of truth values. -/
def Ty.IsWhole (ty : Ty) : Prop := ty = .int ∨ ty = .bool

instance (ty : Ty) : Decidable ty.IsWhole := inferInstanceAs (Decidable (_ ∨ _))

/-- A truth value as a cell. -/
def truthCell (b : Bool) : Cell := if b then 1 else 0

/-- A cell of one type converted to another; numbers and truth values only. -/
def convertCell (source target : Ty) (v : Cell) : Cell :=
  if target = .bool ∧ source ≠ .bool then truthCell (v != 0) else v

/-- The value of an operator of the machine. -/
def applyBinary (b : Binary) (p q : Cell) : Except ValueFault Cell :=
  match b.evalCell p q with
  | some v => .ok v
  | none => .error .divisionByZero

namespace Expr

mutual

/-- The value of an expression over numbers and truth values. -/
def eval (look : Contents) : Expr → Except ValueFault Cell
  | number _ n => .ok n
  | var _ v =>
    match v.storage with
    | some s => if s.size = 1 then .ok (look s 0) else .error .noValue
    | none => .error .noValue
  | index _ v es =>
    match v.storage with
    | some s => do
      let k ← position look s.dims 1 es
      if k.toUInt16 < UInt16.ofNat s.size then .ok (look s k.toUInt16.toNat)
      else .error .indexOutOfRange
    | none => .error .noValue
  | op _ o args =>
    match o, args with
    | .binary b, [x, y] => do
      let p ← eval look x
      let q ← eval look y
      applyBinary b p q
    | .logicAnd, [x, y] => do
      let p := convertCell x.ty .bool (← eval look x)
      if p = 0 then return p else return convertCell y.ty .bool (← eval look y)
    | .logicOr, [x, y] => do
      let p := convertCell x.ty .bool (← eval look x)
      if p = 0 then return convertCell y.ty .bool (← eval look y) else return p
    | .negate, [x] => return Unary.neg.evalCell (← eval look x)
    | .abs, [x] => return Unary.abs.evalCell (← eval look x)
    | .bitNot, [x] => return Unary.bitNot.evalCell (← eval look x)
    | .not, [x] => return truthCell ((← eval look x) == 0)
    | .cast ty, [x] => return convertCell x.ty ty (← eval look x)
    | .conditional, [cond, op _ .conditionalElse [a, b]] => do
      if (← eval look cond) = 0 then eval look b else eval look a
    | .comma, [a, b] => do
      let _ ← eval look a
      eval look b
    | _, _ => .error .noValue
  | fixed _ _ | array _ _ | call _ _ _ _ | placeholder _ => .error .noValue

/-- The position in storage order of the element with the given indices, of
which the first counts strides of the size given. -/
def position (look : Contents) (dims : List Nat) (stride : Nat) : List Expr → Except ValueFault Cell
  | [] => .ok 0
  | e :: es => do
    let k ← eval look e
    let rest ← position look dims.tail (stride * dims.headD 1) es
    return k * Int16.ofNat stride + rest

end

variable {look : Contents} {e x y : Expr}

/-- The value does not depend on the type that is noted for it. -/
@[simp] theorem eval_withTy (e : Expr) (ty : Ty) : (e.withTy ty).eval look = e.eval look := by
  cases e with
  | op i o args =>
    show eval look (op _ o args) = eval look (op i o args)
    unfold eval
    rfl
  | _ => rfl

@[simp] theorem eval_int (n : Cell) (span : Span) : (int n span).eval look = .ok n := rfl

@[simp] theorem eval_bool (b : Bool) (span : Span) : (bool b span).eval look = .ok (truthCell b) := rfl

theorem eval_binary (i : Info) (b : Binary) (x y : Expr) : (op i (.binary b) [x, y]).eval look =
    (do let p ← x.eval look; let q ← y.eval look; applyBinary b p q) :=
  rfl

theorem eval_not (i : Info) (x : Expr) :
    (op i .not [x]).eval look = (fun v => truthCell (v == 0)) <$> x.eval look := by
  rw [map_eq_pure_bind]
  rfl

theorem eval_cast_op (i : Info) (ty : Ty) (x : Expr) :
    (op i (.cast ty) [x]).eval look = convertCell x.ty ty <$> x.eval look := by
  rw [map_eq_pure_bind]
  rfl

/-- Only what is to be a truth value is changed by a conversion. -/
theorem convertCell_int (source : Ty) (v : Cell) : convertCell source .int v = v :=
  if_neg (fun h => nomatch h.1)

theorem convertCell_self (ty : Ty) (v : Cell) : convertCell ty ty v = v :=
  if_neg (fun h => h.2 h.1)

/-- A conversion that is put in has the converted value. -/
theorem eval_cast {ty : Ty} (he : e.ty.IsWhole) (hty : ty.IsWhole) (hvalue : e.eval look ≠ .error .noValue) :
    (e.cast ty).eval look = convertCell e.ty ty <$> e.eval look := by
  unfold Expr.cast
  by_cases hsame : e.ty = ty
  · rw [if_pos (.inl hsame), hsame, show convertCell ty ty = id from funext (convertCell_self ty), id_map]
  · have hrest : ¬(e.ty = ty ∨ ty = .undefined ∨ ty = .void ∨ e.ty = .void) := by
      rintro (h | rfl | rfl | h)
      · exact hsame h
      · exact absurd hty (by decide)
      · exact absurd hty (by decide)
      · exact absurd (h ▸ he) (by decide)
    rw [if_neg hrest]
    split
    · exact absurd hty (by decide)
    · exact absurd rfl hvalue
    · rename_i i n
      show Except.ok (truthCell (n != 0)) = .ok (convertCell i.ty .bool n)
      rw [convertCell, if_pos ⟨rfl, hsame⟩]
    · exact absurd rfl hvalue
    · split
      · rename_i hint
        rw [eval_withTy, hint.1, show convertCell e.ty .int = id from funext (convertCell_int e.ty), id_map]
      · rw [eval_cast_op]

theorem eq_number_of_number? {n : Cell} (h : e.number? = some n) : ∃ i, e = number i n := by
  cases e with
  | number i m => exact ⟨i, congrArg _ (Option.some.inj h)⟩
  | _ => cases h

/-- Constants among expressions, one by one. -/
theorem mapM_number?_cons {es : List Expr} {ks : List Cell} (h : (e :: es).mapM number? = some ks) :
    ∃ i n ks', e = number i n ∧ es.mapM number? = some ks' ∧ ks = n :: ks' := by
  rw [List.mapM_cons] at h
  obtain ⟨n, hn, hrest⟩ := Option.bind_eq_some_iff.mp h
  obtain ⟨ks', hks, heq⟩ := Option.bind_eq_some_iff.mp hrest
  obtain ⟨i, he⟩ := eq_number_of_number? hn
  exact ⟨i, n, ks', he, hks, Option.some.inj heq.symm⟩

theorem ofNat_toNat {n : Cell} (h : 0 ≤ n) : Int16.ofNat n.toInt.toNat = n := by
  have hle : 0 ≤ n.toInt := Int16.le_iff_toInt_le.mp h
  rw [← Int16.ofInt_eq_ofNat, Int.toNat_of_nonneg hle, Int16.ofInt_toInt]

/-- Constant indices stand for the position that they are folded to. -/
theorem position_flatIndex {dims : List Nat} {es : List Expr} {ks : List Cell} {k : Nat} (stride : Nat)
    (hks : es.mapM number? = some ks) (hlen : ks.length = dims.length)
    (hk : flatIndex? dims ks = some k) : position look dims stride es = .ok (Int16.ofNat (stride * k)) := by
  induction es generalizing dims ks k stride with
  | nil =>
    obtain rfl : ks = [] := (Option.some.inj hks).symm
    obtain rfl : dims = [] := List.eq_nil_of_length_eq_zero hlen.symm
    obtain rfl : 0 = k := Option.some.inj hk
    rfl
  | cons e es ih =>
    obtain ⟨i, n, ks', rfl, hks', rfl⟩ := mapM_number?_cons hks
    cases dims with
    | nil => cases hlen
    | cons d dims =>
      rw [flatIndex?] at hk
      split at hk
      · rename_i hn
        obtain ⟨rest, hrest, rfl⟩ := Option.map_eq_some_iff.mp hk
        have hpos := ih (stride * d) hks' (Nat.succ.inj hlen) hrest
        rw [position, eval, List.tail_cons, List.headD_cons, hpos]
        show Except.ok (n * Int16.ofNat stride + Int16.ofNat (stride * d * rest)) = _
        rw [Nat.mul_add, Int16.ofNat_add, Int16.ofNat_mul stride n.toInt.toNat, ofNat_toNat hn.1, Int16.mul_comm,
          Nat.mul_assoc]
      · cases hk

end Expr
end RobotScript
