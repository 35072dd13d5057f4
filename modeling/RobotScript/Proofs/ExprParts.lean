/-
# The parts of expressions

What holds of an expression as soon as it holds of its operands holds of all its
parts. Folding puts an expression together from parts of the one it folds and
from literals and operators of its own, so what these have has every part of
what it makes.

Key definitions: `Expr.Every`, `Expr.FoldClosed`.
Key theorems: `Expr.induct`, `Expr.FoldClosed.foldOp`.
-/
import RobotScript.Proofs.Agreement
import RobotScript.Proofs.StmtShapes

namespace RobotScript

open Machine (Binary Unary)

/-- An outcome is good, unless there is a failure. -/
abbrev Leads {ε α : Type} (good : α → Prop) (x : Except ε α) : Prop := Ends (fun _ => True) good x

/-- Whether folding asks nothing of the operands of an operator. -/
def Op.isFree : Op → Bool
  | .logicAnd | .logicOr | .assign => false
  | _ => true

namespace Expr

/-- All that an expression is made of is `Q`. -/
def Every (Q : Expr → Prop) (e : Expr) : Prop := ∀ a ∈ e.parts, Q a

variable {Q : Expr → Prop} {e x y : Expr}

theorem every_iff : e.Every Q ↔ Q e ∧ ∀ a ∈ e.operands, a.Every Q := forall_parts_iff

/-- What holds of an expression if it holds of its operands holds of all. -/
theorem induct {motive : Expr → Prop} (h : ∀ e, (∀ a ∈ e.operands, motive a) → motive e) (e : Expr) :
    motive e :=
  h e fun a _ => induct h a
termination_by sizeOf e
decreasing_by
  rename_i ha
  cases e with
  | index i v es | array i es | op i o es | call i name callee es =>
    have hlt : sizeOf a < sizeOf es := List.sizeOf_lt_of_mem ha
    simp only [Expr.index.sizeOf_spec, Expr.array.sizeOf_spec, Expr.op.sizeOf_spec,
      Expr.call.sizeOf_spec]
    omega
  | _ => cases ha

/-- What holds of an expression if it holds of its operands and of theirs holds of
all: the alternatives of a choice stand one level below its operands. -/
theorem induct₂ {motive : Expr → Prop} (h : ∀ e, (∀ a ∈ e.operands, motive a) →
    (∀ a ∈ e.operands, ∀ b ∈ a.operands, motive b) → motive e) (e : Expr) : motive e := by
  have hboth : motive e ∧ ∀ a ∈ e.operands, motive a := by
    induction e using induct with
    | h e ih => exact ⟨h e (fun a ha => (ih a ha).1) fun a ha => (ih a ha).2, fun a ha => (ih a ha).1⟩
  exact hboth.1

namespace Every

theorem top (h : e.Every Q) : Q e := (every_iff.mp h).1

theorem operands (h : e.Every Q) : ∀ a ∈ e.operands, a.Every Q := (every_iff.mp h).2

theorem mk (h : Q e) (hes : ∀ a ∈ e.operands, a.Every Q) : e.Every Q := every_iff.mpr ⟨h, hes⟩

theorem leaf (he : e.operands = []) (h : Q e) : e.Every Q := mk h (by simp [he])

end Every

/-! ### Folding -/

theorem Every.splitConstant {b : Binary} {n : Cell} (h : x.Every Q)
    (hx : splitConstant? b x = some (e, n)) : e.Every Q := by
  unfold splitConstant? at hx
  split at hx
  · split at hx
    · cases hx
      exact h.operands e (by simp [Expr.operands])
    · cases hx
  · cases hx

/-- What folding sees to: the operands of conjunction and disjunction are
converted to truth values, and what is assigned are single words. -/
structure Settled (o : Op) (es : List Expr) : Prop where
  truths : o = .logicAnd ∨ o = .logicOr → ∀ e ∈ es, e.ty = .bool ∨ e.ty = .void
  words : o = .assign → ∀ e ∈ es, e.isScalar = true

theorem Settled.of_free {o : Op} {es : List Expr} (h : o.isFree = true) : Settled o es where
  truths ho := by rcases ho with rfl | rfl <;> cases h
  words ho := by
    subst ho
    cases h

theorem cast_self {e : Expr} {ty : Ty} (h : e.ty = ty) : e.cast ty = e := if_pos (.inl h)

theorem isScalar_cast {e : Expr} (ty : Ty) (h : e.isScalar = true) : (e.cast ty).isScalar = true := by
  unfold cast
  by_cases hsame : e.ty = ty ∨ ty = .undefined ∨ ty = .void ∨ e.ty = .void
  · rw [if_pos hsame]
    exact h
  rw [if_neg hsame]
  obtain ⟨-, -, hvoid, hvoid'⟩ : ¬e.ty = ty ∧ ¬ty = .undefined ∧ ¬ty = .void ∧ ¬e.ty = .void := by
    simpa only [not_or] using hsame
  have hextent : extent e.dims = 1 := by simpa [isScalar, size, hvoid'] using h
  split
  case h_5 =>
    split
    · have hdims : (e.withTy .int).dims = e.dims := by cases e <;> rfl
      simp [isScalar, size, hdims, withTy_ty, hextent]
    · have hcast : (op (.scalar e.span ty) (.cast ty) [e]).ty = ty := rfl
      rw [isScalar, size, hcast, if_neg hvoid]
      rfl
  all_goals rfl

/-- Whatever folding makes of operators is `Q`; those are single words. -/
structure FoldClosed (Q : Expr → Prop) : Prop where
  number (span : Span) (ty : Ty) (n : Cell) : Q (number (.scalar span ty) n)
  fixed (span : Span) (ty : Ty) (f : Float) : Q (fixed (.scalar span ty) f)
  placeholder (span : Span) (ty : Ty) : Q (placeholder (.scalar span ty))
  op (span : Span) (ty : Ty) (o : Op) (es : List Expr) (h : Settled o es) : Q (op (.scalar span ty) o es)
  withTy {e : Expr} {ty : Ty} (hty : ty ≠ .void) (h : Q e) : Q (e.withTy ty)

theorem cast_bool_ty (e : Expr) : (e.cast .bool).ty = .bool ∨ (e.cast .bool).ty = .void := by
  unfold Expr.cast
  split
  · rename_i h
    rcases h with h | h | h | h
    · exact .inl h
    · cases h
    · cases h
    · exact .inr h
  · split
    · rename_i hty _
      cases hty
    · rename_i hty _
      cases hty
    · exact .inl rfl
    · exact .inl rfl
    · rw [if_neg (fun h => nomatch h.1)]
      exact .inl rfl

namespace FoldClosed

section

variable (hQ : FoldClosed Q)

include hQ

theorem every_withTy {ty : Ty} (hty : ty ≠ .void) (h : e.Every Q) : (e.withTy ty).Every Q := by
  have htop := hQ.withTy hty h.top
  cases e <;> exact .mk htop h.operands

theorem op₁ {span : Span} {ty : Ty} {o : Op} (ho : o.isFree = true) (hx : x.Every Q) :
    (Expr.op (.scalar span ty) o [x]).Every Q :=
  .mk (hQ.op span ty o _ (.of_free ho)) (by simpa [Expr.operands] using hx)

theorem op₂ {span : Span} {ty : Ty} {o : Op} (h : Settled o [x, y]) (hx : x.Every Q) (hy : y.Every Q) :
    (Expr.op (.scalar span ty) o [x, y]).Every Q :=
  .mk (hQ.op span ty o _ h) (by simp [Expr.operands, hx, hy])

theorem int (n : Cell) (span : Span) : (Expr.int n span).Every Q := .leaf rfl (hQ.number _ _ _)

theorem bool (b : Bool) (span : Span) : (Expr.bool b span).Every Q := .leaf rfl (hQ.number _ _ _)

theorem real (f : Float) (span : Span) : (Expr.real f span).Every Q := .leaf rfl (hQ.fixed _ _ _)

theorem cast (ty : Ty) (h : e.Every Q) : (e.cast ty).Every Q := by
  unfold Expr.cast
  split
  · exact h
  split
  · exact hQ.real _ _
  · exact hQ.int _ _
  · exact hQ.bool _ _
  · exact hQ.bool _ _
  · split
    · exact hQ.every_withTy nofun h
    · exact hQ.op₁ rfl h

theorem castOperands (b : Binary) (hx : x.Every Q) (hy : y.Every Q) :
    (Expr.castOperands b x y).1.Every Q ∧ (Expr.castOperands b x y).2.Every Q :=
  castOperands_cases (motive := fun p => p.1.Every Q ∧ p.2.Every Q) b ⟨hx, hy⟩ ⟨hx, hQ.cast _ hy⟩
    fun _ => ⟨hQ.cast _ hx, hQ.cast _ hy⟩

theorem foldBinary (b : Binary) (span : Span) (ty : Ty) (hx : x.Every Q) (hy : y.Every Q) :
    Leads (Every Q) (foldBinary b x y span ty) := by
  obtain ⟨hx, hy⟩ := hQ.castOperands b hx hy
  refine ((foldBinary_folds b x y span ty).weaken fun _ _ => trivial).mono fun e he => ?_
  cases he with
  | truth v h _ => exact hQ.bool _ _
  | number v h _ => exact .leaf rfl (hQ.number _ _ _)
  | @fixed p q _ _ hp h =>
    rcases (foldFixed_ends b p q span).of_ok h e rfl with ⟨f, rfl⟩ | ⟨v, rfl⟩
    · exact hQ.real _ _
    · exact hQ.bool _ _
  | merged v h => exact hQ.op₂ (.of_free rfl) (hx.splitConstant h) (hQ.int _ _)
  | plain => exact hQ.op₂ (.of_free rfl) hx hy

theorem foldUpdate {o : Op} (ho : o.isFree = true) (b : Binary) (info : Info)
    (hx : x.Every Q) (hy : y.Every Q) : Leads (Every Q) (foldUpdate o b x y info) := by
  have hold : Every Q (Expr.placeholder (.scalar x.span x.ty)) := .leaf rfl (hQ.placeholder _ _)
  have hvalue : Leads (Every Q) (updateValue b x y info.span) :=
    (hQ.foldBinary b info.span _ hold hy).bind fun value hvalue => Ends.pure (hQ.cast _ hvalue)
  exact hvalue.bind fun value hvalue => Ends.pure (hQ.op₂ (.of_free ho) hx hvalue)

theorem foldUnary {o : Op} (ho : o.isFree = true) (u : Unary) (info : Info)
    (hx : x.Every Q) : (foldUnary o u x info).Every Q := by
  unfold Expr.foldUnary
  split
  · exact .leaf rfl (hQ.number _ _ _)
  · exact hQ.real _ _
  · exact hQ.real _ _
  · exact hQ.op₁ ho hx

theorem foldLogic {o : Op} (ho : o ≠ .assign) (info : Info) (hx : x.Every Q) (hy : y.Every Q) :
    (foldLogic o x y info).Every Q := by
  unfold Expr.foldLogic
  dsimp only
  split
  · exact hQ.bool _ _
  · split
    · exact hQ.bool _ _
    · exact hQ.cast _ hy
  · refine hQ.op₂ ⟨fun _ => ?_, fun h => (ho h).elim⟩ (hQ.cast _ hx) (hQ.cast _ hy)
    simp only [List.forall_mem_cons, List.not_mem_nil, false_implies, implies_true, and_true]
    exact ⟨x.cast_bool_ty, y.cast_bool_ty⟩

theorem foldNot (info : Info) (hx : x.Every Q) : (foldNot x info).Every Q := by
  have hplain : Every Q (Expr.op (.scalar info.span info.ty) .not [x]) := hQ.op₁ rfl hx
  unfold Expr.foldNot
  dsimp only
  split
  · exact hQ.bool _ _
  · split
    · split
      · exact .mk (hQ.op _ _ _ _ (.of_free rfl)) hx.operands
      · exact hplain
    · exact hplain

theorem foldConditional (info : Info) (hx : x.Every Q) (hy : y.Every Q) :
    Leads (Every Q) (foldConditional x y info) := by
  unfold Expr.foldConditional
  split
  · rename_i i o a b
    have ha : a.Every Q := hy.operands a (by simp [Expr.operands])
    have hb : b.Every Q := hy.operands b (by simp [Expr.operands])
    dsimp only
    split
    · exact Ends.pure (hQ.cast _ ha)
    · exact Ends.pure (hQ.cast _ hb)
    · refine Ends.pure (hQ.op₂ (.of_free rfl) hx ?_)
      exact hQ.op₂ (.of_free rfl) (hQ.cast info.ty ha) (hQ.cast info.ty hb)
  · trivial
  · trivial

/-- An operator that is left as it was keeps its size. -/
theorem foldOp (o : Op) (info : Info) {es : List Expr}
    (hkept : o ≠ .assign → o.isFree = true → Q (Expr.op info o es)) (hes : ∀ e ∈ es, e.Every Q) :
    Leads (Every Q) (foldOp o es info) := by
  have hone : Every Q (Expr.int 1 info.span) := hQ.int _ _
  unfold Expr.foldOp
  split
  all_goals try simp only [List.forall_mem_cons, List.not_mem_nil, false_implies, implies_true,
    and_true] at hes
  · exact hQ.foldBinary _ _ _ hes.1 hes.2
  · exact Ends.pure (hQ.foldLogic (by rintro ⟨⟩) _ hes.1 hes.2)
  · exact Ends.pure (hQ.foldLogic (by rintro ⟨⟩) _ hes.1 hes.2)
  · split
    · rename_i target value hscalar
      rw [Bool.and_eq_true] at hscalar
      have hwords : Settled .assign [target, value.cast target.ty] := by
        refine ⟨fun ho => ?_, fun _ => ?_⟩
        · rcases ho with ho | ho <;> cases ho
        · simpa using ⟨hscalar.1, isScalar_cast _ hscalar.2⟩
      exact Ends.pure (hQ.op₂ hwords hes.1 (hQ.cast _ hes.2))
    · trivial
  · exact hQ.foldUpdate rfl _ _ hes.1 hes.2
  · exact hQ.foldUpdate rfl _ _ hes hone
  · exact hQ.foldUpdate rfl _ _ hes hone
  · exact hQ.foldUpdate rfl _ _ hes hone
  · exact hQ.foldUpdate rfl _ _ hes hone
  · exact Ends.pure (hQ.foldUnary rfl _ _ hes)
  · exact Ends.pure (hQ.foldUnary rfl _ _ hes)
  · exact Ends.pure (hQ.foldUnary rfl _ _ (hQ.cast _ hes))
  · exact Ends.pure (hQ.foldNot _ hes)
  · exact Ends.pure (hQ.cast _ hes)
  · exact hQ.foldConditional _ hes.1 hes.2
  · split
    case h_4 => exact Ends.pure (.mk (hkept (by rintro ⟨⟩) rfl) (by simpa [Expr.operands] using hes))
    all_goals exact Ends.pure hes.2
  case h_20 => trivial
  all_goals exact Ends.pure (.mk (hkept (by rintro ⟨⟩) rfl) hes)

end

end FoldClosed

end Expr
end RobotScript
