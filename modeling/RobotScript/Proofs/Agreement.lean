/-
# Types that agree

Values of different types meet in a script without complaint. What keeps the
machine from adding a scaled number to a plain one are the conversions that
folding puts in, in one place for each way in which values meet, before it
rewrites what it has converted. A folded expression has the type of the typed
one, and wherever values meet in it their types agree.

Key definitions: `Op.Accepts`, `Expr.Agrees`, `Expr.parts`, `Expr.HasTy`.
Key theorems: `Expr.Sound.toTy`, `Expr.foldBinary_hasTy`, `Expr.foldOp_hasTy`,
`Expr.Typed.fold_hasTy`.
-/
import RobotScript.Proofs.Shapes

namespace RobotScript

open Machine (Binary Unary)

/-- An operator of the machine works on operands of these types: what is added
or compared is on one scale, what is taken bit by bit or counts bits is a
number. -/
def binaryAccepts (b : Binary) (x y : Ty) : Prop :=
  match b with
  | .add | .sub | .mod | .eq | .ne | .gt | .ge | .lt | .le => x = .fixed ↔ y = .fixed
  | .bitAnd | .bitOr | .bitXor => x = .int ∧ y = .int
  | .shl | .shr => y = .int
  | .mult | .div | .or | .and => True

/-- An operator that is left to the machine works on operands of these types. -/
def Op.Accepts : Op → List Ty → Prop
  | binary b, [x, y] => binaryAccepts b x y
  | logicAnd, [x, y] | logicOr, [x, y] => x = .bool ∧ y = .bool
  | assign, [target, value] | compound _, [target, value] | postIncrement, [target, value]
  | postDecrement, [target, value] => value = target
  | conditionalElse, [x, y] => x = y
  | bitNot, [x] => x = .int
  | negate, [_] | abs, [_] | not, [_] | cast _, [_] | comma, [_, _] | conditional, [_, _] => True
  | _, _ => False

/-- There is an argument for each parameter, and one that is passed by value
has the type of the parameter. -/
def Param.AllTake : List Param → List Ty → Prop
  | [], [] => True
  | p :: ps, ty :: tys => (p.byRef = false → ty = p.ty) ∧ AllTake ps tys
  | _, _ => False

/-- What a call stands for takes arguments of these types. -/
def Callee.Takes : Option Callee → List Ty → Prop
  | some (.function s), tys => Param.AllTake s.params tys
  | some (.builtin b), tys => tys.length = b.arity
  | none, _ => False

theorem Ty.scaled_iff {p : Prop} [Decidable p] : (if p then Ty.fixed else .int) = .fixed ↔ p := by
  by_cases h : p <;> simp [h]

theorem binaryTy_truth {b : Binary} {x y : Ty} (hb : (b.isComparison || b.isLogical) = true) :
    binaryTy b x y = .bool := by
  cases b with
  | eq | ne | gt | ge | lt | le | or | and => rfl
  | _ => cases hb

/-- What is not scaled is a number or a truth value. -/
theorem binaryTy_int_or_bool {b : Binary} {x y : Ty} (h : binaryTy b x y ≠ .fixed) :
    binaryTy b x y = .int ∨ binaryTy b x y = .bool := by
  have hvalue := binaryTy_isValue b x y
  cases hty : binaryTy b x y with
  | undefined => exact absurd hty hvalue.defined
  | void => exact absurd hty hvalue.notVoid
  | int => exact .inl rfl
  | bool => exact .inr rfl
  | fixed => exact absurd hty h

theorem Op.accepts_negated {b b' : Binary} {tys : List Ty} (hb : b.negated? = some b')
    (h : (binary b).Accepts tys) : (binary b').Accepts tys := by
  have hsame : ∀ x y, binaryAccepts b x y → binaryAccepts b' x y := by
    intro x y hxy
    cases b <;> cases hb <;> exact hxy
  match tys, h with
  | [x, y], h => exact hsame x y h

namespace Expr

/-- The types of the values that meet at the top of an expression agree; a
literal is on the scale of its type. -/
def TypesMeet : Expr → Prop
  | number i _ => i.ty = .int ∨ i.ty = .bool
  | fixed i _ => i.ty = .fixed
  | index _ _ indices => ∀ e ∈ indices, e.ty = .int
  | op _ o args => o.Accepts (args.map (·.ty))
  | call _ _ callee args => Callee.Takes callee (args.map (·.ty))
  | var _ _ | array _ _ | placeholder _ => True

/-- The type of an expression is known and those that meet at its top agree. -/
structure Agrees (e : Expr) : Prop where
  defined : e.ty ≠ .undefined
  meet : e.TypesMeet

/-- The expressions right below the top of an expression. -/
def operands : Expr → List Expr
  | index _ _ es | array _ es | op _ _ es | call _ _ _ es => es
  | number _ _ | fixed _ _ | var _ _ | placeholder _ => []

mutual

/-- The expression and all that it is made of. -/
def parts : Expr → List Expr
  | number i n => [number i n]
  | fixed i f => [fixed i f]
  | var i v => [var i v]
  | placeholder i => [placeholder i]
  | index i v es => index i v es :: partsAll es
  | array i es => array i es :: partsAll es
  | op i o es => op i o es :: partsAll es
  | call i name callee es => call i name callee es :: partsAll es

/-- The expressions and all that they are made of. -/
def partsAll : List Expr → List Expr
  | [] => []
  | e :: es => e.parts ++ partsAll es

end

/-- All types that meet in an expression agree. -/
def Sound (e : Expr) : Prop := ∀ a ∈ e.parts, a.Agrees

variable {es : List Expr} {e : Expr}

theorem mem_partsAll {a : Expr} : a ∈ partsAll es ↔ ∃ e ∈ es, a ∈ e.parts := by
  induction es with
  | nil => simp [partsAll]
  | cons e es ih => simp [partsAll, ih]

theorem parts_eq (e : Expr) : e.parts = e :: partsAll e.operands := by
  cases e <;> rw [parts, operands]
  all_goals rw [partsAll]

/-- All parts of an expression are its top and those below. -/
theorem forall_parts_iff {Q : Expr → Prop} :
    (∀ a ∈ e.parts, Q a) ↔ Q e ∧ ∀ a ∈ e.operands, ∀ b ∈ a.parts, Q b := by
  rw [parts_eq]
  simp only [List.mem_cons, mem_partsAll, forall_eq_or_imp, forall_exists_index, and_imp]
  constructor
  · rintro ⟨htop, hbelow⟩
    exact ⟨htop, fun e he a ha => hbelow a e he ha⟩
  · rintro ⟨htop, hbelow⟩
    exact ⟨htop, fun a e he ha => hbelow e he a ha⟩

/-- An expression is sound if it agrees at its top and all below is sound. -/
theorem sound_iff : e.Sound ↔ e.Agrees ∧ ∀ a ∈ e.operands, a.Sound := forall_parts_iff

namespace Sound

variable {x y : Expr}

theorem agrees (h : e.Sound) : e.Agrees := (sound_iff.mp h).1

theorem below (h : e.Sound) : ∀ a ∈ e.operands, a.Sound := (sound_iff.mp h).2

theorem leaf (he : e.operands = []) (h : e.Agrees) : e.Sound := by
  refine sound_iff.mpr ⟨h, ?_⟩
  rw [he]
  nofun

theorem op {i : Info} {o : Op} {es : List Expr} (hty : i.ty ≠ .undefined)
    (ho : o.Accepts (es.map (·.ty))) (hes : ∀ e ∈ es, e.Sound) : (Expr.op i o es).Sound :=
  sound_iff.mpr ⟨⟨hty, ho⟩, hes⟩

theorem op_one {i : Info} {o : Op} (hty : i.ty ≠ .undefined) (ho : o.Accepts [x.ty]) (hx : x.Sound) :
    (Expr.op i o [x]).Sound := by
  refine op hty ho ?_
  simpa using hx

theorem op_two {i : Info} {o : Op} (hty : i.ty ≠ .undefined) (ho : o.Accepts [x.ty, y.ty])
    (hx : x.Sound) (hy : y.Sound) : (Expr.op i o [x, y]).Sound := by
  refine op hty ho ?_
  simpa using ⟨hx, hy⟩

end Sound

/-- The expression is sound and has the given type. -/
structure HasTy (e : Expr) (ty : Ty) : Prop where
  sound : e.Sound
  ty_eq : e.ty = ty

/-! ### Conversions -/

theorem int_hasTy (n : Cell) (span : Span) : (int n span).HasTy .int :=
  ⟨.leaf rfl ⟨nofun, .inl rfl⟩, rfl⟩

theorem bool_hasTy (b : Bool) (span : Span) : (bool b span).HasTy .bool :=
  ⟨.leaf rfl ⟨nofun, .inr rfl⟩, rfl⟩

theorem real_hasTy (f : Float) (span : Span) : (real f span).HasTy .fixed :=
  ⟨.leaf rfl ⟨nofun, rfl⟩, rfl⟩

/-- A truth value is a number as it is. -/
theorem HasTy.retyped (h : e.HasTy .bool) : (e.withTy .int).HasTy .int := by
  have hbelow := h.sound.below
  have hmeet := h.sound.agrees.meet
  have hbool := h.ty_eq
  cases e with
  | number i n => exact ⟨.leaf rfl ⟨nofun, .inl rfl⟩, rfl⟩
  | fixed i f =>
    have hfixed : i.ty = .fixed := hmeet
    cases hfixed.symm.trans hbool
  | _ => exact ⟨sound_iff.mpr ⟨⟨nofun, hmeet⟩, hbelow⟩, rfl⟩

theorem withTy_ty (e : Expr) (ty : Ty) : (e.withTy ty).ty = ty := by
  cases e <;> rfl

/-- A conversion gives a value the type. -/
theorem cast_ty {ty : Ty} (hty : ty.IsValue) (he : e.ty ≠ .void) : (e.cast ty).ty = ty := by
  unfold Expr.cast
  by_cases hsame : e.ty = ty ∨ ty = .undefined ∨ ty = .void ∨ e.ty = .void
  · rw [if_pos hsame]
    rcases hsame with h | h | h | h
    · exact h
    · exact absurd h hty.defined
    · exact absurd h hty.notVoid
    · exact absurd h he
  · rw [if_neg hsame]
    split
    case h_5 =>
      split
      · rename_i hint
        rw [withTy_ty, hint.1]
      · rfl
    all_goals rfl

theorem Sound.cast (ty : Ty) (h : e.Sound) : (e.cast ty).Sound := by
  unfold Expr.cast
  by_cases hsame : e.ty = ty ∨ ty = .undefined ∨ ty = .void ∨ e.ty = .void
  · rw [if_pos hsame]
    exact h
  · rw [if_neg hsame]
    split
    · exact (real_hasTy _ _).sound
    · exact (int_hasTy _ _).sound
    · exact (bool_hasTy _ _).sound
    · exact (bool_hasTy _ _).sound
    · split
      · rename_i hint
        exact (HasTy.retyped ⟨h, hint.2⟩).sound
      · refine op_one (fun hundef => hsame (.inr (.inl hundef))) trivial h

theorem Sound.toTy {ty : Ty} (h : e.Sound) (he : e.ty ≠ .void) (hty : ty.IsValue) : (e.cast ty).HasTy ty :=
  ⟨h.cast ty, cast_ty hty he⟩

/-! ### Operators of the machine -/

section Binary

variable {x y : Expr} (hx : x.Sound) (hy : y.Sound) (hxv : x.ty ≠ .void) (hyv : y.ty ≠ .void)

/-- The operands that a binary operator is folded with. -/
structure Converted (b : Binary) (tx ty : Ty) (operands : Expr × Expr) : Prop where
  first : operands.1.Sound
  second : operands.2.Sound
  accepted : binaryAccepts b operands.1.ty operands.2.ty
  /-- Where the result is scaled, so is an operand. -/
  scaled : binaryTy b tx ty = .fixed → operands.1.ty = .fixed ∨ operands.2.ty = .fixed

include hx hy hxv hyv

/-- Operands are brought to one scale if one of them is scaled. -/
theorem oneScale {operands : Expr × Expr}
    (h : operands =
      if (x.ty == .fixed || y.ty == .fixed) = true then (x.cast .fixed, y.cast .fixed) else (x, y)) :
    operands.1.Sound ∧ operands.2.Sound ∧ (operands.1.ty = .fixed ↔ operands.2.ty = .fixed) ∧
      (arithmeticTy x.ty y.ty = .fixed → operands.1.ty = .fixed) := by
  by_cases hany : x.ty = .fixed ∨ y.ty = .fixed
  · rw [if_pos (by simpa using hany)] at h
    have hx' := hx.toTy hxv .fixed
    have hy' := hy.toTy hyv .fixed
    rw [h]
    exact ⟨hx'.sound, hy'.sound, by simp [hx'.ty_eq, hy'.ty_eq], fun _ => hx'.ty_eq⟩
  · rw [if_neg (by simpa using hany)] at h
    have hnot : x.ty ≠ .fixed ∧ y.ty ≠ .fixed := not_or.mp hany
    rw [h]
    exact ⟨hx, hy, by simp [hnot.1, hnot.2], fun hscaled => absurd (Ty.scaled_iff.mp hscaled) hany⟩

theorem castOperands_converted (b : Binary) : Converted b x.ty y.ty (castOperands b x y) := by
  cases b with
  | add | sub | mod =>
    obtain ⟨hx', hy', haccepted, hscaled⟩ := oneScale hx hy hxv hyv rfl
    exact ⟨hx', hy', haccepted, fun h => .inl (hscaled h)⟩
  | eq | ne | gt | ge | lt | le =>
    obtain ⟨hx', hy', haccepted, -⟩ := oneScale hx hy hxv hyv rfl
    exact ⟨hx', hy', haccepted, nofun⟩
  | shl | shr =>
    have hy' := hy.toTy hyv .int
    exact ⟨hx, hy'.sound, hy'.ty_eq, fun hscaled => .inl (Ty.scaled_iff.mp hscaled)⟩
  | bitAnd | bitOr | bitXor =>
    have hx' := hx.toTy hxv .int
    have hy' := hy.toTy hyv .int
    exact ⟨hx'.sound, hy'.sound, ⟨hx'.ty_eq, hy'.ty_eq⟩, nofun⟩
  | mult | div => exact ⟨hx, hy, trivial, fun hscaled => Ty.scaled_iff.mp hscaled⟩
  | or | and => exact ⟨hx, hy, trivial, nofun⟩

omit hx hy hxv hyv

/-- The literal that two literals are folded to has the type of the operator. -/
theorem foldFixed_hasTy {b : Binary} {p q : Float} {span : Span} {tx ty : Ty} {e : Expr}
    (hfixed : tx = .fixed ∨ ty = .fixed) (h : foldFixed b p q span = .ok (some e)) :
    e.HasTy (binaryTy b tx ty) := by
  have harith : arithmeticTy tx ty = .fixed := if_pos hfixed
  have hreal : ∀ f, (real f span).HasTy (arithmeticTy tx ty) := fun f => harith ▸ real_hasTy f span
  cases b with
  | add | sub | mult =>
    cases h
    exact hreal _
  | div | mod =>
    unfold foldFixed at h
    dsimp only at h
    split at h
    · cases h
    · cases h
      exact hreal _
  | eq | ne | gt | ge | lt | le =>
    cases h
    exact bool_hasTy _ _
  | _ => cases h

theorem number_not_fixed {i : Info} {n : Cell} (h : (number i n).Sound) : (number i n).ty ≠ .fixed := by
  intro hfixed
  rcases h.agrees.meet with hty | hty
  · cases hty.symm.trans hfixed
  · cases hty.symm.trans hfixed

/-- A constant that is split off leaves a number. -/
theorem splitConstant_hasTy {b : Binary} {e : Expr} {k : Cell} (h : x.Sound)
    (hx : splitConstant? b x = some (e, k)) : e.HasTy .int := by
  unfold splitConstant? at hx
  split at hx
  · split at hx
    · rename_i hint
      cases hx
      exact ⟨h.below e List.mem_cons_self, hint.2⟩
    · cases hx
  · cases hx

theorem binaryAccepts_int (b : Binary) : binaryAccepts b .int .int := by
  cases b <;> simp [binaryAccepts]

include hx hy hxv hyv

/-- A binary operator is folded to something of its type. -/
theorem foldBinary_hasTy (b : Binary) (span : Span) :
    Ends (fun _ => True) (·.HasTy (binaryTy b x.ty y.ty))
      (foldBinary b x y span (binaryTy b x.ty y.ty)) := by
  obtain ⟨hx', hy', haccepted, hscaled⟩ := castOperands_converted hx hy hxv hyv b
  have hdefined := (binaryTy_isValue b x.ty y.ty).defined
  refine ((foldBinary_folds b x y span _).weaken fun _ _ => trivial).mono fun e he => ?_
  cases he with
  | truth v h hb =>
    rw [binaryTy_truth hb]
    exact bool_hasTy v span
  | number v h hb =>
    refine ⟨.leaf rfl ⟨hdefined, ?_⟩, rfl⟩
    -- a number is not scaled, so neither is what it is computed from
    rw [h] at hx' hy' hscaled
    have hne : binaryTy b x.ty y.ty ≠ .fixed := fun hfixed =>
      (hscaled hfixed).elim (number_not_fixed hx') (number_not_fixed hy')
    exact binaryTy_int_or_bool hne
  | fixed hany hp h => exact foldFixed_hasTy hany h
  | merged v h =>
    have hrest := splitConstant_hasTy hx' h
    refine ⟨.op_two hdefined ?_ hrest.sound (int_hasTy v span).sound, rfl⟩
    rw [hrest.ty_eq]
    exact binaryAccepts_int b
  | plain => exact ⟨.op_two hdefined haccepted hx' hy', rfl⟩

end Binary

/-- The value that an update stores has the type of its target. -/
theorem updateValue_hasTy (b : Binary) {target y : Expr} (span : Span) (ht : target.Sound) (hy : y.Sound)
    (htv : target.ty ≠ .void) (hyv : y.ty ≠ .void) :
    Ends (fun _ => True) (·.HasTy target.ty) (updateValue b target y span) := by
  have hold : (placeholder (.scalar target.span target.ty)).Sound :=
    .leaf rfl ⟨ht.agrees.defined, trivial⟩
  unfold updateValue
  refine (foldBinary_hasTy hold hy htv hyv b span).bind fun value hvalue => Ends.pure ?_
  refine hvalue.sound.toTy ?_ ⟨ht.agrees.defined, htv⟩
  rw [hvalue.ty_eq]
  exact (binaryTy_isValue _ _ _).notVoid

/-- An update keeps the type of its target. -/
theorem foldUpdate_hasTy {o : Op} (ho : ∀ ty, o.Accepts [ty, ty]) (b : Binary) {target y : Expr} {info : Info}
    (hty : info.ty = target.ty) (ht : target.Sound) (hy : y.Sound) (htv : target.ty ≠ .void)
    (hyv : y.ty ≠ .void) : Ends (fun _ => True) (·.HasTy info.ty) (foldUpdate o b target y info) := by
  unfold foldUpdate
  refine (updateValue_hasTy b info.span ht hy htv hyv).bind fun value hvalue => Ends.pure ⟨?_, rfl⟩
  refine .op_two ?_ ?_ ht hvalue.sound
  · show info.ty ≠ .undefined
    rw [hty]
    exact ht.agrees.defined
  · rw [hvalue.ty_eq]
    exact ho target.ty

/-! ### Other operators -/

section Others

variable {x y : Expr} {info : Info}

theorem foldUnary_hasTy {o : Op} (u : Unary) (ho : o.Accepts [x.ty])
    (hnumber : x.ty ≠ .fixed → info.ty = .int) (hfixed : x.ty = .fixed → info.ty = .fixed)
    (hx : x.Sound) : (foldUnary o u x info).HasTy info.ty := by
  have hdefined : info.ty ≠ .undefined := by
    by_cases h : x.ty = .fixed
    · rw [hfixed h]
      nofun
    · rw [hnumber h]
      nofun
  unfold foldUnary
  split
  · exact ⟨.leaf rfl ⟨hdefined, .inl (hnumber (number_not_fixed hx))⟩, rfl⟩
  · rw [hfixed hx.agrees.meet]
    exact real_hasTy _ _
  · rw [hfixed hx.agrees.meet]
    exact real_hasTy _ _
  · exact ⟨.op_one hdefined ho hx, rfl⟩

theorem foldLogic_hasTy {o : Op} (ho : o.Accepts [.bool, .bool]) (hty : info.ty = .bool) (hx : x.Sound)
    (hy : y.Sound) (hxv : x.ty ≠ .void) (hyv : y.ty ≠ .void) : (foldLogic o x y info).HasTy .bool := by
  have hx' := hx.toTy hxv .bool
  have hy' := hy.toTy hyv .bool
  unfold foldLogic
  dsimp only
  split
  · exact bool_hasTy _ _
  · split
    · exact bool_hasTy _ _
    · exact hy'
  · refine ⟨.op_two ?_ ?_ hx'.sound hy'.sound, hty⟩
    · show info.ty ≠ .undefined
      rw [hty]
      nofun
    · rw [hx'.ty_eq, hy'.ty_eq]
      exact ho

theorem foldNot_hasTy (hty : info.ty = .bool) (hx : x.Sound) : (foldNot x info).HasTy .bool := by
  have hplain : HasTy (op (.scalar info.span info.ty) .not [x]) .bool := by
    refine ⟨.op_one ?_ trivial hx, hty⟩
    show info.ty ≠ .undefined
    rw [hty]
    nofun
  unfold foldNot
  split
  · exact bool_hasTy _ _
  · dsimp only
    split
    · split
      · rename_i b' hb
        exact ⟨.op nofun (Op.accepts_negated hb hx.agrees.meet) hx.below, rfl⟩
      · exact hplain
    · exact hplain

theorem foldConditional_hasTy {cond a b : Expr} {j : Info} (hty : info.ty = a.ty.join b.ty)
    (hcond : cond.Sound) (ha : a.Sound) (hb : b.Sound) (hav : a.ty ≠ .void) (hbv : b.ty ≠ .void) :
    Ends (fun _ => True) (·.HasTy info.ty)
      (foldConditional cond (op j .conditionalElse [a, b]) info) := by
  have hvalue : info.ty.IsValue := hty ▸ Ty.join_isValue _ _
  have ha' := ha.toTy hav hvalue
  have hb' := hb.toTy hbv hvalue
  unfold foldConditional
  dsimp only
  split
  · exact Ends.pure ha'
  · exact Ends.pure hb'
  · refine Ends.pure ⟨.op_two hvalue.defined trivial hcond ?_, rfl⟩
    exact .op_two hvalue.defined (ha'.ty_eq.trans hb'.ty_eq.symm) ha'.sound hb'.sound

end Others

/-- An operator on folded operands gives something of the type that the
operands give it. -/
theorem foldOp_hasTy {info : Info} : ∀ {o : Op} {es : List Expr}, o.isPlain = true → es.length = o.arity →
    o.Converts → info.ty = o.resultTy (es.map (·.ty)) → (∀ e ∈ es, e.Sound) →
    (o.operand ≠ .any → ∀ e ∈ es, e.ty ≠ .void) →
    Ends (fun _ => True) (·.HasTy info.ty) (foldOp o es info)
  | .binary b, [x, y], _, _, _, hty, hes, hvalue => by
    have hvalue := hvalue nofun
    have hfold := foldBinary_hasTy (hes x (by simp)) (hes y (by simp)) (hvalue x (by simp))
      (hvalue y (by simp)) b info.span
    have hty : info.ty = binaryTy b x.ty y.ty := hty
    rw [← hty] at hfold
    exact hfold
  | .logicAnd, [x, y], _, _, _, hty, hes, hvalue | .logicOr, [x, y], _, _, _, hty, hes, hvalue => by
    have hvalue := hvalue nofun
    have hty : info.ty = .bool := hty
    rw [hty]
    exact Ends.pure (foldLogic_hasTy ⟨rfl, rfl⟩ hty (hes x (by simp)) (hes y (by simp))
      (hvalue x (by simp)) (hvalue y (by simp)))
  | .assign, [target, value], _, _, _, hty, hes, hvalue => by
    have hvalue := hvalue nofun
    have ht := hes target (by simp)
    have hty : info.ty = target.ty := hty
    have hstored := (hes value (by simp)).toTy (hvalue value (by simp))
      ⟨ht.agrees.defined, hvalue target (by simp)⟩
    unfold foldOp
    dsimp only
    split
    · refine Ends.pure ⟨.op_two ?_ hstored.ty_eq ht hstored.sound, rfl⟩
      show info.ty ≠ .undefined
      rw [hty]
      exact ht.agrees.defined
    · trivial
  | .compound b, [target, y], _, _, _, hty, hes, hvalue => by
    have hvalue := hvalue nofun
    refine foldUpdate_hasTy ?_ b hty (hes target (by simp)) (hes y (by simp))
      (hvalue target (by simp)) (hvalue y (by simp))
    exact fun _ => rfl
  | .preIncrement, [target], _, _, _, hty, hes, hvalue
  | .postIncrement, [target], _, _, _, hty, hes, hvalue => by
    refine foldUpdate_hasTy ?_ .add hty (hes target (by simp)) (int_hasTy 1 _).sound
      (hvalue nofun target (by simp)) nofun
    exact fun _ => rfl
  | .preDecrement, [target], _, _, _, hty, hes, hvalue
  | .postDecrement, [target], _, _, _, hty, hes, hvalue => by
    refine foldUpdate_hasTy ?_ .sub hty (hes target (by simp)) (int_hasTy 1 _).sound
      (hvalue nofun target (by simp)) nofun
    exact fun _ => rfl
  | .negate, [x], _, _, _, hty, hes, _ =>
    Ends.pure (foldUnary_hasTy .neg trivial (fun h => hty.trans (if_neg h)) (fun h => hty.trans (if_pos h))
      (hes x (by simp)))
  | .abs, [x], _, _, _, hty, hes, _ =>
    Ends.pure (foldUnary_hasTy .abs trivial (fun h => hty.trans (if_neg h)) (fun h => hty.trans (if_pos h))
      (hes x (by simp)))
  | .bitNot, [x], _, _, _, hty, hes, hvalue => by
    have hx := (hes x (by simp)).toTy (hvalue nofun x (by simp)) .int
    refine Ends.pure (foldUnary_hasTy .bitNot hx.ty_eq (fun _ => hty) (fun h => ?_) hx.sound)
    cases hx.ty_eq.symm.trans h
  | .not, [x], _, _, _, hty, hes, _ => by
    have hty : info.ty = .bool := hty
    rw [hty]
    exact Ends.pure (foldNot_hasTy hty (hes x (by simp)))
  | .cast ty, [x], _, _, hconv, hty, hes, hvalue => by
    have hty : info.ty = ty := hty
    rw [hty]
    exact Ends.pure ((hes x (by simp)).toTy (hvalue nofun x (by simp)) hconv)
  | .comma, [a, b], _, _, _, hty, hes, _ => by
    have hb := hes b (by simp)
    have hty : info.ty = b.ty := hty
    have hlast : b.HasTy info.ty := ⟨hb, hty.symm⟩
    unfold foldOp
    dsimp only
    split
    · exact Ends.pure hlast
    · exact Ends.pure hlast
    · exact Ends.pure hlast
    · exact Ends.pure ⟨.op_two (hty ▸ hb.agrees.defined) trivial (hes a (by simp)) hb, rfl⟩

/-! ### Elements and calls -/

theorem foldIndex_hasTy {v : Variable} {info : Info} (hty : info.ty ≠ .undefined)
    (hes : ∀ e ∈ es, e.HasTy .int) : Ends (fun _ => True) (·.HasTy info.ty) (foldIndex v es info) := by
  have helement : ∀ es : List Expr, (∀ e ∈ es, e.HasTy .int) →
      (index (.scalar info.span info.ty) v es).HasTy info.ty := fun es hes =>
    ⟨sound_iff.mpr ⟨⟨hty, fun e he => (hes e he).ty_eq⟩, fun e he => (hes e he).sound⟩, rfl⟩
  unfold foldIndex
  split
  · trivial
  · dsimp only
    split
    · exact Ends.pure (helement es hes)
    · split
      · refine Ends.pure (helement _ ?_)
        simp only [List.mem_singleton, forall_eq]
        exact int_hasTy _ _
      · trivial

/-- Arguments are converted to the types of the parameters they are passed for
by value. -/
theorem castArgs_take : ∀ {ps : List Param} {es : List Expr}, es.length = ps.length →
    (∀ p ∈ ps, p.ty.IsValue) → (∀ e ∈ es, e.Sound) → (∀ e ∈ es, e.ty ≠ .void) →
    Param.AllTake ps ((castArgs ps es).map (·.ty)) ∧ ∀ e ∈ castArgs ps es, e.Sound
  | [], [], _, _, _, _ => ⟨trivial, nofun⟩
  | p :: ps, e :: es, hlen, hps, hes, hvalue => by
    have hrest := castArgs_take (Nat.succ.inj hlen) (fun q hq => hps q (List.mem_cons_of_mem _ hq))
      (fun a ha => hes a (List.mem_cons_of_mem _ ha)) fun a ha => hvalue a (List.mem_cons_of_mem _ ha)
    have he := (hes e List.mem_cons_self).toTy (hvalue e List.mem_cons_self) (hps p List.mem_cons_self)
    refine ⟨⟨fun hvalue => ?_, hrest.1⟩, ?_⟩
    · show (if p.byRef then e else e.cast p.ty).ty = p.ty
      rw [hvalue]
      exact he.ty_eq
    · rintro a (_ | ⟨_, ha⟩)
      · split
        · exact hes e List.mem_cons_self
        · exact he.sound
      · exact hrest.2 a ha

theorem foldAll_hasTy : ∀ {es : List Expr}, (∀ e ∈ es, Ends (fun _ => True) (·.HasTy e.ty) e.fold) →
    Ends (fun _ => True) (fun es' => es'.map (·.ty) = es.map (·.ty) ∧ ∀ e ∈ es', e.Sound) (foldAll es)
  | [], _ => ⟨rfl, nofun⟩
  | e :: es, h => by
    rw [foldAll]
    refine (h e List.mem_cons_self).bind fun e' he' => ?_
    refine (foldAll_hasTy fun a ha => h a (List.mem_cons_of_mem _ ha)).bind fun es' hes' => ?_
    refine Ends.pure ⟨by simp [he'.ty_eq, hes'.1], ?_⟩
    rintro a (_ | ⟨_, ha⟩)
    · exact he'.sound
    · exact hes'.2 a ha

/-- Expressions of the same types are values if the others are. -/
theorem values_of_types {es' : List Expr} (h : es'.map (·.ty) = es.map (·.ty))
    (hes : ∀ e ∈ es, e.ty ≠ .void) : ∀ e ∈ es', e.ty ≠ .void := by
  intro e he
  have hmem : e.ty ∈ es.map (·.ty) := h ▸ List.mem_map_of_mem he
  obtain ⟨a, ha, hty⟩ := List.mem_map.mp hmem
  exact hty ▸ hes a ha

theorem length_of_types {es' : List Expr} (h : es'.map (·.ty) = es.map (·.ty)) : es'.length = es.length := by
  rw [← List.length_map (·.ty), h, List.length_map]

variable {P : Span → Prop}

/-- Folding keeps the type of an expression, and all types that meet in what
it is folded to agree. -/
theorem Typed.fold_hasTy (h : Typed P e) : Ends (fun _ => True) (·.HasTy e.ty) e.fold := by
  induction h with
  | number hi hty => exact Ends.pure ⟨.leaf rfl ⟨(Typed.number hi hty).defined, hty⟩, rfl⟩
  | fixed hi hty => exact Ends.pure ⟨.leaf rfl ⟨(Typed.fixed hi hty).defined, hty⟩, rfl⟩
  | var _ _ hty => exact Ends.pure ⟨.leaf rfl ⟨hty.defined, trivial⟩, rfl⟩
  | index _ _ hty _ hvalue ih =>
    rw [Expr.fold]
    refine (foldAll_hasTy ih).bind fun es hes => foldIndex_hasTy hty.defined ?_
    intro e he
    obtain ⟨a, ha, rfl⟩ := List.mem_map.mp he
    exact (hes.2 a ha).toTy (values_of_types hes.1 hvalue a ha) .int
  | @array _ i _ hty _ hvalue ih =>
    rw [Expr.fold]
    refine (foldAll_hasTy ih).bind fun es hes => Ends.pure ⟨?_, rfl⟩
    refine sound_iff.mpr ⟨⟨hty.defined, trivial⟩, fun e he => ?_⟩
    obtain ⟨a, ha, rfl⟩ := List.mem_map.mp he
    exact (hes.2 a ha).cast i.ty
  | op _ hplain ho hconv hty _ hvalue ih =>
    rw [Expr.fold]
    refine (foldAll_hasTy ih).bind fun es hes => ?_
    refine foldOp_hasTy hplain ((length_of_types hes.1).trans ho) hconv (hes.1 ▸ hty) hes.2 fun hkind => ?_
    exact values_of_types hes.1 (hvalue hkind)
  | @choice a b i j cond _ _ hty _ _ _ hvalue ihc iha ihb =>
    have hbranches : Ends (fun _ => True)
        (fun e => ∃ a' b', e = .op j .conditionalElse [a', b'] ∧ a'.HasTy a.ty ∧ b'.HasTy b.ty)
        (Expr.op j .conditionalElse [a, b]).fold := by
      rw [Expr.fold, foldAll, foldAll, foldAll]
      simp only [bind_assoc, pure_bind]
      refine iha.bind fun a' ha => ihb.bind fun b' hb => ?_
      exact Ends.pure ⟨a', b', rfl, ha, hb⟩
    rw [Expr.fold, foldAll, foldAll, foldAll]
    simp only [bind_assoc, pure_bind]
    refine ihc.bind fun cond' hc => hbranches.bind ?_
    rintro _ ⟨a', b', rfl, ha, hb⟩
    refine foldConditional_hasTy ?_ hc.sound ha.sound hb.sound (ha.ty_eq ▸ hvalue.1) (hb.ty_eq ▸ hvalue.2)
    rw [ha.ty_eq, hb.ty_eq]
    exact hty
  | function _ hty hsound hs _ hvalue ih =>
    rw [Expr.fold]
    refine (foldAll_hasTy ih).bind fun es hes => ?_
    obtain ⟨htake, hargs⟩ := castArgs_take ((length_of_types hes.1).trans hs) hsound.params hes.2
      (values_of_types hes.1 hvalue)
    refine Ends.pure ⟨sound_iff.mpr ⟨⟨?_, htake⟩, hargs⟩, rfl⟩
    exact fun h => hsound.ret (hty.symm.trans h)
  | @builtin es i name b hi hty hb hes hvalue ih =>
    have htyped : Typed P (call i name (some (.builtin b)) es) := .builtin hi hty hb hes hvalue
    rw [Expr.fold]
    refine (foldAll_hasTy ih).bind fun es' hes' => Ends.pure ⟨?_, rfl⟩
    refine sound_iff.mpr ⟨⟨htyped.defined, ?_⟩, hes'.2⟩
    show (es'.map (·.ty)).length = _
    rw [List.length_map, length_of_types hes'.1, hb]

end Expr
end RobotScript
