/-
# Folding keeps values

Folding computes what is constant, merges two constants of a sum or a product
into one, turns a negated comparison around, drops what cannot be reached and
flattens constant indices. None of this changes the value of an expression over
numbers and truth values, nor the fault that it ends in, as long as the variables
of type `bool` hold truth values.

Key definitions: `Expr.IsIntegral`, `Expr.Whole`, `Expr.Meant`, `Expr.Same`.
Key theorems: `Expr.whole_of_typed`, `Expr.Whole.meant`, `Expr.foldBinary_same`,
`Expr.Whole.fold_same`, `Expr.fold_keeps_value`.
-/
import Mathlib.Data.List.Forall2
import RobotScript.Proofs.Evaluation
import RobotScript.Proofs.ExprParts
import RobotScript.Proofs.Stepping

namespace RobotScript

open Machine (Unary Binary)

/-- A cell that is a truth value. -/
def IsTruth (v : Cell) : Prop := v = 0 ∨ v = 1

theorem isTruth_truthCell (b : Bool) : IsTruth (truthCell b) := by
  cases b
  · exact .inl rfl
  · exact .inr rfl

/-- A truth value is that of its being other than zero. -/
theorem IsTruth.eq_truthCell {v : Cell} (h : IsTruth v) : truthCell (v != 0) = v := by
  rcases h with rfl | rfl <;> rfl

/-! ### Operators of the machine -/

namespace Machine.Binary

/-- The result of a comparison or a logical operator is a truth value. -/
theorem eval_truth {b : Binary} (hb : (b.isComparison || b.isLogical) = true) {p q v : Int32}
    (h : b.eval p q = some v) : ∃ t : Bool, v = truth t := by
  cases b with
  | eq | ne | gt | ge | lt | le | or | and => exact ⟨_, (Option.some.inj h).symm⟩
  | _ => cases hb

theorem toCell_truth (t : Bool) : toCell (truth t) = truthCell t := by
  cases t <;> rfl

theorem evalCell_mult (p q : Cell) : mult.evalCell p q = some (p * q) := by
  show some (toCell (p.toInt32 * q.toInt32)) = _
  rw [toCell, Int32.toInt16_mul, Int16.toInt16_toInt32, Int16.toInt16_toInt32]

theorem evalCell_bitAnd (p q : Cell) : bitAnd.evalCell p q = some (p &&& q) := by
  show some (toCell (p.toInt32 &&& q.toInt32)) = _
  rw [toCell, Int32.toInt16_and, Int16.toInt16_toInt32, Int16.toInt16_toInt32]

theorem evalCell_bitOr (p q : Cell) : bitOr.evalCell p q = some (p ||| q) := by
  show some (toCell (p.toInt32 ||| q.toInt32)) = _
  rw [toCell, Int32.toInt16_or, Int16.toInt16_toInt32, Int16.toInt16_toInt32]

theorem evalCell_bitXor (p q : Cell) : bitXor.evalCell p q = some (p ^^^ q) := by
  show some (toCell (p.toInt32 ^^^ q.toInt32)) = _
  rw [toCell, Int32.toInt16_xor, Int16.toInt16_toInt32, Int16.toInt16_toInt32]

/-- Two constants of a chain of one operator are merged by the operator. -/
theorem evalCell_merge {b : Binary} (hb : Expr.reassociates b = true) {k n : Cell} {v : Int32}
    (hv : b.eval k.toInt32 n.toInt32 = some v) (p : Cell) :
    ∃ w, b.evalCell p k = some w ∧ b.evalCell w n = b.evalCell p (toCell v) := by
  have hmerged : b.evalCell k n = some (toCell v) := Option.map_eq_some_iff.mpr ⟨v, hv, rfl⟩
  have hchain {f : Cell → Cell → Cell} (hf : ∀ p q, b.evalCell p q = some (f p q))
      (hassoc : ∀ p q r, f (f p q) r = f p (f q r)) :
      ∃ w, b.evalCell p k = some w ∧ b.evalCell w n = b.evalCell p (toCell v) := by
    rw [hf] at hmerged
    refine ⟨_, hf p k, ?_⟩
    rw [hf, hf, ← Option.some.inj hmerged, hassoc]
  cases b with
  | add => exact hchain evalCell_add Int16.add_assoc
  | mult => exact hchain evalCell_mult Int16.mul_assoc
  | bitAnd => exact hchain evalCell_bitAnd Int16.and_assoc
  | bitOr => exact hchain evalCell_bitOr Int16.or_assoc
  | bitXor => exact hchain evalCell_bitXor Int16.xor_assoc
  | _ => cases hb

/-- A negated comparison has the opposite truth value. -/
theorem evalCell_negated {b b' : Binary} (hb : b.negated? = some b') (p q : Cell) :
    ∃ t, b.evalCell p q = some (truthCell t) ∧ b'.evalCell p q = some (truthCell (!t)) := by
  have htruth (t : Bool) : (some (truth t)).map toCell = some (truthCell t) := by
    rw [Option.map_some, toCell_truth]
  have hle (m n : Int32) : decide (m ≤ n) = !decide (n < m) := by
    simp only [← Int32.not_lt, decide_not]
  have hlt (m n : Int32) : decide (m < n) = !decide (n ≤ m) := by
    simp only [← Int32.not_le, decide_not]
  -- both results are truth values, so it is enough that these are opposite
  have hopposite {s t : Bool} (hs : b.eval p.toInt32 q.toInt32 = some (truth s))
      (ht : b'.eval p.toInt32 q.toInt32 = some (truth t)) (hst : t = !s) :
      ∃ t, b.evalCell p q = some (truthCell t) ∧ b'.evalCell p q = some (truthCell (!t)) := by
    refine ⟨s, ?_, ?_⟩
    · rw [evalCell, hs, htruth]
    · rw [evalCell, ht, htruth, hst]
  cases b with
  | eq =>
    cases hb
    exact hopposite rfl rfl rfl
  | ne =>
    cases hb
    exact hopposite rfl rfl (Bool.not_not _).symm
  | gt | lt =>
    cases hb
    exact hopposite rfl rfl (hle _ _)
  | le | ge =>
    cases hb
    exact hopposite rfl rfl (hlt _ _)
  | _ => cases hb

end Machine.Binary

/-- The operator of an expression that the machine has an instruction for. -/
def Machine.Unary.op : Unary → Op
  | neg => .negate
  | abs => .abs
  | bitNot => .bitNot

/-- The operators of expressions over numbers and truth values. -/
def Op.isIntegral : Op → Bool
  | binary _ | logicAnd | logicOr | negate | bitNot | abs | not | conditional | conditionalElse
  | comma => true
  | cast ty => decide ty.IsWhole
  | _ => false

namespace Expr

variable {look : Contents} {e x y : Expr}

/-- At its top an expression is one over numbers and truth values: a literal, a
word of a variable or one of the operators. -/
def IsIntegral : Expr → Prop
  | number i n => i.ty = .bool → IsTruth n
  | var _ v => ∃ s, v.storage = some s ∧ s.size = 1
  | index _ v _ => ∃ s, v.storage = some s
  | op _ o _ => o.isIntegral = true
  | _ => False

instance : DecidablePred IsIntegral
  | number i n => inferInstanceAs (Decidable (i.ty = .bool → n = 0 ∨ n = 1))
  | var _ v => decidable_of_iff (v.storage.any (·.size == 1)) (by simp [IsIntegral, Option.any_eq_true])
  | index _ v _ => decidable_of_iff v.storage.isSome Option.isSome_iff_exists
  | op _ o _ => inferInstanceAs (Decidable (o.isIntegral = true))
  | fixed _ _ | array _ _ | call _ _ _ _ | placeholder _ => isFalse id

/-- The variable at the top of an expression. -/
def storage? : Expr → Option Storage
  | var _ v | index _ v _ => v.storage
  | _ => none

/-- A typed expression over numbers and truth values, whose variables of type
`bool` hold truth values. -/
inductive Whole (look : Contents) : Expr → Prop
  | number {i : Info} {n : Cell} (hty : i.ty.IsWhole) (htruth : i.ty = .bool → IsTruth n) :
    Whole look (number i n)
  | var {i : Info} {v : Variable} {s : Storage} (hs : v.storage = some s) (hsize : s.size = 1)
    (hty : i.ty = s.ty) (hwhole : i.ty.IsWhole) (htruth : s.ty = .bool → IsTruth (look s 0)) :
    Whole look (var i v)
  | index {i : Info} {v : Variable} {s : Storage} {es : List Expr} (hs : v.storage = some s)
    (hlen : es.length = 1 ∨ es.length = s.dims.length) (hty : i.ty = s.ty) (hwhole : i.ty.IsWhole)
    (htruth : s.ty = .bool → ∀ k < s.size, IsTruth (look s k)) (hes : ∀ e ∈ es, Whole look e) :
    Whole look (index i v es)
  | binary {i : Info} {b : Binary} {x y : Expr} (hty : i.ty = binaryTy b x.ty y.ty)
    (hx : Whole look x) (hy : Whole look y) : Whole look (op i (.binary b) [x, y])
  | logic {i : Info} {o : Op} {x y : Expr} (ho : o = .logicAnd ∨ o = .logicOr) (hty : i.ty = .bool)
    (hx : Whole look x) (hy : Whole look y) : Whole look (op i o [x, y])
  | unary {i : Info} {u : Unary} {x : Expr} (hty : i.ty = .int) (hx : Whole look x) :
    Whole look (op i u.op [x])
  | not {i : Info} {x : Expr} (hty : i.ty = .bool) (hx : Whole look x) : Whole look (op i .not [x])
  | cast {i : Info} {ty : Ty} {x : Expr} (hwhole : ty.IsWhole) (hty : i.ty = ty)
    (hx : Whole look x) : Whole look (op i (.cast ty) [x])
  | choice {i j : Info} {cond a b : Expr} (hty : i.ty = a.ty.join b.ty) (hcond : Whole look cond)
    (ha : Whole look a) (hb : Whole look b) :
    Whole look (op i .conditional [cond, op j .conditionalElse [a, b]])
  | comma {i : Info} {a b : Expr} (hty : i.ty = b.ty) (ha : Whole look a) (hb : Whole look b) :
    Whole look (op i .comma [a, b])

/-! ### Typed expressions -/

variable {e' a x' : Expr} {es es' : List Expr} {o : Op} {p q ty : Ty} {i : Info}

theorem eq_of_asOperand {kind : Op.Operand} (h : e.asOperand kind = .ok e') : e' = e := by
  unfold asOperand at h
  split at h
  · cases h
  · split at h
    · cases h
    · exact (Except.ok.inj h).symm

theorem typedAll_mem {c : Calls} {kind : Op.Operand} : ∀ {es es' : List Expr},
    typedAll c kind es = .ok es' → es'.length = es.length ∧ ∀ e' ∈ es', ∃ e ∈ es, e.typed c = .ok e'
  | [], es', h => by
    cases h
    exact ⟨rfl, nofun⟩
  | e :: es, es', h => by
    rw [typedAll] at h
    obtain ⟨a, ha, h⟩ := bind_eq_ok.mp h
    obtain ⟨a', ha', h⟩ := bind_eq_ok.mp h
    obtain ⟨as, has, h⟩ := bind_eq_ok.mp h
    cases h
    obtain ⟨hlen, hmem⟩ := typedAll_mem has
    refine ⟨congrArg (· + 1) hlen, ?_⟩
    rintro e' (_ | ⟨_, he'⟩)
    · exact ⟨e, List.mem_cons_self, eq_of_asOperand ha' ▸ ha⟩
    · obtain ⟨b, hb, hty⟩ := hmem e' he'
      exact ⟨b, List.mem_cons_of_mem _ hb, hty⟩

/-- What is asked of each part of an expression: its type, its kind, and that
its variable holds truth values if it is to. -/
structure WholePart (look : Contents) (a : Expr) : Prop where
  ty : a.ty.IsWhole
  integral : a.IsIntegral
  truth : ∀ s, a.storage? = some s → s.ty = .bool → ∀ k < s.size, IsTruth (look s k)

theorem operands_of_typedOp {span : Span} (h : typedOp o span es = .ok e) :
    e.operands = es ∨ e.operands = [] := by
  have hplace {b : Bool} {info : Info} {o : Op} {es : List Expr} {fault : SemanticFault}
      (h : (if b then .ok (op info o es) else semantic fault span) = .ok e) : e.operands = es := by
    split at h
    · exact congrArg operands (Except.ok.inj h).symm
    · cases h
  unfold typedOp at h
  dsimp only at h
  split at h
  case h_2 => exact .inr (congrArg operands (Except.ok.inj h).symm)
  case h_3 | h_4 | h_5 | h_6 | h_7 | h_8 => exact .inl (hplace h)
  case h_17 => cases h
  all_goals exact .inl (congrArg operands (Except.ok.inj h).symm)

theorem whole_of_typedOp {span : Span} (hlen : es.length = o.arity) (h : typedOp o span es = .ok e)
    (htop : WholePart look e) (hes : ∀ a ∈ e.operands, Whole look a) : Whole look e := by
  have htwo (hlen : es.length = 2) : ∃ x y, es = [x, y] := List.length_eq_two.mp hlen
  have hone (hlen : es.length = 1) : ∃ x, es = [x] := List.length_eq_one_iff.mp hlen
  have hint {ty : Ty} (hty : (if ty = .fixed then Ty.fixed else .int).IsWhole) :
      (if ty = .fixed then Ty.fixed else .int) = .int := by
    split at hty
    · exact absurd hty (by decide)
    · rename_i hne
      exact if_neg hne
  cases o with
  | binary b =>
    obtain ⟨x, y, rfl⟩ := htwo hlen
    cases h
    exact .binary rfl (hes x (by simp [operands])) (hes y (by simp [operands]))
  | logicAnd =>
    obtain ⟨x, y, rfl⟩ := htwo hlen
    cases h
    exact .logic (.inl rfl) rfl (hes x (by simp [operands])) (hes y (by simp [operands]))
  | logicOr =>
    obtain ⟨x, y, rfl⟩ := htwo hlen
    cases h
    exact .logic (.inr rfl) rfl (hes x (by simp [operands])) (hes y (by simp [operands]))
  | comma =>
    obtain ⟨x, y, rfl⟩ := htwo hlen
    cases h
    exact .comma rfl (hes x (by simp [operands])) (hes y (by simp [operands]))
  | negate =>
    obtain ⟨x, rfl⟩ := hone hlen
    cases h
    exact .unary (u := .neg) (hint htop.ty) (hes x (by simp [operands]))
  | abs =>
    obtain ⟨x, rfl⟩ := hone hlen
    cases h
    exact .unary (u := .abs) (hint htop.ty) (hes x (by simp [operands]))
  | bitNot =>
    obtain ⟨x, rfl⟩ := hone hlen
    cases h
    exact .unary (u := .bitNot) rfl (hes x (by simp [operands]))
  | not =>
    obtain ⟨x, rfl⟩ := hone hlen
    cases h
    exact .not rfl (hes x (by simp [operands]))
  | cast ty =>
    obtain ⟨x, rfl⟩ := hone hlen
    cases h
    exact .cast htop.ty rfl (hes x (by simp [operands]))
  | size =>
    obtain ⟨x, rfl⟩ := hone hlen
    cases h
    exact .number (.inl rfl) (by rintro ⟨⟩)
  | bool v =>
    obtain rfl := List.eq_nil_of_length_eq_zero hlen
    cases h
  | conditional | conditionalElse =>
    obtain ⟨x, y, rfl⟩ := htwo hlen
    cases h
  | assign | compound b =>
    obtain ⟨x, y, rfl⟩ := htwo hlen
    unfold typedOp at h
    dsimp only at h
    split at h
    · cases h
      cases (htop.integral : false = true)
    · cases h
  | preIncrement | preDecrement | postIncrement | postDecrement =>
    obtain ⟨x, rfl⟩ := hone hlen
    unfold typedOp at h
    dsimp only at h
    split at h
    · cases h
      cases (htop.integral : false = true)
    · cases h

/-- Types make an expression a typed one, whatever it is made from. -/
theorem whole_of_typed {c : Calls} (source : Expr) : ∀ e, source.typed c = .ok e →
    e.Every (WholePart look) → Whole look e := by
  induction source using Expr.induct₂ with
  | _ source ih ih2 =>
  intro e h he
  cases source with
  | number i n =>
    cases h
    exact .number he.top.ty he.top.integral
  | fixed i f | placeholder i =>
    cases h
    exact he.top.integral.elim
  | var i v =>
    rw [typed] at h
    split at h
    · cases h
    · rename_i s hs
      cases h
      obtain ⟨s', hs', hsize⟩ := he.top.integral
      obtain rfl : s = s' := Option.some.inj (hs.symm.trans hs')
      exact .var hs hsize rfl he.top.ty fun hbool => he.top.truth s hs hbool 0 (by omega)
  | index i v es =>
    rw [typed] at h
    split at h
    · cases h
    · rename_i s hs
      split at h
      · cases h
      · rename_i hlen
        obtain ⟨es', hes', h⟩ := bind_eq_ok.mp h
        cases h
        obtain ⟨hlen', hmem⟩ := typedAll_mem hes'
        refine .index hs (by omega) rfl he.top.ty (he.top.truth s hs) fun a ha => ?_
        obtain ⟨a0, ha0, hty⟩ := hmem a ha
        exact ih a0 ha0 a hty (he.operands a ha)
  | array i es =>
    rw [typed] at h
    obtain ⟨es', hes', h⟩ := bind_eq_ok.mp h
    cases h
    exact he.top.integral.elim
  | call i name callee es =>
    have hcall : ∃ i name callee es, e = .call i name callee es := by
      unfold typed at h
      split at h
      · split at h
        · cases h
        · obtain ⟨es', -, h⟩ := bind_eq_ok.mp h
          cases h
          exact ⟨_, _, _, _, rfl⟩
      · split at h
        · split at h
          · cases h
          · obtain ⟨es', -, h⟩ := bind_eq_ok.mp h
            cases h
            exact ⟨_, _, _, _, rfl⟩
        · cases h
    obtain ⟨_, _, _, _, rfl⟩ := hcall
    exact he.top.integral.elim
  | op i o es =>
    unfold typed at h
    split at h
    · cases h
      exact .number (.inr rfl) fun _ => isTruth_truthCell _
    · cases h
    · split at h
      · rename_i cond branches a b
        have hparts := ih2 (.op branches .conditionalElse [a, b]) (by simp [operands])
        obtain ⟨cond', hcond, h⟩ := bind_eq_ok.mp h
        obtain ⟨cond'', hcond', h⟩ := bind_eq_ok.mp h
        obtain ⟨a', ha, h⟩ := bind_eq_ok.mp h
        obtain ⟨a'', ha', h⟩ := bind_eq_ok.mp h
        obtain ⟨b', hb, h⟩ := bind_eq_ok.mp h
        obtain ⟨b'', hb', h⟩ := bind_eq_ok.mp h
        cases h
        obtain rfl := eq_of_asOperand hcond'
        obtain rfl := eq_of_asOperand ha'
        obtain rfl := eq_of_asOperand hb'
        have helse := he.operands (op (.scalar branches.span (a''.ty.join b''.ty)) .conditionalElse [a'', b''])
          (by simp [operands])
        refine .choice rfl (ih cond (by simp [operands]) _ hcond (he.operands _ (by simp [operands])))
          (hparts a (by simp [operands]) _ ha (helse.operands _ (by simp [operands])))
          (hparts b (by simp [operands]) _ hb (helse.operands _ (by simp [operands])))
      all_goals cases h
    · split at h
      · cases h
      · rename_i hlen
        obtain ⟨es', hes', h⟩ := bind_eq_ok.mp h
        obtain ⟨hlen', hmem⟩ := typedAll_mem hes'
        refine whole_of_typedOp (hlen'.trans (by simpa using hlen)) h he.top fun a ha => ?_
        rcases operands_of_typedOp h with hes | hes
        · obtain ⟨a0, ha0, hty⟩ := hmem a (hes ▸ ha)
          exact ih a0 ha0 a hty (he.operands a ha)
        · rw [hes] at ha
          cases ha

/-! ### What has a value -/

/-- An expression that is a number or a truth value, or ends in a fault of the
machine. -/
structure Meant (look : Contents) (e : Expr) : Prop where
  ty : e.ty.IsWhole
  ends : Ends (· ≠ ValueFault.noValue) (fun v => e.ty = .bool → IsTruth v) (e.eval look)

theorem Meant.valued (h : Meant look e) : e.eval look ≠ .error .noValue :=
  fun hnone => h.ends.of_error hnone rfl

theorem binaryTy_isWhole (b : Binary) (hp : p.IsWhole) (hq : q.IsWhole) : (binaryTy b p q).IsWhole := by
  rcases hp with rfl | rfl <;> rcases hq with rfl | rfl <;> cases b <;> decide

theorem binaryTy_bool {b : Binary} (hp : p.IsWhole) (hq : q.IsWhole) (h : binaryTy b p q = .bool) :
    (b.isComparison || b.isLogical) = true := by
  revert h
  rcases hp with rfl | rfl <;> rcases hq with rfl | rfl <;> cases b <;> decide

theorem join_isWhole (hp : p.IsWhole) (hq : q.IsWhole) : (p.join q).IsWhole := by
  rcases hp with rfl | rfl <;> rcases hq with rfl | rfl <;> decide

theorem join_bool (hp : p.IsWhole) (hq : q.IsWhole) (h : p.join q = .bool) : p = .bool ∧ q = .bool := by
  revert h
  rcases hp with rfl | rfl <;> rcases hq with rfl | rfl <;> decide

/-- A value that is converted to a truth value is one. -/
theorem isTruth_convertCell {v : Cell} (h : ty = .bool → IsTruth v) : IsTruth (convertCell ty .bool v) := by
  unfold convertCell
  split
  · exact isTruth_truthCell _
  · rename_i hty
    exact h (by simpa using hty)

theorem applyBinary_ends (b : Binary) (p q : Cell) :
    Ends (· ≠ ValueFault.noValue) (fun v => (b.isComparison || b.isLogical) = true → IsTruth v)
      (applyBinary b p q) := by
  unfold applyBinary
  split
  · rename_i v hv
    intro hb
    obtain ⟨w, hw, rfl⟩ := Option.map_eq_some_iff.mp hv
    obtain ⟨t, rfl⟩ := Binary.eval_truth hb hw
    rw [Binary.toCell_truth]
    exact isTruth_truthCell t
  · exact fun h => nomatch h

theorem position_ends (hes : ∀ e ∈ es, Meant look e) (dims : List Nat) (stride : Nat) :
    Ends (· ≠ ValueFault.noValue) (fun _ => True) (position look dims stride es) := by
  induction es generalizing dims stride with
  | nil => exact trivial
  | cons e es ih =>
    rw [position]
    refine (hes e List.mem_cons_self).ends.bind fun v _ => ?_
    exact (ih (fun a ha => hes a (List.mem_cons_of_mem _ ha)) _ _).bind fun _ _ => Ends.pure trivial

/-- A typed expression has a value or ends in a fault of the machine, and one of
type `bool` is a truth value. -/
theorem Whole.meant (h : Whole look e) : Meant look e := by
  induction h with
  | number hty htruth => exact ⟨hty, htruth⟩
  | var hs hsize hty hwhole htruth =>
    refine ⟨hwhole, ?_⟩
    rw [eval, hs]
    dsimp only
    rw [if_pos hsize]
    exact fun hbool => htruth (hty ▸ hbool)
  | @index i v s es hs hlen hty hwhole htruth hes ih =>
    refine ⟨hwhole, ?_⟩
    rw [eval, hs]
    refine (position_ends ih _ _).bind fun k _ => ?_
    split
    · rename_i hk
      refine fun hbool => htruth (hty ▸ hbool) _ ?_
      have hlt : k.toUInt16.toNat < (UInt16.ofNat s.size).toNat := UInt16.lt_iff_toNat_lt.mp hk
      rw [UInt16.toNat_ofNat'] at hlt
      exact Nat.lt_of_lt_of_le hlt (Nat.mod_le _ _)
    · rintro ⟨⟩
  | @binary i b x y hty hx hy ihx ihy =>
    have hwhole : i.ty.IsWhole := hty ▸ binaryTy_isWhole b ihx.ty ihy.ty
    refine ⟨hwhole, ?_⟩
    rw [eval_binary]
    refine ihx.ends.bind fun p _ => ihy.ends.bind fun q _ => (applyBinary_ends b p q).mono fun v hv hbool => ?_
    exact hv (binaryTy_bool ihx.ty ihy.ty (hty.symm.trans hbool))
  | @logic i o x y ho hty hx hy ihx ihy =>
    refine ⟨.inr hty, ?_⟩
    rcases ho with rfl | rfl
    · rw [eval]
      refine ihx.ends.bind fun p hp => ?_
      dsimp only
      split
      · exact fun _ => isTruth_convertCell hp
      · exact ihy.ends.bind fun q hq => fun _ => isTruth_convertCell hq
    · rw [eval]
      refine ihx.ends.bind fun p hp => ?_
      dsimp only
      split
      · exact ihy.ends.bind fun q hq => fun _ => isTruth_convertCell hq
      · exact fun _ => isTruth_convertCell hp
  | @unary i u x hty hx ih =>
    refine ⟨.inl hty, ?_⟩
    have hint : ¬(op i u.op [x]).ty = .bool := fun h => by cases hty.symm.trans h
    cases u with
    | neg | abs | bitNot =>
      rw [Unary.op, eval]
      exact ih.ends.bind fun p _ => fun h => absurd h hint
  | not hty hx ih =>
    refine ⟨.inr hty, ?_⟩
    rw [eval]
    exact ih.ends.bind fun p _ => fun _ => isTruth_truthCell _
  | @cast i ty x hwhole hty hx ih =>
    refine ⟨hty ▸ hwhole, ?_⟩
    rw [eval]
    refine ih.ends.bind fun p hp => fun hbool => ?_
    obtain rfl : ty = .bool := hty.symm.trans hbool
    exact isTruth_convertCell hp
  | @choice i j cond a b hty hcond ha hb ihc iha ihb =>
    have hwhole : i.ty.IsWhole := hty ▸ join_isWhole iha.ty ihb.ty
    refine ⟨hwhole, ?_⟩
    rw [eval]
    refine ihc.ends.bind fun p _ => ?_
    split
    · exact ihb.ends.mono fun v hv hbool => hv (join_bool iha.ty ihb.ty (hty.symm.trans hbool)).2
    · exact iha.ends.mono fun v hv hbool => hv (join_bool iha.ty ihb.ty (hty.symm.trans hbool)).1
  | @comma i a b hty ha hb iha ihb =>
    have hwhole : i.ty.IsWhole := hty ▸ ihb.ty
    refine ⟨hwhole, ?_⟩
    rw [eval]
    refine iha.ends.bind fun p _ => ihb.ends.mono fun v hv hbool => hv (hty.symm.trans hbool)

/-! ### Folding -/

/-- Another expression of the same type and with the same value. -/
structure Same (look : Contents) (e e' : Expr) : Prop where
  ty : e'.ty = e.ty
  value : e'.eval look = e.eval look

theorem Same.meant (h : Same look e e') (he : Meant look e) : Meant look e' := by
  refine ⟨h.ty ▸ he.ty, ?_⟩
  rw [h.value, h.ty]
  exact he.ends

theorem Meant.eval_cast (h : Meant look e) (hty : ty.IsWhole) :
    (e.cast ty).eval look = convertCell e.ty ty <$> e.eval look :=
  Expr.eval_cast h.ty hty h.valued

theorem Meant.cast_ty (h : Meant look e) (hty : ty.IsWhole) : (e.cast ty).ty = ty := by
  refine Expr.cast_ty ?_ ?_
  · rcases hty with rfl | rfl
    · exact .int
    · exact .bool
  · rcases h.ty with h | h <;> rw [h] <;> nofun

/-- Converted to a number, a value stays what it is. -/
theorem Meant.eval_cast_int (h : Meant look e) : (e.cast .int).eval look = e.eval look := by
  rw [h.eval_cast (.inl rfl), show convertCell e.ty .int = id from funext (convertCell_int e.ty), id_map]

/-- An operand of an operator of the machine keeps its value when it is
converted. -/
theorem castOperands_values (b : Binary) (hx : Meant look x) (hy : Meant look y) :
    (castOperands b x y).1.eval look = x.eval look ∧ (castOperands b x y).2.eval look = y.eval look := by
  have hfixed : (x.ty == .fixed || y.ty == .fixed) = false := by
    rcases hx.ty with h | h <;> rcases hy.ty with h' | h' <;> rw [h, h'] <;> rfl
  unfold castOperands
  dsimp only
  rw [hfixed]
  cases b with
  | shl | shr => exact ⟨rfl, hy.eval_cast_int⟩
  | bitAnd | bitOr | bitXor => exact ⟨hx.eval_cast_int, hy.eval_cast_int⟩
  | _ => exact ⟨rfl, rfl⟩

theorem eq_op_of_splitConstant? {b : Binary} {k : Cell} (h : splitConstant? b x = some (a, k)) :
    ∃ i j, x = op i (.binary b) [a, number j k] := by
  unfold splitConstant? at h
  split at h
  · split at h
    · rename_i hb
      obtain ⟨rfl, rfl⟩ := Prod.mk.inj (Option.some.inj h)
      exact ⟨_, _, by rw [hb.1]⟩
    · cases h
  · cases h

/-- What folding makes of a binary operator on operands that are not scaled: a
constant, the operator with two constants merged, or the operator. -/
theorem foldBinary_cases {b : Binary} {span : Span} (hx : x.ty.IsWhole) (hy : y.ty.IsWhole)
    (h : foldBinary b x y span ty = .ok e) :
    (∃ i m j n v, castOperands b x y = (number i m, number j n) ∧
      b.eval m.toInt32 n.toInt32 = some v ∧
      e = if b.isComparison || b.isLogical then bool (v != 0) span
        else number (.scalar span ty) (toCell v)) ∨
    (∃ i a j k l n v, castOperands b x y = (op i (.binary b) [a, number j k], number l n) ∧
      reassociates b = true ∧ b.eval k.toInt32 n.toInt32 = some v ∧
      e = op (.scalar span ty) (.binary b) [a, int (toCell v) span]) ∨
    e = op (.scalar span ty) (.binary b) [(castOperands b x y).1, (castOperands b x y).2] := by
  have hfixed : (x.ty == .fixed || y.ty == .fixed) = false := by
    rcases hx with h | h <;> rcases hy with h' | h' <;> rw [h, h'] <;> rfl
  unfold foldBinary at h
  rw [hfixed] at h
  generalize castOperands b x y = operands at h ⊢
  obtain ⟨x', y'⟩ := operands
  dsimp only at h ⊢
  split at h
  · rename_i i m j n
    split at h
    · cases h
    · rename_i v hv
      refine .inl ⟨i, m, j, n, v, rfl, hv, ?_⟩
      split at h
      · rename_i hb
        rw [if_pos hb]
        exact (Except.ok.inj h).symm
      · rename_i hb
        rw [if_neg hb]
        exact (Except.ok.inj h).symm
  · simp only [Bool.false_eq_true, if_false] at h
    split at h
    · rename_i hb
      split at h
      · rename_i a k n hsplit
        simp only [Prod.mk.injEq] at hsplit
        obtain ⟨hsplit, hn⟩ := hsplit
        obtain ⟨l, rfl⟩ := eq_number_of_number? hn
        obtain ⟨i, j, rfl⟩ := eq_op_of_splitConstant? hsplit
        split at h
        · rename_i v hv
          exact .inr (.inl ⟨i, a, j, k, l, n, v, rfl, hb.1, hv, (Except.ok.inj h).symm⟩)
        · exact .inr (.inr (Except.ok.inj h).symm)
      · exact .inr (.inr (Except.ok.inj h).symm)
    · exact .inr (.inr (Except.ok.inj h).symm)

/-- A binary operator is folded to something of its type and value. -/
theorem foldBinary_same {b : Binary} (hx : Meant look x) (hy : Meant look y)
    (hty : i.ty = binaryTy b x.ty y.ty) (h : foldBinary b x y i.span i.ty = .ok e) :
    Same look (op i (.binary b) [x, y]) e := by
  obtain ⟨hx', hy'⟩ := castOperands_values b hx hy
  rcases foldBinary_cases hx.ty hy.ty h with ⟨_, m, _, n, v, hcast, hv, rfl⟩ |
    ⟨_, a, _, k, _, n, v, hcast, hb, hv, rfl⟩ | rfl
  · rw [hcast] at hx' hy'
    have happly : applyBinary b m n = .ok (toCell v) := by
      rw [applyBinary, Binary.evalCell, hv]
      rfl
    have hvalue : (op i (.binary b) [x, y]).eval look = .ok (toCell v) := by
      rw [eval_binary, ← hx', ← hy']
      exact happly
    by_cases hb : (b.isComparison || b.isLogical) = true
    · rw [if_pos hb]
      obtain ⟨t, rfl⟩ := Binary.eval_truth hb hv
      refine ⟨(hty.trans (binaryTy_truth hb)).symm, ?_⟩
      rw [hvalue, Binary.toCell_truth, eval_bool]
      cases t <;> rfl
    · rw [if_neg hb]
      exact ⟨rfl, hvalue.symm⟩
  · rw [hcast] at hx' hy'
    refine ⟨rfl, ?_⟩
    rw [eval_binary, eval_binary, ← hx', ← hy', eval_binary]
    show (do let p ← a.eval look; applyBinary b p (toCell v)) =
      (do let p ← (do let p ← a.eval look; applyBinary b p k); applyBinary b p n)
    rw [bind_assoc]
    refine congrArg _ (funext fun p => ?_)
    obtain ⟨w, hw, hmerge⟩ := Binary.evalCell_merge hb hv p
    rw [applyBinary, applyBinary, hw, ← hmerge]
    rfl
  · refine ⟨rfl, ?_⟩
    rw [eval_binary, eval_binary, hx', hy']

theorem truth?_of_eval {t : Bool} (hx : Meant look x) (h : x.truth? = some t) :
    ∃ v, x.eval look = .ok v ∧ (v != 0) = t := by
  cases x with
  | number i n => exact ⟨n, rfl, Option.some.inj h⟩
  | fixed i f => exact absurd rfl hx.valued
  | _ => cases h

theorem Meant.cast (h : Meant look e) (hty : ty.IsWhole) : Meant look (e.cast ty) := by
  have hcast := h.cast_ty hty
  refine ⟨hcast.symm ▸ hty, ?_⟩
  rw [hcast, h.eval_cast hty]
  refine h.ends.map fun v hv hbool => ?_
  subst hbool
  exact isTruth_convertCell hv

/-- Conjunction and disjunction have the value of the operand that decides. -/
theorem eval_logic (ho : o = .logicAnd ∨ o = .logicOr) (i : Info) (hx : Meant look x) (hy : Meant look y) :
    (op i o [x, y]).eval look = (do
      let p ← (x.cast .bool).eval look
      if (p != 0) = (o != .logicAnd) then return p else (y.cast .bool).eval look) := by
  rw [hx.eval_cast (.inr rfl), hy.eval_cast (.inr rfl)]
  rcases ho with rfl | rfl
  · rw [eval]
    cases x.eval look with
    | error f => rfl
    | ok v =>
      show (if convertCell x.ty .bool v = 0 then _ else _) = if (convertCell x.ty .bool v != 0) = false then _ else _
      simp only [bne_eq_false_iff_eq, map_eq_pure_bind]
  · rw [eval]
    cases x.eval look with
    | error f => rfl
    | ok v =>
      show (if convertCell x.ty .bool v = 0 then _ else _) = if (convertCell x.ty .bool v != 0) = true then _ else _
      simp only [bne_iff_ne, ne_eq, ite_not, map_eq_pure_bind]

/-- Conjunction and disjunction are folded to something of their value. -/
theorem foldLogic_same (ho : o = .logicAnd ∨ o = .logicOr) (hty : i.ty = .bool) (hx : Meant look x)
    (hy : Meant look y) : Same look (op i o [x, y]) (foldLogic o x y i) := by
  have hx' := hx.cast (.inr rfl)
  have hy' := hy.cast (.inr rfl)
  have hxty := hx.cast_ty (.inr rfl)
  have hyty := hy.cast_ty (.inr rfl)
  have hlogic := eval_logic ho i hx hy
  unfold foldLogic
  dsimp only
  split
  · rename_i p q hp hq
    obtain ⟨v, hv, rfl⟩ := truth?_of_eval hx' hp
    obtain ⟨w, hw, rfl⟩ := truth?_of_eval hy' hq
    have hvt := (hx'.ends.of_ok hv hxty).eq_truthCell
    have hwt := (hy'.ends.of_ok hw hyty).eq_truthCell
    refine ⟨hty.symm, ?_⟩
    rw [hlogic, hv, hw, eval_bool]
    show Except.ok _ = if _ then _ else _
    split
    · rw [hvt]
      rfl
    · rw [hwt]
  · rename_i p hp hq
    obtain ⟨v, hv, rfl⟩ := truth?_of_eval hx' hp
    have hvt := (hx'.ends.of_ok hv hxty).eq_truthCell
    split
    · rename_i hdecides
      refine ⟨hty.symm, ?_⟩
      rw [hlogic, hv, eval_bool, hvt]
      show _ = if _ then _ else _
      rw [if_pos hdecides]
      rfl
    · rename_i hdecides
      refine ⟨hyty.trans hty.symm, ?_⟩
      rw [hlogic, hv]
      show _ = if _ then _ else _
      rw [if_neg hdecides]
  · refine ⟨rfl, ?_⟩
    rw [hlogic, eval_logic ho _ hx' hy', cast_self hxty, cast_self hyty]

/-- A comparison turned around has the opposite truth value. -/
theorem eval_negated {b b' : Binary} {j : Info} {args : List Expr} (hb : b.negated? = some b')
    (hvalued : (op i (.binary b) args).eval look ≠ .error .noValue) :
    (op j (.binary b') args).eval look =
      (fun v => truthCell (v == 0)) <$> (op i (.binary b) args).eval look := by
  rcases args with _ | ⟨x, _ | ⟨y, _ | ⟨z, rest⟩⟩⟩
  case cons.cons.nil =>
    rw [eval_binary, eval_binary, map_eq_pure_bind, bind_assoc]
    refine congrArg _ (funext fun p => ?_)
    rw [bind_assoc]
    refine congrArg _ (funext fun q => ?_)
    obtain ⟨t, ht, ht'⟩ := Binary.evalCell_negated hb p q
    rw [applyBinary, applyBinary, ht, ht']
    cases t <;> rfl
  all_goals
    unfold eval at hvalued
    exact absurd rfl hvalued

/-- A negation is folded to something of its value. -/
theorem foldNot_same (hty : i.ty = .bool) (hx : Meant look x) : Same look (op i .not [x]) (foldNot x i) := by
  unfold foldNot
  split
  · rename_i t ht
    obtain ⟨v, hv, rfl⟩ := truth?_of_eval hx ht
    refine ⟨hty.symm, ?_⟩
    rw [eval_not, hv, eval_bool, bne, Bool.not_not]
    rfl
  · dsimp only
    have hplain : Same look (op i .not [x]) (op (.scalar i.span i.ty) .not [x]) :=
      ⟨rfl, (eval_not _ x).trans (eval_not i x).symm⟩
    split
    · rename_i j b args
      split
      · rename_i b' hb
        refine ⟨hty.symm, ?_⟩
        rw [eval_not]
        exact eval_negated hb hx.valued
      · exact hplain
    · exact hplain

theorem eval_unary (i : Info) (u : Unary) (x : Expr) :
    (op i u.op [x]).eval look = u.evalCell <$> x.eval look := by
  cases u <;> rw [Unary.op, eval, map_eq_pure_bind]

/-- A unary operator of the machine is folded to something of its value, also if
its operand is converted to a number first. -/
theorem foldUnary_same {u : Unary} (hx : x.eval look ≠ .error .noValue)
    (hvalue : x'.eval look = x.eval look) : Same look (op i u.op [x]) (foldUnary u.op u x' i) := by
  rw [← hvalue] at hx
  unfold foldUnary
  split
  · refine ⟨rfl, ?_⟩
    rw [eval_unary, ← hvalue]
    rfl
  · exact absurd rfl hx
  · exact absurd rfl hx
  · refine ⟨rfl, ?_⟩
    rw [eval_unary, eval_unary, hvalue]

theorem foldConditional_same {cond b : Expr} {j : Info} (hcond : Meant look cond) (ha : Meant look a)
    (hb : Meant look b) (hty : i.ty = a.ty.join b.ty)
    (h : foldConditional cond (op j .conditionalElse [a, b]) i = .ok e) :
    Same look (op i .conditional [cond, op j .conditionalElse [a, b]]) e := by
  have hwhole : i.ty.IsWhole := hty ▸ join_isWhole ha.ty hb.ty
  have hvalue {c : Expr} (hc : Meant look c) (hjoin : i.ty = .bool → c.ty = .bool) :
      (c.cast i.ty).eval look = c.eval look := by
    rcases hwhole with hint | hbool
    · rw [hint]
      exact hc.eval_cast_int
    · rw [cast_self ((hjoin hbool).trans hbool.symm)]
  have ha' := hvalue ha fun hbool => (join_bool ha.ty hb.ty (hty.symm.trans hbool)).1
  have hb' := hvalue hb fun hbool => (join_bool ha.ty hb.ty (hty.symm.trans hbool)).2
  unfold foldConditional at h
  dsimp only at h
  split at h
  · rename_i ht
    obtain rfl := Except.ok.inj h
    obtain ⟨v, hv, ht⟩ := truth?_of_eval hcond ht
    refine ⟨ha.cast_ty hwhole, ?_⟩
    rw [eval, hv, ha']
    show _ = if v = 0 then _ else _
    rw [if_neg (by simpa using ht)]
  · rename_i ht
    obtain rfl := Except.ok.inj h
    obtain ⟨v, hv, ht⟩ := truth?_of_eval hcond ht
    refine ⟨hb.cast_ty hwhole, ?_⟩
    rw [eval, hv, hb']
    show _ = if v = 0 then _ else _
    rw [if_pos (by simpa using ht)]
  · obtain rfl := Except.ok.inj h
    refine ⟨rfl, ?_⟩
    rw [eval, eval, ha', hb']

/-- What a variable holds is no fault. -/
theorem eval_var_ne {v : Variable} (hvalued : (var i v).eval look ≠ .error .noValue) {f : ValueFault} :
    (var i v).eval look ≠ .error f := by
  unfold eval at hvalued ⊢
  split
  · split
    · nofun
    · rename_i hs hsize
      rw [hs] at hvalued
      exact absurd (if_neg hsize) hvalued
  · rename_i hs
    rw [hs] at hvalued
    exact absurd rfl hvalued

/-- The first of two expressions is dropped only if it is a literal or a
variable. -/
theorem foldComma_same {b : Expr} (ha : Meant look a) (hty : i.ty = b.ty)
    (h : foldOp .comma [a, b] i = .ok e) : Same look (op i .comma [a, b]) e := by
  have hcomma : (op i .comma [a, b]).eval look = (do let _ ← a.eval look; b.eval look) := by
    rw [eval]
  unfold foldOp at h
  dsimp only at h
  split at h
  · obtain rfl := Except.ok.inj h
    exact ⟨hty.symm, hcomma.symm⟩
  · exact absurd rfl ha.valued
  · rename_i j v
    obtain rfl := Except.ok.inj h
    refine ⟨hty.symm, ?_⟩
    rw [hcomma]
    cases hv : (var j v).eval look with
    | ok w => rfl
    | error f => exact absurd hv (eval_var_ne ha.valued)
  · obtain rfl := Except.ok.inj h
    exact ⟨rfl, rfl⟩

/-! ### Elements -/

/-- A single index counts words. -/
theorem position_single (dims : List Nat) (e : Expr) : position look dims 1 [e] = e.eval look := by
  rw [position, position]
  cases e.eval look with
  | error f => rfl
  | ok v =>
    show Except.ok (v * 1 + 0) = _
    rw [Int16.mul_one, Int16.add_zero]

theorem length_of_mapM_number? {ks : List Cell} (h : es.mapM number? = some ks) : ks.length = es.length := by
  induction es generalizing ks with
  | nil =>
    obtain rfl : ks = [] := (Option.some.inj h).symm
    rfl
  | cons e es ih =>
    obtain ⟨i, n, ks', rfl, hks', rfl⟩ := mapM_number?_cons h
    exact congrArg (· + 1) (ih hks')

theorem position_congr (h : List.Forall₂ (fun e e' => e'.eval look = e.eval look) es es') (dims : List Nat)
    (stride : Nat) : position look dims stride es' = position look dims stride es := by
  induction h generalizing dims stride with
  | nil => rfl
  | cons hvalue _ ih => rw [position, position, hvalue, ih]

/-- An element with folded indices is the element. -/
theorem foldIndex_same {v : Variable} {s : Storage} (hs : v.storage = some s)
    (hlen : es.length = 1 ∨ es.length = s.dims.length)
    (hes : List.Forall₂ (fun e e' => e'.eval look = e.eval look) es es') (h : foldIndex v es' i = .ok e) :
    Same look (index i v es) e := by
  -- an element depends on the position only
  have helement {j : Info} {es'' : List Expr} (hty : j.ty = i.ty)
      (hpos : position look s.dims 1 es'' = position look s.dims 1 es') :
      Same look (index i v es) (index j v es'') := by
    refine ⟨hty, ?_⟩
    rw [eval, eval, hs]
    dsimp only
    rw [hpos, position_congr hes]
  unfold foldIndex at h
  rw [hs] at h
  dsimp only at h
  split at h
  · obtain rfl := Except.ok.inj h
    exact helement rfl rfl
  · rename_i ks hks
    split at h
    · rename_i k hk
      obtain rfl := Except.ok.inj h
      refine helement rfl ?_
      rw [position_single, eval_int]
      have hlength : ks.length = es.length := (length_of_mapM_number? hks).trans hes.length_eq.symm
      split at hk
      · rename_i hone
        obtain ⟨n, rfl⟩ := List.length_eq_one_iff.mp hone
        obtain ⟨e0, rfl⟩ := List.length_eq_one_iff.mp (hes.length_eq.symm.trans hlength.symm)
        have hpos : position look [max s.size 1] 1 [e0] = _ := position_flatIndex 1 hks rfl hk
        rw [position_single] at hpos ⊢
        rw [hpos, Nat.one_mul]
      · rename_i hone
        have hdims : ks.length = s.dims.length :=
          hlength.trans (hlen.resolve_left fun h => hone (hlength.trans h))
        rw [position_flatIndex 1 hks hdims hk, Nat.one_mul]
    · cases h

/-! ### Expressions -/

/-- Expressions folded in turn are the same if each is. -/
theorem foldAll_same (hmeant : ∀ e ∈ es, Meant look e)
    (hes : ∀ e ∈ es, ∀ e', e.fold = .ok e' → Same look e e') (h : foldAll es = .ok es') :
    List.Forall₂ (fun e e' => Same look e e' ∧ Meant look e') es es' := by
  induction es generalizing es' with
  | nil =>
    obtain rfl := Except.ok.inj h
    exact .nil
  | cons e es ih =>
    rw [foldAll] at h
    obtain ⟨a, ha, h⟩ := bind_eq_ok.mp h
    obtain ⟨as, has, h⟩ := bind_eq_ok.mp h
    obtain rfl := Except.ok.inj h
    have hsame := hes e List.mem_cons_self a ha
    refine .cons ⟨hsame, hsame.meant (hmeant e List.mem_cons_self)⟩ (ih ?_ ?_ has)
    · exact fun b hb => hmeant b (List.mem_cons_of_mem _ hb)
    · exact fun b hb => hes b (List.mem_cons_of_mem _ hb)

theorem fold_one (h : (op i o [x]).fold = .ok e) : ∃ x', x.fold = .ok x' ∧ foldOp o [x'] i = .ok e := by
  rw [fold, foldAll, foldAll] at h
  obtain ⟨_, hx, h⟩ := bind_eq_ok.mp h
  obtain ⟨x', hx', hx⟩ := bind_eq_ok.mp hx
  cases hx
  exact ⟨x', hx', h⟩

theorem fold_two (h : (op i o [x, y]).fold = .ok e) :
    ∃ x' y', x.fold = .ok x' ∧ y.fold = .ok y' ∧ foldOp o [x', y'] i = .ok e := by
  rw [fold, foldAll, foldAll, foldAll] at h
  obtain ⟨_, hx, h⟩ := bind_eq_ok.mp h
  obtain ⟨x', hx', hx⟩ := bind_eq_ok.mp hx
  obtain ⟨_, hy, hx⟩ := bind_eq_ok.mp hx
  obtain ⟨y', hy', hy⟩ := bind_eq_ok.mp hy
  cases hy
  cases hx
  exact ⟨x', y', hx', hy', h⟩

theorem Same.trans {b : Expr} (h : Same look e a) (h' : Same look a b) : Same look e b :=
  ⟨h'.ty.trans h.ty, h'.value.trans h.value⟩

/-- An operator on one operand depends on its type and value only. -/
theorem Same.one (hx : Same look x x') (i : Info) (o : Op) : Same look (op i o [x]) (op i o [x']) := by
  refine ⟨rfl, ?_⟩
  unfold eval
  cases o <;> simp only [hx.value, hx.ty]

/-- An operator on two operands depends on their types and values only. -/
theorem Same.two {y' : Expr} (hx : Same look x x') (hy : Same look y y') (i : Info) (ho : o ≠ .conditional) :
    Same look (op i o [x, y]) (op i o [x', y']) := by
  refine ⟨rfl, ?_⟩
  unfold eval
  cases o with
  | conditional => exact absurd rfl ho
  | _ => simp only [hx.value, hx.ty, hy.value, hy.ty]

/-- A choice depends on the values of its condition and its alternatives. -/
theorem Same.choice {cond b cond' a' b' : Expr} (hcond : Same look cond cond') (ha : Same look a a')
    (hb : Same look b b') (i j j' : Info) :
    Same look (op i .conditional [cond, op j .conditionalElse [a, b]])
      (op i .conditional [cond', op j' .conditionalElse [a', b']]) := by
  refine ⟨rfl, ?_⟩
  rw [eval, eval, hcond.value, ha.value, hb.value]

/-- Folding keeps type and value. -/
theorem Whole.fold_same (h : Whole look e) (hf : e.fold = .ok e') : Same look e e' := by
  induction h generalizing e' with
  | number hty htruth =>
    obtain rfl := Except.ok.inj hf
    exact ⟨rfl, rfl⟩
  | var hs hsize hty hwhole htruth =>
    obtain rfl := Except.ok.inj hf
    exact ⟨rfl, rfl⟩
  | @index i v s es hs hlen hty hwhole htruth hes ih =>
    rw [fold] at hf
    obtain ⟨es', hes', hf⟩ := bind_eq_ok.mp hf
    refine foldIndex_same hs hlen ?_ hf
    have hsame := foldAll_same (fun a ha => (hes a ha).meant) (fun a ha a' ha' => ih a ha ha') hes'
    rw [List.forall₂_map_right_iff]
    exact hsame.imp fun a a' h => h.2.eval_cast_int.trans h.1.value
  | @binary i b x y hty hx hy ihx ihy =>
    obtain ⟨x', y', hx', hy', hf⟩ := fold_two hf
    have hsx := ihx hx'
    have hsy := ihy hy'
    refine (hsx.two hsy i (by rintro ⟨⟩)).trans ?_
    refine foldBinary_same (hsx.meant hx.meant) (hsy.meant hy.meant) ?_ hf
    rw [hsx.ty, hsy.ty, hty]
  | @logic i o x y ho hty hx hy ihx ihy =>
    obtain ⟨x', y', hx', hy', hf⟩ := fold_two hf
    have hsx := ihx hx'
    have hsy := ihy hy'
    obtain ⟨rfl, hchoice⟩ : foldLogic o x' y' i = e' ∧ o ≠ .conditional := by
      rcases ho with rfl | rfl <;> exact ⟨Except.ok.inj hf, by rintro ⟨⟩⟩
    exact (hsx.two hsy i hchoice).trans (foldLogic_same ho hty (hsx.meant hx.meant) (hsy.meant hy.meant))
  | @unary i u x hty hx ih =>
    obtain ⟨x', hx', hf⟩ := fold_one hf
    have hsx := ih hx'
    have hmeant := hsx.meant hx.meant
    cases u with
    | neg | abs =>
      obtain rfl := Except.ok.inj hf
      exact foldUnary_same (u := _) hx.meant.valued hsx.value
    | bitNot =>
      obtain rfl := Except.ok.inj hf
      exact foldUnary_same (u := .bitNot) hx.meant.valued (hmeant.eval_cast_int.trans hsx.value)
  | @not i x hty hx ih =>
    obtain ⟨x', hx', hf⟩ := fold_one hf
    have hsx := ih hx'
    obtain rfl := Except.ok.inj hf
    exact (hsx.one i .not).trans (foldNot_same hty (hsx.meant hx.meant))
  | @cast i ty x hwhole hty hx ih =>
    obtain ⟨x', hx', hf⟩ := fold_one hf
    have hsx := ih hx'
    have hmeant := hsx.meant hx.meant
    obtain rfl := Except.ok.inj hf
    refine (hsx.one i (.cast ty)).trans ⟨(hmeant.cast_ty hwhole).trans hty.symm, ?_⟩
    rw [hmeant.eval_cast hwhole, eval_cast_op]
  | @choice i j cond a b hty hcond ha hb ihc iha ihb =>
    obtain ⟨cond', branches, hcond', hbranches, hf⟩ := fold_two hf
    obtain ⟨a', b', ha', hb', hbranches⟩ := fold_two hbranches
    obtain rfl := Except.ok.inj hbranches
    have hsc := ihc hcond'
    have hsa := iha ha'
    have hsb := ihb hb'
    refine (hsc.choice hsa hsb i j j).trans ?_
    refine foldConditional_same (hsc.meant hcond.meant) (hsa.meant ha.meant) (hsb.meant hb.meant) ?_ hf
    rw [hsa.ty, hsb.ty, hty]
  | @comma i a b hty ha hb iha ihb =>
    obtain ⟨a', b', ha', hb', hf⟩ := fold_two hf
    have hsa := iha ha'
    have hsb := ihb hb'
    refine (hsa.two hsb i (by rintro ⟨⟩)).trans (foldComma_same (hsa.meant ha.meant) ?_ hf)
    rw [hsb.ty, hty]

/-- Folding a typed expression over numbers and truth values gives one of the
same type with the same value, whatever the variables hold that is allowed by
their types; where the expression ends in a fault, so does the folded one. -/
theorem fold_keeps_value {c : Calls} {source e e' : Expr} (htyped : source.typed c = .ok e)
    (hparts : ∀ a ∈ e.parts, a.ty.IsWhole ∧ a.IsIntegral) (hfold : e.fold = .ok e') (look : Contents)
    (hlook : ∀ a ∈ e.parts, ∀ s, a.storage? = some s → s.ty = .bool → ∀ k < s.size, IsTruth (look s k)) :
    e'.ty = e.ty ∧ e'.eval look = e.eval look ∧ e.eval look ≠ .error .noValue := by
  have hwhole : Whole look e := whole_of_typed source e htyped fun a ha =>
    ⟨(hparts a ha).1, (hparts a ha).2, hlook a ha⟩
  have hsame := hwhole.fold_same hfold
  exact ⟨hsame.ty, hsame.value, hwhole.meant.valued⟩

/-- `b && !(x < 3) ? (x + 30000) + 30000 : a[1, 1]` becomes
`b && x >= 3 ? x + -5536 : a[3]`. -/
theorem fold_keeps_value_choice : ∃ (source e e' : Expr) (look : Contents),
    source.typed default = .ok e ∧ e.fold = .ok e' ∧ e.parts.length = 16 ∧ e'.parts.length = 12 ∧
      e'.ty = .int ∧ e'.eval look = .ok (-5531) ∧ e.eval look = .ok (-5531) := by
  let x (num : Info) : Expr := var num ⟨"x", some ⟨0, [], .int, .absolute⟩⟩
  let b (truth : Info) : Expr := var truth ⟨"b", some ⟨1, [], .bool, .absolute⟩⟩
  let a (num : Info) (ks : List Expr) : Expr := index num ⟨"a", some ⟨2, [2, 2], .int, .absolute⟩⟩ ks
  let literal (n : Cell) : Expr := int n default
  let add (num : Info) (p q : Expr) : Expr := op num (.binary .add) [p, q]
  let choose (num : Info) (cond p q : Expr) : Expr := op num .conditional [cond, op num .conditionalElse [p, q]]
  let tree (num truth : Info) : Expr :=
    choose num (op truth .logicAnd [b truth, op truth .not [op truth (.binary .lt) [x num, literal 3]]])
      (add num (add num (x num) (literal 30000)) (literal 30000)) (a num [literal 1, literal 1])
  let num : Info := .scalar default .int
  let truth : Info := .scalar default .bool
  let folded : Expr :=
    choose num (op truth .logicAnd [b truth, op truth (.binary .ge) [x num, literal 3]])
      (add num (x num) (literal (-5536))) (a num [literal 3])
  let look : Contents := fun s k => if s.ty = .bool then 1 else 5
  have htyped : (tree (.bare default) (.bare default)).typed default = .ok (tree num truth) := rfl
  have hfold : (tree num truth).fold = .ok folded := rfl
  have hvalue : folded.eval look = .ok (-5531) := by decide +kernel
  have hkept := fold_keeps_value htyped ?_ hfold look ?_
  · exact ⟨_, _, _, look, htyped, hfold, rfl, rfl, hkept.1, hvalue, hkept.2.1.symm.trans hvalue⟩
  · decide +kernel
  · exact fun a ha s hs hbool k hk => .inr (if_pos hbool)

end Expr
end RobotScript
