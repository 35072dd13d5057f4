/-
# Shapes of expressions

The stages pass expressions on without a check, so each relies on the shape
that the one before gives them. `Tree` is that of an expression as it is read,
with as many operands as its operators have, `Typed` that behind the types,
where choices are complete, calls are bound and each type is that which the
operands give, and `Ready` that behind folding, where an update computes its
value from the word that the stack holds. A failure on the way is the script's
doing and has a place.

Key definitions: `CompileError.Fair`, `CompileError.Placed`, `Ty.IsValue`,
`Expr.Tree`, `Expr.Typed`, `Expr.Ready`.
Key theorems: `Expr.Tree.bind`, `Expr.Tree.typed_parts`, `Expr.Typed.fold`.
-/
import RobotScript.Expr.Binding
import RobotScript.Expr.Folding
import RobotScript.Proofs.Outcome

namespace RobotScript

open Machine (Binary Unary)

/-- A failure that is the script's doing, and stands at a place `P` if it has
one. -/
structure CompileError.Fair (P : Span → Prop) (e : CompileError) : Prop where
  cause : ∀ f, e.cause ≠ .internal f
  span : ∀ s, e.span = some s → P s
  snippet : e.snippet = none

/-- A failure that is the script's doing and stands at a place `P`. -/
structure CompileError.Placed (P : Span → Prop) (e : CompileError) : Prop extends Fair P e where
  placed : e.span.isSome = true

variable {P : Span → Prop}

theorem semantic_placed {α : Type} {good : α → Prop} (fault : SemanticFault) {span : Span} (h : P span) :
    Ends (CompileError.Placed P) good (semantic fault span : Result α) where
  cause _ := by simp [Diagnostic.placedAt, Diagnostic.ofCause]
  span s hs := by
    obtain rfl : span = s := by simpa [Diagnostic.placedAt, Diagnostic.ofCause] using hs
    exact h
  snippet := rfl
  placed := rfl

/-- A semantic failure at a place. -/
def FaultAt (span : Span) (e : CompileError) : Prop :=
  ∃ fault, e = (Diagnostic.ofCause (.semantic fault)).placedAt span

theorem semantic_faultAt {α : Type} {good : α → Prop} {span : Span} (fault : SemanticFault) :
    Ends (FaultAt span) good (semantic fault span : Result α) := ⟨fault, rfl⟩

theorem FaultAt.placed {span : Span} {e : CompileError} (h : FaultAt span e) (hspan : P span) :
    CompileError.Placed P e := by
  obtain ⟨fault, rfl⟩ := h
  have hplaced : Ends (CompileError.Placed P) (fun _ => True) (semantic fault span : Result Unit) :=
    semantic_placed fault hspan
  exact hplaced

/-! ### Types -/

/-- A type that values have. -/
structure Ty.IsValue (ty : Ty) : Prop where
  defined : ty ≠ .undefined
  notVoid : ty ≠ .void

namespace Ty.IsValue

theorem int : Ty.int.IsValue := ⟨nofun, nofun⟩

theorem bool : Ty.bool.IsValue := ⟨nofun, nofun⟩

theorem fixed : Ty.fixed.IsValue := ⟨nofun, nofun⟩

end Ty.IsValue

/-- What is scaled or not has a value. -/
theorem Ty.scaled_isValue {p : Prop} [Decidable p] : (if p then Ty.fixed else .int).IsValue := by
  split
  · exact .fixed
  · exact .int

theorem Ty.join_isValue (a b : Ty) : (a.join b).IsValue := by
  unfold join
  split
  · exact ⟨nofun, nofun⟩
  · split <;> exact ⟨nofun, nofun⟩

theorem joinAll_isValue : ∀ {tys : List Ty}, (∀ ty ∈ tys, ty.IsValue) → (joinAll tys).IsValue
  | [], _ => ⟨nofun, nofun⟩
  | ty :: tys, h => by
    have hstep : ∀ (tys : List Ty) (ty : Ty), ty.IsValue → (tys.foldl Ty.join ty).IsValue := by
      intro tys
      induction tys with
      | nil => exact fun _ hty => hty
      | cons b tys ih => exact fun a _ => ih _ (Ty.join_isValue a b)
    exact hstep tys ty (h ty List.mem_cons_self)

theorem binaryTy_isValue (b : Binary) (x y : Ty) : (binaryTy b x y).IsValue := by
  cases b with
  | shl | shr | add | sub | mult | div | mod => exact Ty.scaled_isValue
  | _ => exact ⟨nofun, nofun⟩

/-- A variable whose storage is known. -/
def Variable.Stored (v : Variable) : Prop := v.storage.isSome = true

/-- A variable whose storage is known and holds values. -/
def Variable.Held (v : Variable) : Prop := ∃ s, v.storage = some s ∧ s.ty.IsValue

/-- A name stands for a number or for a variable that holds values. -/
def Binding.Sound : Binding → Prop
  | .variable s => s.ty.IsValue
  | .constant _ => True

/-- A function takes values, and what it gives has a type. -/
structure Signature.Sound (s : Signature) : Prop where
  ret : s.ret ≠ .undefined
  params : ∀ p ∈ s.params, p.ty.IsValue

/-- The functions that can be called are sound. -/
def Calls.Sound (c : Calls) : Prop := ∀ s ∈ c.functions, s.Sound

theorem Calls.Sound.function {c : Calls} {name : String} {s : Signature} (h : c.Sound)
    (hs : c.function? name = some s) : s.Sound :=
  h s (List.mem_of_find?_eq_some hs)

theorem Builtin.resultTy_defined {b : Builtin} {tys : List Ty} (h : ∀ ty ∈ tys, ty ≠ .undefined) :
    b.resultTy tys ≠ .undefined := by
  unfold resultTy
  split
  case h_1 ty tys => exact h ty List.mem_cons_self
  case h_2 => nofun

namespace Op

/-- Operators that stay as they are when their operands get types. -/
def isPlain : Op → Bool
  | bool _ | size | conditional | conditionalElse => false
  | _ => true

/-- A conversion is to a type of values. -/
def Converts : Op → Prop
  | cast ty => ty.IsValue
  | _ => True

/-- The type that operands of given types give an operator. -/
def resultTy : Op → List Ty → Ty
  | binary b, [x, y] => binaryTy b x y
  | logicAnd, _ | logicOr, _ | not, _ => .bool
  | negate, [x] | abs, [x] => if x = .fixed then .fixed else .int
  | cast ty, _ => ty
  | comma, [_, y] => y
  | assign, x :: _ | compound _, x :: _ | preIncrement, x :: _ | preDecrement, x :: _
  | postIncrement, x :: _ | postDecrement, x :: _ => x
  | _, _ => .int

theorem resultTy_defined {o : Op} {tys : List Ty} (ho : o.Converts)
    (h : ∀ ty ∈ tys, ty ≠ .undefined) : o.resultTy tys ≠ .undefined := by
  unfold resultTy
  split
  case h_1 => exact (binaryTy_isValue _ _ _).defined
  case h_5 | h_6 => exact Ty.scaled_isValue.defined
  case h_7 => exact ho.defined
  case h_8 x y => exact h y (by simp)
  case h_9 x _ | h_10 x _ | h_11 x _ | h_12 x _ | h_13 x _ | h_14 x _ => exact h x List.mem_cons_self
  all_goals nofun

end Op

namespace Expr

/-! ### As they are read -/

/-- An expression as it is read, at places `P` and with variables `V`. -/
inductive Tree (P : Span → Prop) (V : Variable → Prop) : Expr → Prop
  | number (hi : P i.span) (hty : i.ty = .int) (hdims : i.dims = []) : Tree P V (number i n)
  | fixed (hi : P i.span) (hty : i.ty = .fixed) (hdims : i.dims = []) : Tree P V (fixed i f)
  | var (hi : P i.span) (hv : V v) : Tree P V (var i v)
  | index (hi : P i.span) (hv : V v) (hes : ∀ e ∈ es, Tree P V e) : Tree P V (index i v es)
  | array (hi : P i.span) (hdims : volume i.dims = es.length)
    (hes : ∀ e ∈ es, Tree P V e) : Tree P V (array i es)
  | op (hi : P i.span) (ho : es.length = o.arity)
    (hconv : o.Converts) (hes : ∀ e ∈ es, Tree P V e) : Tree P V (op i o es)
  | call (hi : P i.span) (hes : ∀ e ∈ es, Tree P V e) : Tree P V (call i name callee es)

theorem Tree.span {V : Variable → Prop} {e : Expr} (h : Tree P V e) : P e.span := by
  cases h <;> assumption

theorem bindAll_ends {fair : CompileError → Prop} {good : Expr → Prop} {scope : String → Option Binding} :
    ∀ {es : List Expr}, (∀ e ∈ es, Ends fair good (e.bind scope)) →
    Ends fair (fun es' => es'.length = es.length ∧ ∀ e ∈ es', good e) (bindAll scope es)
  | [], _ => ⟨rfl, by simp⟩
  | e :: es, h => by
    rw [bindAll]
    refine (h e List.mem_cons_self).bind fun e' he' => ?_
    refine (bindAll_ends fun a ha => h a (List.mem_cons_of_mem _ ha)).bind fun es' hes' => ?_
    refine Ends.pure ⟨by simp [hes'.1], ?_⟩
    rintro a (_ | ⟨_, ha⟩)
    · exact he'
    · exact hes'.2 a ha

theorem lookup_ends {scope : String → Option Binding}
    (hscope : ∀ name b, scope name = some b → b.Sound) (name : String) {span : Span} (h : P span) :
    Ends (CompileError.Placed P) Binding.Sound (lookup scope name span) := by
  unfold lookup
  split
  · rename_i b hb
    exact Ends.ok (hscope name b hb)
  · exact semantic_placed _ h

/-- Binding gives all variables their storage. -/
theorem Tree.bind {V : Variable → Prop} {e : Expr} {scope : String → Option Binding}
    (hscope : ∀ name b, scope name = some b → b.Sound) (h : Tree P V e) :
    Ends (CompileError.Placed P) (Tree P Variable.Held) (e.bind scope) := by
  induction h with
  | number hi hty hdims => exact Ends.pure (.number hi hty hdims)
  | fixed hi hty hdims => exact Ends.pure (.fixed hi hty hdims)
  | var hi _ =>
    rw [Expr.bind]
    refine (lookup_ends hscope _ hi).bind fun b hb => ?_
    rcases b with s | n
    · exact Ends.pure (.var hi ⟨s, rfl, hb⟩)
    · exact Ends.pure (.number hi rfl rfl)
  | index hi _ _ ih =>
    rw [Expr.bind]
    refine (lookup_ends hscope _ hi).bind fun b hb => ?_
    rcases b with s | n
    · exact (bindAll_ends ih).bind fun es hes => Ends.pure (.index hi ⟨s, rfl, hb⟩ hes.2)
    · exact semantic_placed _ hi
  | array hi hdims _ ih =>
    rw [Expr.bind]
    exact (bindAll_ends ih).bind fun es hes => Ends.pure (.array hi (hdims.trans hes.1.symm) hes.2)
  | op hi ho hconv _ ih =>
    rw [Expr.bind]
    exact (bindAll_ends ih).bind fun es hes => Ends.pure (.op hi (hes.1.trans ho) hconv hes.2)
  | call hi _ ih =>
    rw [Expr.bind]
    exact (bindAll_ends ih).bind fun es hes => Ends.pure (.call hi hes.2)

/-! ### Behind the types -/

/-- An expression behind the types. Where a value is needed there is one. -/
inductive Typed (P : Span → Prop) : Expr → Prop
  | number (hi : P i.span) (hty : i.ty = .int ∨ i.ty = .bool) : Typed P (number i n)
  | fixed (hi : P i.span) (hty : i.ty = .fixed) : Typed P (fixed i f)
  | var (hi : P i.span) (hv : v.Stored) (hty : i.ty.IsValue) : Typed P (var i v)
  | index (hi : P i.span) (hv : v.Stored)
    (hty : i.ty.IsValue) (hes : ∀ e ∈ es, Typed P e) (hvalue : ∀ e ∈ es, e.ty ≠ .void) :
    Typed P (index i v es)
  | array (hi : P i.span) (hty : i.ty.IsValue)
    (hes : ∀ e ∈ es, Typed P e) (hvalue : ∀ e ∈ es, e.ty ≠ .void) : Typed P (array i es)
  | op (hi : P i.span) (hplain : o.isPlain = true)
    (ho : es.length = o.arity) (hconv : o.Converts) (hty : i.ty = o.resultTy (es.map (·.ty)))
    (hes : ∀ e ∈ es, Typed P e) (hvalue : o.operand ≠ .any → ∀ e ∈ es, e.ty ≠ .void) :
    Typed P (op i o es)
  | choice {cond : Expr} (hi : P i.span) (hj : P j.span)
    (hty : i.ty = a.ty.join b.ty) (hc : Typed P cond) (ha : Typed P a) (hb : Typed P b)
    (hvalue : a.ty ≠ .void ∧ b.ty ≠ .void) :
    Typed P (op i .conditional [cond, op j .conditionalElse [a, b]])
  | function (hi : P i.span)
    (hty : i.ty = s.ret) (hsound : s.Sound) (hs : es.length = s.params.length)
    (hes : ∀ e ∈ es, Typed P e) (hvalue : ∀ e ∈ es, e.ty ≠ .void) :
    Typed P (call i name (some (.function s)) es)
  | builtin (hi : P i.span) (hty : i.ty = b.resultTy (es.map (·.ty))) (hb : es.length = b.arity)
    (hes : ∀ e ∈ es, Typed P e) (hvalue : ∀ e ∈ es, e.ty ≠ .void) :
    Typed P (call i name (some (.builtin b)) es)

theorem Typed.span {e : Expr} (h : Typed P e) : P e.span := by
  cases h <;> assumption

/-- Every type is known. -/
theorem Typed.defined {e : Expr} (h : Typed P e) : e.ty ≠ .undefined := by
  have hall : ∀ {es : List Expr}, (∀ e ∈ es, e.ty ≠ .undefined) →
      ∀ ty ∈ es.map (·.ty), ty ≠ .undefined := by
    intro es hes ty hmem
    obtain ⟨e, he, rfl⟩ := List.mem_map.mp hmem
    exact hes e he
  induction h with
  | number _ hty =>
    intro h
    rcases hty with hty | hty
    · cases hty.symm.trans h
    · cases hty.symm.trans h
  | fixed _ hty => exact fun h => nomatch hty.symm.trans h
  | var _ _ hty => exact hty.defined
  | index _ _ hty _ _ _ => exact hty.defined
  | array _ hty _ _ _ => exact hty.defined
  | op _ _ _ hconv hty _ _ ih => exact fun h => Op.resultTy_defined hconv (hall ih) (hty.symm.trans h)
  | choice _ _ hty _ _ _ _ _ _ _ => exact fun h => (Ty.join_isValue _ _).defined (hty.symm.trans h)
  | function _ hty hsound _ _ _ _ => exact fun h => hsound.ret (hty.symm.trans h)
  | builtin _ hty _ _ _ ih => exact fun h => Builtin.resultTy_defined (hall ih) (hty.symm.trans h)

/-- An operand of an operator, behind the types. -/
structure Operand (P : Span → Prop) (kind : Op.Operand) (e : Expr) : Prop where
  typed : Typed P e
  value : kind ≠ .any → e.ty ≠ .void

/-- What may stand for an operand is passed on as it is. -/
theorem asOperand_ends {e : Expr} {good : Expr → Prop} (kind : Op.Operand)
    (h : (kind ≠ .any → e.ty ≠ .void) → good e) (hspan : P e.span) :
    Ends (CompileError.Placed P) good (e.asOperand kind) := by
  unfold Expr.asOperand
  split
  · exact semantic_placed _ hspan
  · rename_i hvalue
    split
    · exact semantic_placed _ hspan
    · exact Ends.ok (h fun hkind hvoid => hvalue ⟨hkind, hvoid⟩)

theorem Typed.asOperand {e : Expr} (kind : Op.Operand) (h : Typed P e) :
    Ends (CompileError.Placed P) (Operand P kind) (e.asOperand kind) :=
  asOperand_ends kind (fun hvalue => ⟨h, hvalue⟩) h.span

theorem Typed.asArgument {e : Expr} (p : Param) (function : String) (h : Typed P e) :
    Ends (CompileError.Placed P) (Operand P .value) (e.asArgument p function) := by
  unfold Expr.asArgument
  refine (h.asOperand .value).bind fun e he => ?_
  split
  · split
    · exact semantic_placed _ he.typed.span
    split
    · exact semantic_placed _ he.typed.span
    split
    · exact semantic_placed _ he.typed.span
    · exact Ends.pure he
  · split
    · exact semantic_placed _ he.typed.span
    · exact Ends.pure he

theorem typedAll_ends {c : Calls} {kind : Op.Operand} :
    ∀ {es : List Expr}, (∀ e ∈ es, Ends (CompileError.Placed P) (Typed P) (e.typed c)) →
    Ends (CompileError.Placed P) (fun es' => es'.length = es.length ∧ ∀ e ∈ es', Operand P kind e)
      (typedAll c kind es)
  | [], _ => ⟨rfl, by simp⟩
  | e :: es, h => by
    rw [typedAll]
    refine (h e List.mem_cons_self).bind fun e he => ?_
    refine (he.asOperand kind).bind fun e' he' => ?_
    refine (typedAll_ends fun a ha => h a (List.mem_cons_of_mem _ ha)).bind fun es' hes' => ?_
    refine Ends.pure ⟨by simp [hes'.1], ?_⟩
    rintro a (_ | ⟨_, ha⟩)
    · exact he'
    · exact hes'.2 a ha

theorem typedArgs_ends {c : Calls} {function : String} :
    ∀ {ps : List Param} {es : List Expr},
    (∀ e ∈ es, Ends (CompileError.Placed P) (Typed P) (e.typed c)) → es.length = ps.length →
    Ends (CompileError.Placed P) (fun es' => es'.length = ps.length ∧ ∀ e ∈ es', Operand P .value e)
      (typedArgs c function ps es)
  | [], [], _, _ => ⟨rfl, by simp⟩
  | p :: ps, e :: es, h, hlen => by
    rw [typedArgs]
    refine (h e List.mem_cons_self).bind fun e he => ?_
    refine (he.asArgument p function).bind fun e' he' => ?_
    refine (typedArgs_ends (fun a ha => h a (List.mem_cons_of_mem _ ha)) (by simpa using hlen)).bind
      fun es' hes' => ?_
    refine Ends.pure ⟨by simp [hes'.1], ?_⟩
    rintro a (_ | ⟨_, ha⟩)
    · exact he'
    · exact hes'.2 a ha

section Operands

variable {kind : Op.Operand} {es : List Expr} (hes : ∀ e ∈ es, Operand P kind e)
include hes

theorem operands_typed : ∀ e ∈ es, Typed P e := fun e he => (hes e he).typed

theorem operands_value (hkind : kind ≠ .any) : ∀ e ∈ es, e.ty ≠ .void :=
  fun e he => (hes e he).value hkind

theorem operands_isValue (hkind : kind ≠ .any) : ∀ ty ∈ es.map (·.ty), ty.IsValue := by
  intro ty hty
  obtain ⟨e, he, rfl⟩ := List.mem_map.mp hty
  exact ⟨(hes e he).typed.defined, (hes e he).value hkind⟩

end Operands

theorem typedOp_ends {span : Span} (hspan : P span) : ∀ {o : Op} {es : List Expr},
    o.isPlain = true ∨ o = .size → es.length = o.arity → o.Converts →
    (∀ e ∈ es, Operand P o.operand e) →
    Ends (CompileError.Placed P) (Typed P) (typedOp o span es)
  | .comma, [_, _], _, _, hconv, hes | .binary _, [_, _], _, _, hconv, hes
  | .logicAnd, [_, _], _, _, hconv, hes | .logicOr, [_, _], _, _, hconv, hes
  | .not, [_], _, _, hconv, hes | .negate, [_], _, _, hconv, hes | .abs, [_], _, _, hconv, hes
  | .bitNot, [_], _, _, hconv, hes | .cast _, [_], _, _, hconv, hes =>
    .ok (.op hspan rfl rfl hconv rfl (operands_typed hes) (operands_value hes))
  | .size, [_], _, _, _, _ => .ok (.number hspan (.inl rfl))
  | .assign, [target, _], _, _, hconv, hes | .compound _, [target, _], _, _, hconv, hes
  | .preIncrement, [target], _, _, hconv, hes | .preDecrement, [target], _, _, hconv, hes
  | .postIncrement, [target], _, _, hconv, hes | .postDecrement, [target], _, _, hconv, hes => by
    unfold typedOp
    dsimp only
    split
    · exact .ok (.op hspan rfl rfl hconv rfl (operands_typed hes) (operands_value hes))
    · exact semantic_placed _ hspan
  | .bool _, _, h, _, _, _ | .conditional, _, h, _, _, _ | .conditionalElse, _, h, _, _, _ => by
    simp [Op.isPlain] at h

/-- Types complete choices and bind calls. -/
theorem Tree.typed_parts {e : Expr} {c : Calls} (hcalls : c.Sound) (h : Tree P Variable.Held e) :
    Ends (CompileError.Placed P) (Typed P) (e.typed c) ∧
      ∀ (i : Info) (o : Op) (es : List Expr), e = .op i o es →
        ∀ a ∈ es, Ends (CompileError.Placed P) (Typed P) (a.typed c) := by
  induction h with
  | number hi hty => exact ⟨Ends.pure (.number hi (.inl hty)), nofun⟩
  | fixed hi hty => exact ⟨Ends.pure (.fixed hi hty), nofun⟩
  | @var v i hi hv =>
    refine ⟨?_, nofun⟩
    obtain ⟨s, hs, hty⟩ := hv
    simp only [Expr.typed, hs]
    exact Ends.pure (.var hi (by simp [Variable.Stored, hs]) hty)
  | @index v es i hi hv _ ih =>
    refine ⟨?_, nofun⟩
    obtain ⟨s, hs, hty⟩ := hv
    simp only [Expr.typed, hs]
    split
    · exact semantic_placed _ hi
    · refine (typedAll_ends fun e he => (ih e he).1).bind fun es hes => Ends.pure ?_
      exact .index hi (by simp [Variable.Stored, hs]) hty (operands_typed hes.2)
        (operands_value hes.2 nofun)
  | array hi _ _ ih =>
    refine ⟨?_, nofun⟩
    rw [Expr.typed]
    refine (typedAll_ends fun e he => (ih e he).1).bind fun es hes => Ends.pure ?_
    exact .array hi (joinAll_isValue (operands_isValue hes.2 nofun)) (operands_typed hes.2)
      (operands_value hes.2 nofun)
  | @op es i o hi ho hconv hes ih =>
    refine ⟨?_, fun _ _ _ he => by cases he; exact fun a ha => (ih a ha).1⟩
    unfold Expr.typed
    split
    · exact Ends.pure (.number hi (.inr rfl))
    · exact semantic_placed _ hi
    · split
      · rename_i cond branches a b
        have hcond := (ih cond (by simp)).1
        have hparts := (ih (.op branches .conditionalElse [a, b]) (by simp)).2 _ _ _ rfl
        have hspan : P branches.span := (hes (.op branches .conditionalElse [a, b]) (by simp)).span
        refine hcond.bind fun cond hc => (hc.asOperand .word).bind fun cond hc => ?_
        refine (hparts a (by simp)).bind fun a ha => (ha.asOperand .word).bind fun a ha => ?_
        refine (hparts b (by simp)).bind fun b hb => (hb.asOperand .word).bind fun b hb => ?_
        exact Ends.pure (.choice hi hspan rfl hc.typed ha.typed hb.typed
          ⟨ha.value nofun, hb.value nofun⟩)
      · -- an else with other than two branches is not read
        rename_i cond branches args hargs
        have hbranches := hes (.op branches .conditionalElse args) (by simp)
        cases hbranches with
        | op _ hlen _ _ =>
          match args, hlen with
          | [a, b], _ => exact absurd rfl (hargs a b)
      · rename_i rest _ _
        exact semantic_placed _ (hes rest (by simp)).span
      · rename_i hargs
        match es, ho with
        | [cond, rest], _ => exact absurd rfl (hargs cond rest)
    · rename_i hbool helse hcond
      rw [if_neg (by simp [ho])]
      refine (typedAll_ends fun e he => (ih e he).1).bind fun es' hes' => ?_
      refine typedOp_ends hi ?_ (hes'.1.trans ho) hconv hes'.2
      cases o <;> simp_all [Op.isPlain]
  | @call es i name callee hi _ ih =>
    refine ⟨?_, nofun⟩
    unfold Expr.typed
    split
    · split
      · exact semantic_placed _ hi
      · rename_i s hs hlen
        refine (typedArgs_ends (fun e he => (ih e he).1) (by simpa using hlen)).bind fun es' hes' => ?_
        exact Ends.pure (.function hi rfl (hcalls.function hs) hes'.1 (operands_typed hes'.2)
          (operands_value hes'.2 nofun))
    · split
      · split
        · exact semantic_placed _ hi
        · rename_i b _ hlen
          refine (typedAll_ends fun e he => (ih e he).1).bind fun es' hes' => ?_
          exact Ends.pure (.builtin hi rfl (hes'.1.trans (by simpa using hlen)) (operands_typed hes'.2)
            (operands_value hes'.2 nofun))
      · exact semantic_placed _ hi

/-! ### Behind folding -/

/-- An expression behind folding whose value takes `k` words from the stack:
one in the value of an update, which starts from the old word, and else none. -/
inductive Ready (P : Span → Prop) : Nat → Expr → Prop
  | number (hi : P i.span) : Ready P 0 (number i n)
  | fixed (hi : P i.span) : Ready P 0 (fixed i f)
  | var (hi : P i.span) (hv : v.Stored) : Ready P 0 (var i v)
  | index (hi : P i.span) (hv : v.Stored)
    (hes : ∀ e ∈ es, Ready P 0 e) (hne : es ≠ []) : Ready P 0 (index i v es)
  | array (hi : P i.span) (hes : ∀ e ∈ es, Ready P 0 e) : Ready P 0 (array i es)
  | placeholder (hi : P i.span) : Ready P 1 (placeholder i)
  | binary (hi : P i.span) (hx : Ready P k x)
    (hy : Ready P 0 y) : Ready P k (op i (.binary b) [x, y])
  | cast {ty : Ty} (hi : P i.span) (hx : Ready P k x) : Ready P k (op i (.cast ty) [x])
  | unary (hi : P i.span)
    (ho : o = .negate ∨ o = .abs ∨ o = .bitNot ∨ o = .not) (hx : Ready P 0 x) :
    Ready P 0 (op i o [x])
  | sequence (hi : P i.span)
    (ho : o = .logicAnd ∨ o = .logicOr ∨ o = .comma) (hx : Ready P 0 x) (hy : Ready P 0 y) :
    Ready P 0 (op i o [x, y])
  | choice {cond : Expr} (hi : P i.span) (hj : P j.span) (hc : Ready P 0 cond)
    (ha : Ready P 0 a) (hb : Ready P 0 b) :
    Ready P 0 (op i .conditional [cond, op j .conditionalElse [a, b]])
  | assign (hi : P i.span) (ht : Ready P 0 target)
    (hv : Ready P 0 value) : Ready P 0 (op i .assign [target, value])
  | update (hi : P i.span) (ho : (∃ b, o = .compound b) ∨ o = .postIncrement ∨ o = .postDecrement)
    (ht : Ready P 0 target) (hv : Ready P 1 value) : Ready P 0 (op i o [target, value])
  | function (hi : P i.span) (hes : ∀ e ∈ es, Ready P 0 e) (hs : es.length = s.params.length) :
    Ready P 0 (call i name (some (.function s)) es)
  | builtin (hi : P i.span) (hes : ∀ e ∈ es, Ready P 0 e) (hb : es.length = b.arity) :
    Ready P 0 (call i name (some (.builtin b)) es)

/-- What an operator does to its operands: it keeps them, makes a number of the
second or brings both to one type. -/
theorem castOperands_cases {motive : Expr × Expr → Prop} {x y : Expr} (b : Binary) (hkept : motive (x, y))
    (hsecond : motive (x, y.cast .int)) (hboth : ∀ ty, motive (x.cast ty, y.cast ty)) :
    motive (castOperands b x y) := by
  unfold castOperands
  cases b with
  | add | sub | mod | eq | ne | gt | ge | lt | le =>
    dsimp only
    split
    · exact hboth .fixed
    · exact hkept
  | shl | shr => exact hsecond
  | bitAnd | bitOr | bitXor => exact hboth .int
  | mult | div | or | and => exact hkept

namespace Ready

variable {k : Nat} {e x y : Expr}

theorem span (h : Ready P k e) : P e.span := by
  cases h <;> assumption

theorem withInfo {i : Info} (hi : P i.span) (h : Ready P k e) : Ready P k (e.withInfo i) := by
  cases h with
  | number _ => exact .number hi
  | fixed _ => exact .fixed hi
  | var _ hv => exact .var hi hv
  | index _ hv hes hne => exact .index hi hv hes hne
  | array _ hes => exact .array hi hes
  | placeholder _ => exact .placeholder hi
  | binary _ hx hy => exact .binary hi hx hy
  | cast _ hx => exact .cast hi hx
  | unary _ ho hx => exact .unary hi ho hx
  | sequence _ ho hx hy => exact .sequence hi ho hx hy
  | choice _ hj hc ha hb => exact .choice hi hj hc ha hb
  | assign _ ht hv => exact .assign hi ht hv
  | update _ ho ht hv => exact .update hi ho ht hv
  | function _ hes hs => exact .function hi hes hs
  | builtin _ hes hb => exact .builtin hi hes hb

theorem toTy (ty : Ty) (h : Ready P k e) : Ready P k (e.cast ty) := by
  unfold Expr.cast
  split
  · exact h
  · split
    · cases h with | number hi => exact .fixed hi
    · cases h with | fixed hi => exact .number hi
    · cases h with | number hi => exact .number hi
    · cases h with | fixed hi => exact .number hi
    · split
      · exact h.withInfo h.span
      · exact .cast h.span h

theorem castOperands (b : Binary) (hx : Ready P k x) (hy : Ready P 0 y) :
    Ready P k (Expr.castOperands b x y).1 ∧ Ready P 0 (Expr.castOperands b x y).2 :=
  castOperands_cases (motive := fun p => Ready P k p.1 ∧ Ready P 0 p.2) b ⟨hx, hy⟩ ⟨hx, hy.toTy _⟩
    fun _ => ⟨hx.toTy _, hy.toTy _⟩

/-- A literal takes nothing from the stack. -/
theorem of_literal {f : Float} (h : Ready P k e) (he : e.literal? = some f) : k = 0 := by
  cases h with
  | number _ => rfl
  | fixed _ => rfl
  | _ => cases he

theorem splitConstant {b : Binary} {n : Cell} (h : Ready P k x)
    (hx : splitConstant? b x = some (e, n)) : Ready P k e := by
  unfold splitConstant? at hx
  split at hx
  · split at hx
    · cases hx
      cases h with
      | binary _ hx _ => exact hx
      | sequence _ ho _ _ => simp at ho
      | update _ ho _ _ => simp at ho
    · cases hx
  · cases hx

end Ready

/-- The operator on two literals gives a literal, or fails at its place. -/
theorem foldFixed_ends (b : Binary) (p q : Float) (span : Span) :
    Ends (FaultAt span)
      (fun o => ∀ e, o = some e → (∃ f, e = real f span) ∨ ∃ v, e = bool v span)
      (foldFixed b p q span) := by
  have hreal : ∀ f, ∀ e, some (real f span) = some e → (∃ f, e = real f span) ∨ ∃ v, e = bool v span := by
    rintro f _ ⟨⟩
    exact .inl ⟨f, rfl⟩
  have hbool : ∀ v, ∀ e, some (bool v span) = some e → (∃ f, e = real f span) ∨ ∃ v, e = bool v span := by
    rintro v _ ⟨⟩
    exact .inr ⟨v, rfl⟩
  unfold foldFixed
  cases b with
  | add | sub | mult => exact Ends.pure (hreal _)
  | div | mod =>
    dsimp only
    split
    · exact semantic_faultAt _
    · exact Ends.pure (hreal _)
  | eq | ne | gt | ge | lt | le => exact Ends.pure (hbool _)
  | _ => exact Ends.pure nofun

/-- What a binary operator is folded to: a literal, the operator with two
constants merged into one, or the operator on its converted operands. -/
inductive FoldsBinary (b : Binary) (x y : Expr) (span : Span) (ty : Ty) : Expr → Prop
  | truth (v : Bool) (h : castOperands b x y = (.number i m, .number j n))
    (hb : (b.isComparison || b.isLogical) = true) : FoldsBinary b x y span ty (.bool v span)
  | number (v : Cell) (h : castOperands b x y = (.number i m, .number j n))
    (hb : (b.isComparison || b.isLogical) = false) :
    FoldsBinary b x y span ty (.number (.scalar span ty) v)
  | fixed (hany : x.ty = .fixed ∨ y.ty = .fixed)
    (hp : (castOperands b x y).1.literal? = some p) (h : foldFixed b p q span = .ok (some e)) :
    FoldsBinary b x y span ty e
  | merged (v : Cell) (h : splitConstant? b (castOperands b x y).1 = some (e, k)) :
    FoldsBinary b x y span ty (.op (.scalar span ty) (.binary b) [e, .int v span])
  | plain : FoldsBinary b x y span ty
      (.op (.scalar span ty) (.binary b) [(castOperands b x y).1, (castOperands b x y).2])

/-- What is left to the machine may still merge two constants. -/
theorem merge_folds {b : Binary} {x y x' y' : Expr} {span : Span} {ty : Ty}
    (hplain : FoldsBinary b x y span ty (.op (.scalar span ty) (.binary b) [x', y']))
    (hmerged : ∀ {e : Expr} {k : Cell} (v : Cell), splitConstant? b x' = some (e, k) →
      FoldsBinary b x y span ty (.op (.scalar span ty) (.binary b) [e, .int v span])) :
    Ends (FaultAt span) (FoldsBinary b x y span ty)
      (if reassociates b = true ∧ ty = .int then
        match (splitConstant? b x', y'.number?) with
        | (some (e, k), some n) =>
          match b.eval k.toInt32 n.toInt32 with
          | some v => pure (op (.scalar span ty) (.binary b) [e, int (toCell v) span])
          | _ => pure (op (.scalar span ty) (.binary b) [x', y'])
        | _ => pure (op (.scalar span ty) (.binary b) [x', y'])
      else pure (op (.scalar span ty) (.binary b) [x', y'])) := by
  split
  · split
    · rename_i hsplit
      simp only [Prod.mk.injEq] at hsplit
      split
      · exact Ends.pure (hmerged _ hsplit.1)
      · exact Ends.pure hplain
    · exact Ends.pure hplain
  · exact Ends.pure hplain

theorem foldBinary_folds (b : Binary) (x y : Expr) (span : Span) (ty : Ty) :
    Ends (FaultAt span) (FoldsBinary b x y span ty) (foldBinary b x y span ty) := by
  unfold foldBinary
  dsimp only
  have hplain := @FoldsBinary.plain b x y span ty
  have hmerged := @FoldsBinary.merged b x y span ty
  have hnumber := @FoldsBinary.number b x y span ty
  have htruth := @FoldsBinary.truth b x y span ty
  have hfixed := @FoldsBinary.fixed b x y span ty
  generalize castOperands b x y = operands at hplain hmerged hnumber htruth hfixed ⊢
  obtain ⟨x', y'⟩ := operands
  dsimp only at hplain hmerged hnumber htruth hfixed ⊢
  split
  · split
    · exact semantic_faultAt _
    · split
      · rename_i hb
        exact Ends.pure (htruth _ rfl hb)
      · rename_i hb
        exact Ends.pure (hnumber _ rfl (Bool.not_eq_true _ ▸ hb))
  · split
    · rename_i hany
      split
      · rename_i p q hlit
        simp only [Prod.mk.injEq] at hlit
        refine (foldFixed_ends b p q span).self.bind fun folded hfolded => ?_
        split
        · exact Ends.pure (hfixed (by simpa using hany) hlit.1 hfolded.1)
        · exact merge_folds hplain hmerged
      · exact merge_folds hplain hmerged
    · exact merge_folds hplain hmerged

theorem foldBinary_ends {k : Nat} {x y : Expr} (b : Binary) {span : Span} (ty : Ty) (hx : Ready P k x)
    (hy : Ready P 0 y) (hspan : P span) :
    Ends (CompileError.Placed P) (Ready P k) (foldBinary b x y span ty) := by
  obtain ⟨hx, hy⟩ := hx.castOperands b hy
  refine ((foldBinary_folds b x y span ty).weaken fun _ he => he.placed hspan).mono fun e he => ?_
  cases he with
  | truth v h _ =>
    rw [h] at hx
    cases hx with | number _ => exact .number hspan
  | number v h _ =>
    rw [h] at hx
    cases hx with | number _ => exact .number hspan
  | @fixed p q _ _ hp h =>
    obtain rfl := hx.of_literal hp
    rcases (foldFixed_ends b p q span).of_ok h e rfl with ⟨f, rfl⟩ | ⟨v, rfl⟩
    · exact .fixed hspan
    · exact .number hspan
  | merged v h => exact .binary hspan (hx.splitConstant h) (.number hspan)
  | plain => exact .binary hspan hx hy

theorem updateValue_ends (b : Binary) {target y : Expr} {span : Span} (ht : Ready P 0 target)
    (hy : Ready P 0 y) (hspan : P span) :
    Ends (CompileError.Placed P) (Ready P 1) (updateValue b target y span) := by
  unfold updateValue
  have hold : Ready P 1 (placeholder (.scalar target.span target.ty)) := .placeholder ht.span
  refine (foldBinary_ends b _ hold hy hspan).bind fun value hvalue => ?_
  exact Ends.pure (hvalue.toTy _)

variable {info : Info}

theorem foldUpdate_ends {o : Op} (b : Binary) {target y : Expr}
    (ho : (∃ b, o = .compound b) ∨ o = .postIncrement ∨ o = .postDecrement) (ht : Ready P 0 target)
    (hy : Ready P 0 y) (hi : P info.span) :
    Ends (CompileError.Placed P) (Ready P 0) (foldUpdate o b target y info) := by
  unfold foldUpdate
  exact (updateValue_ends b ht hy hi).bind fun value hvalue => Ends.pure (.update hi ho ht hvalue)

theorem Ready.foldUnary {o : Op} (u : Unary) {x : Expr} (hi : P info.span)
    (ho : o = .negate ∨ o = .abs ∨ o = .bitNot ∨ o = .not) (hx : Ready P 0 x) :
    Ready P 0 (Expr.foldUnary o u x info) := by
  unfold Expr.foldUnary
  split
  · exact .number hi
  · exact .fixed hi
  · exact .fixed hi
  · exact .unary hi ho hx

theorem Ready.foldLogic {o : Op} {x y : Expr} (hi : P info.span)
    (ho : o = .logicAnd ∨ o = .logicOr ∨ o = .comma) (hx : Ready P 0 x) (hy : Ready P 0 y) :
    Ready P 0 (Expr.foldLogic o x y info) := by
  unfold Expr.foldLogic
  dsimp only
  split
  · exact .number hi
  · split
    · exact .number hi
    · exact hy.toTy _
  · exact .sequence hi ho (hx.toTy _) (hy.toTy _)

theorem Ready.foldNot {x : Expr} (hi : P info.span) (hx : Ready P 0 x) : Ready P 0 (Expr.foldNot x info) := by
  unfold Expr.foldNot
  have hplain : Ready P 0 (op (.scalar info.span info.ty) .not [x]) := .unary hi (by simp) hx
  split
  · exact .number hi
  · dsimp only
    split
    · split
      · cases hx with
        | binary hi' hx hy => exact .binary hi' hx hy
        | unary _ ho _ => simp at ho
        | sequence _ ho _ _ => simp at ho
        | update _ ho _ _ => simp at ho
      · exact hplain
    · exact hplain

theorem foldConditional_ends {cond a b : Expr} {j : Info} (hi : P info.span) (hj : P j.span)
    (hc : Ready P 0 cond) (ha : Ready P 0 a) (hb : Ready P 0 b) :
    Ends (CompileError.Placed P) (Ready P 0) (foldConditional cond (op j .conditionalElse [a, b]) info) := by
  unfold foldConditional
  dsimp only
  split
  · exact Ends.pure (ha.toTy _)
  · exact Ends.pure (hb.toTy _)
  · exact Ends.pure (.choice hi hj hc (ha.toTy _) (hb.toTy _))

theorem foldOp_ends (hi : P info.span) : ∀ {o : Op} {es : List Expr},
    o.isPlain = true → es.length = o.arity → (∀ e ∈ es, Ready P 0 e) →
    Ends (CompileError.Placed P) (Ready P 0) (foldOp o es info)
  | .binary b, [x, y], _, _, h => foldBinary_ends b _ (h x (by simp)) (h y (by simp)) hi
  | .logicAnd, [x, y], _, _, h | .logicOr, [x, y], _, _, h =>
    .ok (.foldLogic hi (by simp) (h x (by simp)) (h y (by simp)))
  | .assign, [target, value], _, _, h => by
    unfold foldOp
    dsimp only
    split
    · exact .ok (.assign hi (h target (by simp)) ((h value (by simp)).toTy _))
    · exact semantic_placed _ hi
  | .compound b, [target, y], _, _, h =>
    foldUpdate_ends b (by simp) (h target (by simp)) (h y (by simp)) hi
  | .preIncrement, [target], _, _, h => foldUpdate_ends .add (by simp) (h target (by simp)) (.number hi) hi
  | .preDecrement, [target], _, _, h => foldUpdate_ends .sub (by simp) (h target (by simp)) (.number hi) hi
  | .postIncrement, [target], _, _, h => foldUpdate_ends .add (by simp) (h target (by simp)) (.number hi) hi
  | .postDecrement, [target], _, _, h => foldUpdate_ends .sub (by simp) (h target (by simp)) (.number hi) hi
  | .negate, [x], _, _, h => .ok (.foldUnary .neg hi (by simp) (h x (by simp)))
  | .abs, [x], _, _, h => .ok (.foldUnary .abs hi (by simp) (h x (by simp)))
  | .bitNot, [x], _, _, h => .ok (.foldUnary .bitNot hi (by simp) ((h x (by simp)).toTy _))
  | .not, [x], _, _, h => .ok (.foldNot hi (h x (by simp)))
  | .cast ty, [x], _, _, h => .ok ((h x (by simp)).toTy ty)
  | .comma, [a, b], _, _, h => by
    unfold foldOp
    dsimp only
    split
    · exact .ok (h b (by simp))
    · exact .ok (h b (by simp))
    · exact .ok (h b (by simp))
    · exact .ok (.sequence hi (by simp) (h a (by simp)) (h b (by simp)))

theorem foldIndex_ends {v : Variable} {es : List Expr} (hi : P info.span) (hv : v.Stored)
    (hes : ∀ e ∈ es, Ready P 0 e) : Ends (CompileError.Placed P) (Ready P 0) (foldIndex v es info) := by
  obtain ⟨s, hs⟩ := Option.isSome_iff_exists.mp hv
  unfold foldIndex
  simp only [hs]
  split
  · rename_i hnone
    refine Ends.pure (.index hi hv hes ?_)
    rintro rfl
    cases hnone
  · split
    · refine Ends.pure (.index hi hv ?_ (List.cons_ne_nil _ _))
      simp only [List.mem_singleton, forall_eq]
      exact .number hi
    · exact semantic_placed _ hi

theorem castArgs_ready : ∀ {ps : List Param} {es : List Expr}, es.length = ps.length →
    (∀ e ∈ es, Ready P 0 e) →
    (castArgs ps es).length = ps.length ∧ ∀ e ∈ castArgs ps es, Ready P 0 e
  | [], [], _, _ => ⟨rfl, nofun⟩
  | p :: ps, e :: es, hlen, h => by
    have hlen' : es.length = ps.length := by simpa using hlen
    obtain ⟨hlen', h'⟩ := castArgs_ready hlen' fun a ha => h a (List.mem_cons_of_mem _ ha)
    refine ⟨by simp [castArgs, hlen'], ?_⟩
    rintro a (_ | ⟨_, ha⟩)
    · split
      · exact h e List.mem_cons_self
      · exact (h e List.mem_cons_self).toTy _
    · exact h' a ha

theorem foldAll_ends {fair : CompileError → Prop} {good : Expr → Prop} : ∀ {es : List Expr},
    (∀ e ∈ es, Ends fair good e.fold) →
    Ends fair (fun es' => es'.length = es.length ∧ ∀ e ∈ es', good e) (foldAll es)
  | [], _ => ⟨rfl, by simp⟩
  | e :: es, h => by
    rw [foldAll]
    refine (h e List.mem_cons_self).bind fun e' he' => ?_
    refine (foldAll_ends fun a ha => h a (List.mem_cons_of_mem _ ha)).bind fun es' hes' => ?_
    refine Ends.pure ⟨by simp [hes'.1], ?_⟩
    rintro a (_ | ⟨_, ha⟩)
    · exact he'
    · exact hes'.2 a ha

/-- Folding leaves what code can be made of. -/
theorem Typed.fold {e : Expr} (h : Typed P e) : Ends (CompileError.Placed P) (Ready P 0) e.fold := by
  induction h with
  | number hi _ => exact Ends.pure (.number hi)
  | fixed hi _ => exact Ends.pure (.fixed hi)
  | var hi hv _ => exact Ends.pure (.var hi hv)
  | index hi hv _ _ _ ih =>
    rw [Expr.fold]
    refine (foldAll_ends ih).bind fun es hes => foldIndex_ends hi hv ?_
    intro e he
    obtain ⟨e', he', rfl⟩ := List.mem_map.mp he
    exact (hes.2 e' he').toTy _
  | array hi _ _ _ ih =>
    rw [Expr.fold]
    refine (foldAll_ends ih).bind fun es hes => Ends.pure (.array hi ?_)
    intro e he
    obtain ⟨e', he', rfl⟩ := List.mem_map.mp he
    exact (hes.2 e' he').toTy _
  | op hi hplain ho _ _ _ _ ih =>
    rw [Expr.fold]
    exact (foldAll_ends ih).bind fun es hes => foldOp_ends hi hplain (hes.1.trans ho) hes.2
  | @choice a b i j cond hi hj _ _ _ _ _ ihc iha ihb =>
    have hbranches : Ends (CompileError.Placed P)
        (fun e => ∃ a b, e = .op j .conditionalElse [a, b] ∧ Ready P 0 a ∧ Ready P 0 b)
        (Expr.op j .conditionalElse [a, b]).fold := by
      rw [Expr.fold]
      have hpair : ∀ e ∈ [a, b], Ends (CompileError.Placed P) (Ready P 0) e.fold := by
        simp only [List.mem_cons, List.not_mem_nil, or_false, forall_eq_or_imp, forall_eq]
        exact ⟨iha, ihb⟩
      refine (foldAll_ends hpair).bind fun es hes => ?_
      match es, hes with
      | [a', b'], hes => exact Ends.pure ⟨a', b', rfl, hes.2 a' (by simp), hes.2 b' (by simp)⟩
    have hargs : Ends (CompileError.Placed P)
        (fun es => ∃ cond a b, es = [cond, .op j .conditionalElse [a, b]] ∧ Ready P 0 cond ∧
          Ready P 0 a ∧ Ready P 0 b)
        (foldAll [cond, .op j .conditionalElse [a, b]]) := by
      rw [foldAll, foldAll, foldAll]
      simp only [bind_assoc, pure_bind]
      refine ihc.bind fun cond' hc => hbranches.bind ?_
      rintro _ ⟨a', b', rfl, ha, hb⟩
      exact Ends.pure ⟨cond', a', b', rfl, hc, ha, hb⟩
    rw [Expr.fold]
    refine hargs.bind ?_
    rintro _ ⟨cond', a', b', rfl, hc, ha, hb⟩
    exact foldConditional_ends hi hj hc ha hb
  | function hi _ _ hs _ _ ih =>
    rw [Expr.fold]
    refine (foldAll_ends ih).bind fun es hes => ?_
    obtain ⟨hlen, hready⟩ := castArgs_ready (hes.1.trans hs) hes.2
    exact Ends.pure (.function hi hready hlen)
  | builtin hi _ hb _ _ ih =>
    rw [Expr.fold]
    exact (foldAll_ends ih).bind fun es hes => Ends.pure (.builtin hi hes.2 (hes.1.trans hb))

end Expr
end RobotScript
