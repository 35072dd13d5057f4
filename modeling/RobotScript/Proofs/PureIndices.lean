/-
# Pure indices

Indices that have no effect, computed again and again, find the same position
each time: what their code does depends on memory alone, and it changes nothing
but the return slot, in which a value is kept while it is tested, and the
temporaries that it takes. Of functions of the firmware it calls the one that
multiplies and divides, on temporaries.

Key definitions: `Draws`, `Spot.Repeatable`.
Key theorem: `Emits.draws`.
-/
import RobotScript.Proofs.Drafting
import RobotScript.Proofs.ExprParts
import RobotScript.Proofs.Fragments
import RobotScript.Proofs.NativeCalls

namespace RobotScript

open Machine (Instr Binary Unary State RunFault Exec)
open Code (size)
open Coder (pushNat)

/-- The words that code for a goal leaves. -/
@[simp] def Goal.width : Goal → Nat
  | value => 1
  | effect => 0
  | test => 2

namespace Machine.Instr

/-- Whether the instruction goes on behind itself, with nothing changed but the
stack. -/
def isQuiet : Instr → Bool
  | pushSmall _ | push _ | load _ | loadIndirect _ _ | unary _ | binary _ => true
  | _ => false

@[simp] theorem isQuiet_load (a : Word) : (load a).isQuiet = true := rfl

@[simp] theorem isQuiet_loadIndirect (a size : Word) : (loadIndirect a size).isQuiet = true := rfl

@[simp] theorem isQuiet_binary (op : Binary) : (binary op).isQuiet = true := rfl

@[simp] theorem isQuiet_immediate (n : Cell) : (immediate n).isQuiet = true := by
  unfold immediate
  split <;> rfl

end Machine.Instr

section

open Code (plain)

/-! ### Products and quotients -/

/-- The product of two words divided by a third. -/
def Machine.muldiv? (memory : Array Cell) (p q r : Nat) : Option Cell :=
  memory[p]?.bind fun x => memory[q]?.bind fun y => memory[r]?.bind fun z =>
    (Binary.div.eval (x.toInt32 * y.toInt32) z.toInt32).map toCell

theorem Machine.run_readArgument_eq (name : String) {args : List Nat} {k a : Nat}
    (ha : args[k]? = some a) (m : State) :
    (readArgument name args k 0).run m = match m.memory[a]? with
      | some w => .ok w m
      | none => .error (.badAddress m.pc a) m := by
  rw [readArgument, ha]
  exact Exec.run_read_eq a m

theorem Machine.run_nativeWord_muldiv (name : String) (d p q r : Nat) (m : State) :
    (∃ v, muldiv? m.memory p q r = some v ∧ (nativeWord name [d, p, q, r] .muldiv 0).run m = .ok v m) ∨
      ∃ fault m', (nativeWord name [d, p, q, r] .muldiv 0).run m = .error fault m' := by
  simp only [nativeWord, EStateM.run_bind, muldiv?]
  rw [run_readArgument_eq name (a := p) rfl]
  cases m.memory[p]? with
  | none => exact .inr ⟨_, _, rfl⟩
  | some x =>
    dsimp only [Option.bind_some]
    rw [run_readArgument_eq name (a := q) rfl]
    cases m.memory[q]? with
    | none => exact .inr ⟨_, _, rfl⟩
    | some y =>
      dsimp only [Option.bind_some]
      rw [run_readArgument_eq name (a := r) rfl]
      cases m.memory[r]? with
      | none => exact .inr ⟨_, _, rfl⟩
      | some z =>
        dsimp only [Option.bind_some]
        rw [EStateM.run_get]
        dsimp only
        cases Binary.div.eval (x.toInt32 * y.toInt32) z.toInt32 with
        | none => exact .inr ⟨_, _, rfl⟩
        | some v => exact .inl ⟨_, rfl, rfl⟩

theorem NativeFunction.run_perform_muldiv {f : NativeFunction} (hname : f.name = "math.muldiv")
    (d p q r : Nat) (sizes : List Nat) (m : State) :
    (∃ v, Machine.muldiv? m.memory p q r = some v ∧ d < m.memory.size ∧
        (f.perform [d, p, q, r] (1 :: sizes)).run m = .ok () (m.setWord d v)) ∨
      ∃ fault m', (f.perform [d, p, q, r] (1 :: sizes)).run m = .error fault m' := by
  have hperform : f.perform [d, p, q, r] (1 :: sizes) =
      Machine.nativeWord f.name [d, p, q, r] .muldiv 0 >>= fun v => Exec.write d v >>= fun _ => pure () := by
    rw [perform, hname]
    rfl
  rw [hperform, EStateM.run_bind]
  rcases Machine.run_nativeWord_muldiv f.name d p q r m with ⟨v, hv, hrun⟩ | ⟨fault, m', hrun⟩
  · rw [hrun]
    dsimp only
    rw [EStateM.run_bind, Exec.run_write_eq]
    by_cases hd : d < m.memory.size
    · rw [if_pos hd]
      exact .inl ⟨v, hv, hd, rfl⟩
    · rw [if_neg hd]
      exact .inr ⟨_, _, rfl⟩
  · rw [hrun]
    exact .inr ⟨_, _, rfl⟩

namespace Carries

/-- Numbers are pushed one after another. -/
theorem pushNats {node : Node} : ∀ (ns : List Nat) (a : Nat), Carries node (plain (ns.map pushNat)) a
    fun x => some (ns.reverse.map Int16.ofNat ++ x.1, x.2)
  | [], a => .nil a
  | n :: ns, a => by
    have hfirst : Confines node (fun _ => False) a (a + 1) (Sight.push (Int16.ofNat n)) := .push _
    have hpush : Carries node (plain [pushNat n]) a (Sight.push (Int16.ofNat n)) := .immediate _ a
    have hall := hpush.append hfirst (pushNats ns (a + 1))
    have hfun : (fun x : Sight => (Sight.push (Int16.ofNat n) x).bind fun x =>
        some (ns.reverse.map Int16.ofNat ++ x.1, x.2)) =
          fun x => some ((n :: ns).reverse.map Int16.ofNat ++ x.1, x.2) := by
      funext x
      simp [Sight.push]
    rw [hfun] at hall
    exact hall

end Carries

/-- Multiply and divide words of memory into another, with a firmware function
on their addresses. -/
def Sight.muldiv (d p q r : Nat) (x : Sight) : Option Sight :=
  (Machine.muldiv? x.2 p q r).bind fun v =>
    if d < x.2.size then some (x.1, x.2.setIfInBounds d v) else none

variable {W : Nat → Prop}

theorem Confines.muldiv {node : Node} {a d p q r : Nat} (hd : W d) :
    Confines node W a a (Sight.muldiv d p q r) := by
  intro x y hx hsize hy
  obtain ⟨v, -, hy⟩ := Option.bind_eq_some_iff.mp hy
  rw [Option.ite_none_right_eq_some] at hy
  obtain ⟨-, hy⟩ := hy
  cases hy
  refine ⟨hx, Array.size_setIfInBounds.trans hsize, fun j hj => ?_⟩
  have hne : d ≠ j := by
    rintro rfl
    exact hj hd
  exact Array.getElem?_setIfInBounds_ne hne

/-- A call of the function that multiplies and divides finds its arguments. -/
theorem Carries.muldiv {c : Coder} {id : Word} {groups free : List Nat} {d p q r : Nat} (a : Nat)
    (hcount : c.node.nativeFunctions.length ≤ 4096)
    (hcall : c.Natively "math.muldiv" (List.replicate 4 1) id groups free)
    (haddrs : ∀ n ∈ [d, p, q, r], n < 65536) :
    Carries c.node (plain ((groups ++ free.reverse ++ [d, p, q, r].reverse).map pushNat) ++ plain [.callNative id]) a
      (Sight.muldiv d p q r) := by
  obtain ⟨f, hnative, hlen, hsizes⟩ := hcall
  have hname : f.name = "math.muldiv" := (Node.native?_eq_some hnative).1
  have hid := Node.native?_id hnative hcount
  have hwords : ∀ n ∈ [d, p, q, r] ++ free ++ groups, n < 65536 := by
    intro n hn
    rw [List.append_assoc, List.mem_append] at hn
    rcases hn with hn | hn
    · exact haddrs n hn
    · rcases nativeSizes?_mem hsizes hn with rfl | hn
      · omega
      · rw [List.eq_of_mem_replicate hn]
        omega
  intro m base rest x hk hx hsize
  have hpushes : Comes c.node _ _ _ _ :=
    Carries.pushNats (groups ++ free.reverse ++ [d, p, q, r].reverse) a m base rest x hk.left hx hsize
  rw [Code.size_append, ← Nat.add_assoc]
  refine (hpushes.widen (Nat.le_refl _) (by omega)).bind ?_
  rintro _ ⟨y, hy, rfl⟩
  cases hy
  have hcode := hk.right
  have hle : base ≤ base + size (plain ((groups ++ free.reverse ++ [d, p, q, r].reverse).map pushNat)) :=
    Nat.le_add_right ..
  generalize base + size (plain ((groups ++ free.reverse ++ [d, p, q, r].reverse).map pushNat)) = here
    at hcode hle ⊢
  have hhere : here + size (plain [.callNative id]) = here + 1 := rfl
  rw [hhere]
  obtain ⟨held, hi⟩ := hcode.instr
  let before : State := m.put
    ((groups ++ free.reverse ++ [d, p, q, r].reverse).reverse.map Int16.ofNat ++ x.1, x.2) rest here
  have hstack : before.stack = ([d, p, q, r] ++ free ++ groups.reverse).map Int16.ofNat ++ (x.1 ++ rest) := by
    simp [before, State.put]
  have hpop := run_popCall hlen hsizes (hlen.trans (by rfl)).symm hwords hstack
  have hstep : (Machine.step c.node).run before = _ := hi.step c.node
  rw [Instr.run, EStateM.run_bind, callNative_eq hid, EStateM.run_bind, hpop] at hstep
  refine .step (m := before) hle (Nat.lt_succ_self here) ?_
  rcases NativeFunction.run_perform_muldiv hname d p q r (List.replicate 3 1)
    { before with stack := x.1 ++ rest } with ⟨v, hv, hd, hrun⟩ | ⟨fault, m', hrun⟩
  · left
    rw [hstep]
    dsimp only
    rw [show List.replicate 4 1 = 1 :: List.replicate 3 1 from rfl, hrun]
    refine ⟨_, rfl, .here ⟨(x.1, x.2.setIfInBounds d v), ?_, rfl⟩⟩
    have hv : Machine.muldiv? x.2 p q r = some v := hv
    have hd : d < x.2.size := hd
    rw [Sight.muldiv, hv, Option.bind_some, if_pos hd]
  · right
    rw [hstep]
    dsimp only
    rw [show List.replicate 4 1 = 1 :: List.replicate 3 1 from rfl, hrun]
    exact ⟨_, _, rfl⟩

/-! ### Drafts that have a function -/

/-- The word is the return slot, or a temporary from `t'` on and before `t`. -/
def Coder.Spare (c : Coder) (t' t j : Nat) : Prop := j = c.node.returnSlot ∨ t' ≤ j ∧ j < t

/-- The draft has a function that takes `a` words and leaves `b`. Of memory it
changes the return slot and temporaries, of which `t` is the last one handed out
before and `t'` behind it. -/
def Draws (c : Coder) (t : Nat) (k : Draft) (t' a b : Nat) : Prop :=
  t ≤ c.node.maxVarSize → t' ≤ t ∧ Works c.node (c.Spare t' t) k.code a b

/-- Instructions that change nothing but the stack. -/
theorem Works.quiet {node : Node} {i : Instr} {a b : Nat} (hi : i.isQuiet = true) (h : i.after? a = some b) :
    Works node W (plain [i]) a b := by
  unfold Instr.after? at h
  rw [Option.ite_none_right_eq_some] at h
  obtain ⟨⟨hstraight, htakes⟩, hb⟩ := h
  have hb := Option.some.inj hb
  cases i with
  | pushSmall n =>
    have hn : (-2048 ≤ n && n < 2048) = true := hstraight
    rw [Bool.and_eq_true, decide_eq_true_eq, decide_eq_true_eq] at hn
    obtain rfl : a + 1 = b := hb
    exact ⟨_, .pushSmall (Int16.le_iff_toInt_le.mp hn.1) (Int16.lt_iff_toInt_lt.mp hn.2) a, .push n⟩
  | push n =>
    obtain rfl : a + 1 = b := hb
    exact ⟨_, .push n a, .push n⟩
  | load addr =>
    obtain rfl : a + 1 = b := hb
    exact .load addr
  | loadIndirect addr size =>
    obtain ⟨a, rfl⟩ : ∃ a', a = a' + 1 := ⟨a - 1, (Nat.sub_add_cancel htakes).symm⟩
    obtain rfl : a + 1 = b := hb
    exact .loadIndirect addr size
  | unary u =>
    obtain ⟨a, rfl⟩ : ∃ a', a = a' + 1 := ⟨a - 1, (Nat.sub_add_cancel htakes).symm⟩
    obtain rfl : a + 1 = b := hb
    exact .unary u
  | binary op =>
    obtain ⟨a, rfl⟩ : ∃ a', a = a' + 2 := ⟨a - 2, (Nat.sub_add_cancel htakes).symm⟩
    obtain rfl : a + 1 = b := hb
    exact .binary op
  | _ => cases hi

/-- Words are put into temporaries one after another. -/
theorem Works.stores {node : Node} {a : Nat} : ∀ {addrs : List Nat},
    (∀ addr ∈ addrs, W ((UInt16.ofNat addr).toNat % 4096)) →
    Works node W (plain (addrs.map fun addr => .store (UInt16.ofNat addr))) (a + addrs.length) a
  | [], _ => .nil a
  | addr :: addrs, h => by
    rw [List.forall_mem_cons] at h
    exact (Works.store h.1 : Works node W (plain [.store (UInt16.ofNat addr)]) _ _).append (stores h.2)

end

open Draft (plain)

namespace Draws

variable {c : Coder} {t t1 t' a b d : Nat} {k k' : Draft}

theorem of_works (h : Works c.node (c.Spare t t) k.code a b) : Draws c t k t a b :=
  fun _ => ⟨Nat.le_refl t, h⟩

theorem nil : Draws c t [] t a a := of_works (.nil a)

theorem append (h : Draws c t k t1 a b) (h' : Draws c t1 k' t' b d) : Draws c t (k ++ k') t' a d := by
  intro ht
  obtain ⟨hle, hworks⟩ := h ht
  obtain ⟨hle', hworks'⟩ := h' (Nat.le_trans hle ht)
  refine ⟨Nat.le_trans hle' hle, ?_⟩
  rw [Draft.code_append]
  refine (hworks.mono fun j hj => ?_).append (hworks'.mono fun j hj => ?_)
  · exact hj.imp_right fun hj => ⟨Nat.le_trans hle' hj.1, hj.2⟩
  · exact hj.imp_right fun hj => ⟨hj.1, Nat.lt_of_lt_of_le hj.2 hle⟩

theorem above (h : Draws c t k t' a b) (n : Nat) : Draws c t k t' (a + n) (b + n) :=
  fun ht => ⟨(h ht).1, (h ht).2.above n⟩

theorem note {n : Note} (h : Draws c t k t' a b) : Draws c t (.note n :: k) t' a b := h

theorem quiet {i : Instr} (hi : i.isQuiet = true) (h : i.after? a = some b) :
    Draws c t (plain [i]) t a b := of_works (.quiet hi h)

theorem instrs : ∀ {is : List Instr} {a b : Nat}, (∀ i ∈ is, i.isQuiet = true) →
    Instr.afterAll? is a = some b → Draws c t (plain is) t a b
  | [], a, b, _, h => by
    obtain rfl : a = b := by simpa using h
    exact nil
  | i :: is, a, b, hquiet, h => by
    simp only [Instr.afterAll?_cons, Option.bind_eq_some_iff] at h
    obtain ⟨n, hi, his⟩ := h
    rw [List.forall_mem_cons] at hquiet
    exact (quiet hquiet.1 hi).append (instrs hquiet.2 his)

theorem immediate (n : Cell) : Draws c t (plain [.immediate n]) t a (a + 1) :=
  quiet (by simp) (by simp)

theorem behind {is : List Instr} (h : Draws c t k t' a b) (hquiet : ∀ i ∈ is, i.isQuiet = true)
    (his : Instr.afterAll? is b = some d) : Draws c t (k ++ plain is) t' a d :=
  h.append (instrs hquiet his)

theorem reachPure {goal : Goal} (h : Draws c t k t 0 1) : Draws c t (.reachPure goal k) t 0 goal.width := by
  cases goal with
  | value => exact h
  | effect => exact nil
  | test => exact h.append (immediate 0)

theorem reachUsed {goal : Goal} (h : Draws c t k t' 0 (if goal = .effect then 0 else 1)) :
    Draws c t (.reachUsed goal k) t' 0 goal.width := by
  cases goal with
  | value => exact h
  | effect => exact h
  | test => exact h.append (immediate 0)

theorem loaded {s : Storage} {j : Nat} {is : List Instr} (h : s.fixed? c .load j = some is) :
    Draws c t (plain is) t 0 1 := by
  unfold Storage.fixed? at h
  cases hm : s.mode with
  | absolute =>
    rw [hm] at h
    obtain rfl := Option.some.inj h
    exact quiet rfl (by simp [Use.direct])
  | frame =>
    rw [hm] at h
    obtain rfl := Option.some.inj h
    exact instrs (by simp [Use.indirect]) (by simp [Use.indirect])
  | reference =>
    rw [hm] at h
    cases j with
    | zero =>
      obtain rfl := Option.some.inj h
      exact instrs (by simp [Storage.held, Use.indirect]) (by simp [Storage.held, Use.indirect])
    | succ j => cases h

/-- Two words are compared, and one of two drafts is run. -/
theorem fork {op : Binary} {branch skip : Instr} {k1 k2 : Draft} {t2 : Nat} (h : Draws c t k t1 0 2)
    (h1 : Draws c t1 k1 t2 0 1) (hbranch : branchBy? op false (2 + k1.size + 1) = some branch)
    (h2 : Draws c t2 k2 t' 0 1) (hskip : jumpBy? (1 + k2.size) = some skip) :
    Draws c t (k ++ plain [branch] ++ k1 ++ plain [skip] ++ k2) t' 0 1 := by
  intro ht
  obtain ⟨hle, hworks⟩ := h ht
  obtain ⟨hle1, hworks1⟩ := h1 (Nat.le_trans hle ht)
  obtain ⟨hle2, hworks2⟩ := h2 (Nat.le_trans hle1 (Nat.le_trans hle ht))
  have hmono {u u' : Nat} (hu : t' ≤ u) (hu' : u' ≤ t) (j : Nat) (hj : c.Spare u u' j) : c.Spare t' t j :=
    hj.imp_right fun hj => ⟨Nat.le_trans hu hj.1, Nat.lt_of_lt_of_le hj.2 hu'⟩
  refine ⟨by omega, ?_⟩
  simp only [Draft.code_append, Draft.code_plain]
  exact (hworks.mono (hmono (by omega) (Nat.le_refl t))).fork (hworks1.mono (hmono hle2 hle)) hbranch
    (hworks2.mono (hmono (Nat.le_refl _) (by omega))) hskip

section

variable (hwords : c.node.maxVarSize ≤ 4096)

include hwords

theorem stored_temp : Draws c (t + 1) (.note (.temps c.frameSize t) :: plain [.store (UInt16.ofNat t)]) t
    (a + 1) a := by
  intro ht
  refine ⟨Nat.le_succ t, .store ?_⟩
  rw [Machine.operand_eq (Nat.lt_of_lt_of_le ht hwords)]
  exact .inr ⟨Nat.le_refl t, Nat.lt_succ_self t⟩

theorem result : Draws c t (plain [.store c.returnSlot]) t (a + 1) a := by
  refine of_works (.store ?_)
  rw [Coder.returnSlot, Machine.operand_eq (by unfold Node.returnSlot; omega)]
  exact .inl rfl

theorem fitted {goal : Goal} {l : Draft} (h : Draws c t k t1 a 1) (hl : Fitted c goal k t1 l t') :
    Draws c t l t' a goal.width := by
  cases hl with
  | value => exact h
  | effect ht => exact h.append (stored_temp hwords)
  | test => exact h.append (immediate 0)

variable (hcount : c.node.nativeFunctions.length ≤ 4096)

include hcount

theorem onValues (h : OnValues c "math.muldiv" 3 true t k t') : Draws c t k t' 3 1 := by
  cases h with
  | @intro _ groups free id hbase hcall =>
    intro ht
    have hspare {j : Nat} (hlo : t' ≤ j) (hhi : j < t' + 4) :
        c.Spare t' (t' + 4) ((UInt16.ofNat j).toNat % 4096) := by
      rw [Machine.operand_eq (by omega)]
      exact .inr ⟨hlo, hhi⟩
    have hpops : Works c.node (c.Spare t' (t' + 4)) (Code.plain (Coder.pops t' 3)) 3 0 := by
      have hstores : ∀ addr ∈ [t' + 2, t' + 1, t' + 0],
          c.Spare t' (t' + 4) ((UInt16.ofNat addr).toNat % 4096) := by
        intro addr haddr
        simp only [List.mem_cons, List.not_mem_nil, or_false] at haddr
        exact hspare (by omega) (by omega)
      exact Works.stores (a := 0) hstores
    have haddrs : ∀ n ∈ [t' + 3, t' + 0, t' + 1, t' + 2], n < 65536 := by
      intro n hn
      simp only [List.mem_cons, List.not_mem_nil, or_false] at hn
      omega
    have hcalled : Works c.node (c.Spare t' (t' + 4))
        (Code.plain ((groups ++ free.reverse ++ [t' + 3, t' + 0, t' + 1, t' + 2].reverse).map pushNat) ++
          Code.plain [.callNative id]) 0 0 :=
      ⟨_, .muldiv 0 hcount hcall haddrs, .muldiv (.inr ⟨by omega, by omega⟩)⟩
    refine ⟨by omega, ?_⟩
    have hall := (hpops.append hcalled).append (.load (UInt16.ofNat (t' + 3)))
    have hrange : List.range 3 = [0, 1, 2] := rfl
    simpa [Coder.nativeDraft, Code.plain, hrange] using hall

theorem combines {op : Binary} {xTy yTy : Ty} {x y l : Draft} {t2 : Nat} (hx : Draws c t x t1 0 1)
    (hy : Draws c t1 y t2 0 1) (h : Combines c op xTy yTy x y t2 l t') : Draws c t l t' 0 1 := by
  have hy1 : Draws c t1 y t2 1 2 := hy.above 1
  have hy2 : Draws c t1 y t2 2 3 := hy.above 2
  cases h with
  | plainly => exact (hx.append hy1).append (quiet rfl (Instr.after?_binary op 0))
  | scaled hoperands hn =>
    refine append (b := 3) ?_ (onValues hwords hcount hn)
    unfold Coder.scaledOperands at hoperands
    split at hoperands
    · exact Option.some.inj hoperands ▸ (hx.append hy1).append (immediate _)
    · exact Option.some.inj hoperands ▸ (hx.append (immediate _)).append hy2
    · exact Option.some.inj hoperands ▸ (hx.append (immediate _)).append hy2
    · cases hoperands

end

end Draws

/-! ### Expressions without an effect -/

/-- An element has an index. -/
def Expr.IsIndexed : Expr → Prop
  | .index _ _ es => es ≠ []
  | _ => True

/-- The expression has no effect, and all its elements have indices. -/
structure Expr.Repeatable (e : Expr) : Prop where
  pure : e.isPure = true
  indexed : e.Every Expr.IsIndexed

/-- Where the position is computed, it is from indices that are repeatable. -/
def Spot.Repeatable : Spot → Prop
  | computed es => es ≠ [] ∧ ∀ e ∈ es, e.Repeatable
  | known _ | saved _ => True

theorem Expr.isPure_of_allPure : ∀ {es : List Expr}, Expr.allPure es = true → ∀ e ∈ es, e.isPure = true
  | [], _ => nofun
  | e :: es, h => by
    rw [Expr.allPure, Bool.and_eq_true] at h
    exact List.forall_mem_cons.mpr ⟨h.1, isPure_of_allPure h.2⟩

namespace Expr.Repeatable

variable {i : Info} {o : Op} {es : List Expr}

theorem operand (h : (Expr.op i o es).Repeatable) {e : Expr} (he : e ∈ es) : e.Repeatable := by
  have hpure : (!o.isAssignment && Expr.allPure es) = true := h.pure
  rw [Bool.and_eq_true] at hpure
  exact ⟨isPure_of_allPure hpure.2 e he, h.indexed.operands e he⟩

theorem isAssignment_eq (h : (Expr.op i o es).Repeatable) : o.isAssignment = false := by
  have hpure : (!o.isAssignment && Expr.allPure es) = true := h.pure
  rw [Bool.and_eq_true, Bool.not_eq_true'] at hpure
  exact hpure.1

theorem indices {v : Variable} (h : (Expr.index i v es).Repeatable) : (Spot.computed es).Repeatable :=
  ⟨h.indexed.top, fun e he => ⟨isPure_of_allPure h.pure e he, h.indexed.operands e he⟩⟩

end Expr.Repeatable

/-- What the draft of a job does, where it has no effect. -/
def Job.Repeats (c : Coder) (t : Nat) (k : Draft) (t' : Nat) : Job → Prop
  | .expr goal e => e.Repeatable → Draws c t k t' 0 goal.width
  | .indices _ j _ es => j ≠ 0 ∨ es ≠ [] → (∀ e ∈ es, e.Repeatable) → Draws c t k t' (if j = 0 then 0 else 1) 1
  | .position _ spot => spot.Repeatable → Draws c t k t' 0 1
  | .place reused e _ spot => reused = false → e.Repeatable → k = [] ∧ t' = t ∧ spot.Repeatable
  | .access use _ spot => use = .load → spot.Repeatable → Draws c t k t' 0 1
  | _ => True

section

variable {c : Coder} (hwords : c.node.maxVarSize ≤ 4096) (hcount : c.node.nativeFunctions.length ≤ 4096)

include hwords hcount

/-- The draft of what has no effect has a function. -/
theorem Emits.draws {job : Job} {t t' : Nat} {k : Draft} (h : Emits c job t k t') : job.Repeats c t k t' := by
  induction h with
  | number | fixed => exact fun _ => .reachPure (.immediate _)
  | placeholder => exact fun h => by cases h.pure
  | unusedVar => exact fun _ => .nil
  | var hgoal _ _ _ ih => exact fun _ => .reachUsed (by rw [if_neg hgoal]; exact ih rfl trivial)
  | index _ _ hl ih ih' =>
    intro h
    obtain ⟨rfl, rfl, hspot⟩ := ih rfl h
    exact .fitted hwords (ih' rfl hspot) hl
  | call | native | absolute => exact fun h => by cases h.pure
  | comparison _ _ _ ih ih' =>
    intro h
    exact (ih (h.operand (by simp))).append ((ih' (h.operand (by simp))).above 1)
  | binary _ _ _ hl hl' ih ih' =>
    intro h
    exact .fitted hwords (.combines hwords hcount (ih (h.operand (by simp))) (ih' (h.operand (by simp))) hl) hl'
  | @logic o x t k t1 y k' t2 skip goal l t' i ho _ _ hskip hl ih ih' =>
    intro h
    have htest : Draws c t (k ++ plain [.store c.returnSlot] ++ plain [.load c.returnSlot, .immediate 0])
        t1 0 2 :=
      ((ih (h.operand (by simp))).append (.result hwords)).behind (by simp) (by simp)
    have hkept : Draws c t1 (plain [.load c.returnSlot]) t1 0 1 := .quiet rfl (by simp)
    have hbranch : branchBy? (if o = .logicAnd then .eq else .ne) false
        (2 + ((plain [.load c.returnSlot]).size : Int) + 1) =
          some (.branch (if o = .logicAnd then .eq else .ne) false 4) := by
      rw [show (plain [.load c.returnSlot]).size = 1 from rfl]
      rfl
    have hfork := htest.fork hkept hbranch (ih' (h.operand (by simp))) hskip
    exact .fitted hwords (by simpa [plain] using hfork) hl
  | unary _ _ hl ih =>
    intro h
    exact .fitted hwords ((ih (h.operand (by simp))).append (.quiet rfl (Instr.after?_unary _ 0))) hl
  | notTest _ ih => exact fun h => (ih (h.operand (by simp))).append (.immediate 0)
  | not _ _ hl ih =>
    intro h
    exact .fitted hwords ((ih (h.operand (by simp))).behind (d := 1) (by simp) (by simp)) hl
  | cast _ hl ih =>
    intro h
    refine .fitted hwords ((ih (h.operand (by simp))).behind (d := 1) ?_ ?_) hl
    · unfold Coder.convert
      split <;> simp
    · unfold Coder.convert
      split <;> simp
  | @choice t k t1 a k1 t2 branch b k2 t3 skip goal l t' i j cond _ _ hbranch _ hskip hl ih ih1 ih2 =>
    intro h
    have helse : (Expr.op j .conditionalElse [a, b]).Repeatable := h.operand (by simp)
    exact .fitted hwords ((ih (h.operand (by simp))).fork (ih1 (helse.operand (by simp))) hbranch
      (ih2 (helse.operand (by simp))) hskip) hl
  | @comma _ _ _ _ goal _ _ _ _ _ _ ih ih' =>
    intro h
    refine .reachUsed ((ih (h.operand (by simp))).append ?_)
    have hsecond := ih' (h.operand (by simp))
    cases goal <;> exact hsecond
  | assign => exact fun h => by cases h.isAssignment_eq
  | post ho =>
    intro h
    have hassign := h.isAssignment_eq
    rcases ho with rfl | rfl <;> cases hassign
  | update ho => exact fun h => by cases ho.symm.trans h.isAssignment_eq
  | @noIndex dims j stride t =>
    rintro hne -
    rw [if_neg (hne.resolve_right fun h => h rfl)]
    exact .nil
  | @indexOf e t k t1 dims j stride es k' t' _ _ ih ih' =>
    rintro - hes
    rw [List.forall_mem_cons] at hes
    have hindex := ih hes.1
    have hrest := ih' (.inl (Nat.succ_ne_zero j)) hes.2
    rw [if_neg (Nat.succ_ne_zero j)] at hrest
    refine Draws.append (b := 1) ?_ hrest
    by_cases hj : j = 0
    · simp only [hj, if_true, List.append_nil]
      refine hindex.behind ?_ ?_ <;> split <;> simp [pushNat]
    · simp only [hj, if_false]
      refine (hindex.above 1).behind ?_ ?_ <;> split <;> simp [pushNat]
  | known => exact fun _ => .immediate _
  | computed _ ih => exact fun hspot => ih (.inr hspot.1) hspot.2
  | saved => exact fun _ => .quiet rfl (by simp)
  | varPlace | knownPlace => exact fun _ _ => ⟨rfl, rfl, trivial⟩
  | computedPlace => exact fun _ h => ⟨rfl, rfl, h.indices⟩
  | savedPlace => rintro ⟨⟩
  | direct h _ =>
    rintro rfl -
    exact .note (.loaded h)
  | @indexed spot t k t' use s h _ _ ih =>
    rintro rfl hspot
    have hposition := ih hspot
    have hback : Draws c t' (.note (.element s .load) :: plain (s.back c .load)) t'
        (if s.mode = .reference then 2 else 1) 1 := by
      unfold Storage.back
      cases s.mode <;> exact .note (.instrs (by simp [Use.indirect]) (by simp [Use.indirect]))
    unfold Storage.front
    cases hmode : s.mode with
    | absolute | frame =>
      rw [hmode, if_neg (by rintro ⟨⟩)] at hback
      exact hposition.append hback
    | reference =>
      rw [hmode, if_pos rfl] at hback
      have hheld : Draws c t (plain (s.held c)) t 0 1 := .instrs (by simp [Storage.held]) (by simp [Storage.held])
      exact (hheld.append (hposition.above 1)).append hback
  | _ => trivial

end

end RobotScript
