/-
# Places of structured statements

Structured statements lie in the code as a whole with every jump out of a loop
resolved. `Occurs` finds code there as it was generated for a part. `Placed`
says where a control goes on, up to jumps on the way: where a statement ends,
the code of what is left to do behind it begins. `Move.Lies` says that the code
at a place makes a move and leads to the places of what comes then.

Key definitions: `Occurs`, `Placed`, `Picks`, `Move.Lies`.
Key theorems: `Occurs.close`, `Placed.exit`.
-/
import RobotScript.Proofs.Jumps
import RobotScript.Proofs.Structured

namespace RobotScript

open Machine (Instr Binary State)
open Code (plain size)

/-! ### Generated code -/

namespace Coding.Gives

variable {α β : Type} {x : Coding α} {a : α}

theorem bind {f : α → Coding β} {b : β} (h : Gives (x >>= f) b) : ∃ a, x.Gives a ∧ (f a).Gives b := by
  obtain ⟨s, s', h⟩ := h
  obtain ⟨⟨a, s1⟩, hx, hf⟩ := bind_eq_ok.mp h
  exact ⟨a, ⟨s, s1, hx⟩, s1, s', hf⟩

theorem pure {b : α} (h : Gives (pure b) a) : b = a := by
  obtain ⟨s, s', h⟩ := h
  cases h
  rfl

theorem lift {r : Result α} (h : Gives (liftM r : Coding α) a) : r = .ok a := by
  obtain ⟨s, s', h⟩ := h
  cases r with
  | ok b => cases h; rfl
  | error e => cases h

theorem inReach {o : Option α} (h : Gives (inReach o) a) : o = some a := by
  cases o with
  | none => obtain ⟨s, s', h⟩ := h; cases h
  | some b => rw [h.pure]

theorem placedAt {span : Span} (h : Gives (placedAt span x) a) : x.Gives a := by
  obtain ⟨s, s', h⟩ := h
  refine ⟨s, s', ?_⟩
  unfold Coding.placedAt at h
  cases hx : x s with
  | ok r => rw [hx] at h; exact h
  | error e => rw [hx] at h; cases h

theorem statement {c : Coder} {span : Span} {marked : Bool} {x : Coding Code} {k : Code}
    (h : (c.statement span marked x).Gives k) :
    ∃ k0, x.Gives k0 ∧ k = if marked then .mark span :: k0 else k0 := by
  obtain ⟨_, -, h⟩ := h.placedAt.bind
  obtain ⟨k0, hx, h⟩ := h.bind
  exact ⟨k0, hx, h.pure.symm⟩

theorem jumpBack {k back : Code} (h : (Coder.jumpBack k).Gives back) :
    ∃ i, jumpBy? (-(size k : Int)) = some i ∧ back = plain [i] := by
  obtain ⟨i, hi, h⟩ := bind h
  exact ⟨i, hi.inReach, h.pure.symm⟩

end Coding.Gives

open Coding (Gives)

/-! ### Parts of the code as a whole -/

namespace Code

/-- The item stands at the address `p` of the code. -/
def Has (W : Code) (p : Nat) (item : Item) : Prop := ∃ pre post, W = pre ++ item :: post ∧ size pre = p

/-- A jump to the address `q` stands at the address `p`. -/
def Jumps (W : Code) (p q : Nat) : Prop :=
  ∃ d i, jumpBy? d = some i ∧ W.At p i ∧ (p : Int) + d = q

/-- A branch to the address `q` stands at the address `p`. -/
def Branches (W : Code) (op : Binary) (p q : Nat) : Prop :=
  ∃ d i, branchBy? op false d = some i ∧ W.At p i ∧ (p : Int) + d = q

/-- From the address `p` on, jumps lead to the address `q`. -/
inductive Leads (W : Code) : Nat → Nat → Prop
  | refl (p : Nat) : Leads W p p
  | jump (hj : W.Jumps p q) (h : Leads W q r) : Leads W p r

end Code

/-- Where the jumps out of a loop or switch go. -/
structure Target where
  next : Nat
  stop : Nat

def Target.of (t : Target) : LoopExit → Nat
  | .leave => t.stop
  | .again => t.next

/-- In the code as a whole the item stands at the address `p`, and instead of a
jump out of a construct that is listed a jump to where it goes. -/
def Item.Occurs (W : Code) (ts : List Target) (p : Nat) : Item → Prop
  | exit kind d => ∀ t, ts[d]? = some t → W.Jumps p (t.of kind)
  | item => W.Has p item

/-- In the code as a whole the items of the code stand from the address `p` on. -/
def Occurs (W : Code) (ts : List Target) (p : Nat) (k : Code) : Prop :=
  ∀ pre item post, k = pre ++ item :: post → item.Occurs W ts (p + size pre)

namespace Occurs

variable {W k k' : Code} {ts : List Target} {p : Nat}

theorem self (W : Code) : Occurs W [] 0 W := by
  intro pre item post hW
  rw [Nat.zero_add]
  cases item with
  | exit kind d => nofun
  | _ => exact ⟨pre, post, hW, rfl⟩

theorem left (h : Occurs W ts p (k ++ k')) : Occurs W ts p k := by
  intro pre item post hk
  exact h pre item (post ++ k') (by rw [hk, List.append_assoc, List.cons_append])

theorem right (h : Occurs W ts p (k ++ k')) : Occurs W ts (p + size k) k' := by
  intro pre item post hk
  rw [Nat.add_assoc, ← Code.size_append]
  exact h (k ++ pre) item post (by rw [hk, List.append_assoc])

theorem right_at (h : Occurs W ts p (k ++ k')) {q : Nat} (hq : q = p + size k) : Occurs W ts q k' :=
  hq ▸ h.right

theorem tail {item : Item} (h : Occurs W ts p (item :: k)) : Occurs W ts (p + item.size) k :=
  right (k := [item]) h

theorem instr {i : Instr} (h : Occurs W ts p (plain [i])) : W.At p i := h [] (.instr i) [] rfl

/-- Outside of all constructs. -/
theorem bare (h : Occurs W ts p k) : Occurs W [] p k := by
  intro pre item post hk
  have hitem := h pre item post hk
  cases item with
  | exit kind d => nofun
  | _ => exact hitem

/-- A part of a loop or switch as it was before its jumps were resolved. -/
theorem close {next : Nat} (hc : Code.closeLoop next (size k) 0 k = some k') (h : Occurs W ts p k') :
    Occurs W (⟨p + next, p + size k⟩ :: ts) p k := by
  intro pre item post hk
  generalize size k = stop at hc ⊢
  have hr := Code.closeLoop_rewrites hc
  rw [hk] at hr
  obtain ⟨pre', rest', hpre, hrest, rfl⟩ := hr.parts
  cases hrest with
  | @cons _ _ item' _ post' hitem _ _ =>
    have hitem' := h pre' item' post' rfl
    rw [hpre.size_eq] at hitem'
    cases hitem with
    | leave hj | again hj =>
      intro t ht
      obtain rfl := Option.some.inj ht
      exact ⟨_, _, hj, hitem', by simp only [Target.of]; omega⟩
    | outer => exact fun t ht => hitem' t (by simpa using ht)
    | other hne =>
      cases item with
      | exit kind d => exact absurd rfl (hne kind d)
      | _ => exact hitem'

/-- A loop as it was before its jumps were resolved, with a jump to its start behind it. -/
theorem loop {next : Nat} {front : Code}
    (hg : (Coder.jumpBack front >>= fun back => Coder.close next (front ++ back)).Gives k)
    (h : Occurs W ts p k) :
    size k = size front + 1 ∧ Occurs W (⟨p + next, p + size k⟩ :: ts) p front ∧ W.Jumps (p + size front) p := by
  obtain ⟨_, hback, hg⟩ := hg.bind
  obtain ⟨back, hjump, rfl⟩ := hback.jumpBack
  have hc := hg.inReach
  have ho := h.close hc
  have hsize := (Code.closeLoop_rewrites hc).size_eq
  rw [← hsize] at ho
  rw [Code.size_append, Code.size_jump hjump] at hsize
  exact ⟨hsize, ho.left, _, back, hjump, ho.right.instr, by omega⟩

/-- The code stands in an image that holds the code as a whole. -/
theorem stands {image : Array Word} {base : Nat} (h : Occurs W ts p k) (hW : W.Stands image base) :
    k.Stands image (base + p) := by
  intro pre item post hk
  have hitem := h pre item post hk
  rw [Nat.add_assoc]
  cases item with
  | exit kind d => trivial
  | _ =>
    obtain ⟨pre', post', hsplit, hsize⟩ := hitem
    rw [← hsize]
    exact hW pre' _ post' hsplit

/-- The code of a statement behind the mark of its place. -/
theorem statement {c : Coder} {span : Span} {marked : Bool} {x : Coding Code}
    (hg : (c.statement span marked x).Gives k) (h : Occurs W ts p k) :
    ∃ k0, x.Gives k0 ∧ Occurs W ts p k0 ∧ size k0 = size k := by
  obtain ⟨k0, hx, rfl⟩ := hg.statement
  refine ⟨k0, hx, ?_⟩
  cases marked with
  | false => exact ⟨h, rfl⟩
  | true => exact ⟨h.tail, (Nat.zero_add _).symm⟩

end Occurs

/-! ### Places -/

section Places

variable (c : Coder) (W : Code)

/-- A test stands at an address. It goes on at the second one if the condition
does not hold, else at the third; without a condition it goes on where it is. -/
inductive Tested : Option Expr → Nat → Nat → Nat → Prop
  | none : Tested none p stop p
  | some (hg : (e.code c .test).Gives k)
    (ho : Occurs W [] p k) (hb : W.Branches e.testOp (p + size k) stop) :
    Tested (some e) p stop (p + size k + 2)

/-- The step of a loop stands at the first address and ends at the second. -/
inductive Stepped : Option Expr → Nat → Nat → Prop
  | none : Stepped none p p
  | some (hg : (e.code c .effect).Gives k) (ho : Occurs W [] p k) : Stepped (some e) p (p + size k)

/-- The statements of a block stand from the first address on and end at the
second. The entries of a switch have no code. -/
inductive Laid (flows : List Flow) (ts : List Target) : List Stmt → Nat → Nat → Prop
  | nil : Laid flows ts [] p p
  | cons (hs : s.isStructured = true)
    (hg : (s.code c flows).Gives k) (ho : Occurs W ts p k) (hrest : Laid flows ts ss (p + size k) q) :
    Laid flows ts (s :: ss) p q
  | case {span : Span} (hrest : Laid flows ts ss p q) : Laid flows ts (.case span value :: ss) p q
  | default {span : Span} (hrest : Laid flows ts ss p q) : Laid flows ts (.default span :: ss) p q

/-- A loop with its test at the address `start`. It goes on at its step, or at
its test if it has none. -/
inductive LoopLaid (flows : List Flow) (ts : List Target) (label : Option String)
    (cond step : Option Expr) (body : List Stmt) (t : Target) (start : Nat) : Prop
  | intro (htest : Tested c W cond start t.stop p)
    (hbody : Laid c W (⟨label, false⟩ :: flows) (t :: ts) body p q) (hstep : Stepped c W step q r)
    (hback : W.Jumps r start) (hnext : t.next = q ∨ t.next = start ∧ step = none)

/-- A loop with its body at the address `start`, which goes on at the test behind
that. -/
inductive DoLaid (flows : List Flow) (ts : List Target) (label : Option String)
    (body : List Stmt) (cond : Expr) (t : Target) (start : Nat) : Prop
  | intro (hbody : Laid c W (⟨label, false⟩ :: flows) (t :: ts) body start t.next)
    (htest : Tested c W (some cond) t.next t.stop p) (hback : W.Jumps p start)

/-- Control is at an address, up to jumps, and the jumps out of the constructs
whose bodies are under way go where these go on. -/
inductive Placed : Control → List Target → Nat → Prop
  | done : Placed [] [] (size W)
  | ret (hexit : W.At p c.exit) : Placed [.ret] [] p
  | jump (hj : W.Jumps p q) (hK : Placed K ts q) : Placed K ts p
  | block (hss : Laid c W K.flows ts ss p q) (hK : Placed K ts q) : Placed (.block ss :: K) ts p
  | arms (hs : arms.isStructured = true) (hg : (Stmt.armsCode c K.flows arms).Gives k)
    (ho : Occurs W ts p k) (hK : Placed K ts (p + size k)) : Placed (.arms arms :: K) ts p
  | loopTest {cond : Option Expr}
    (hl : LoopLaid c W K.flows ts label cond step body t p) (hK : Placed K ts t.stop) :
    Placed (.loopTest label cond step body :: K) ts p
  | loopStep {cond : Option Expr}
    (hl : LoopLaid c W K.flows ts label cond step body t start) (hstep : Stepped c W step p q)
    (hback : W.Jumps q start) (hK : Placed K ts t.stop) :
    Placed (.loopStep label cond step body :: K) (t :: ts) p
  | doTest {cond : Expr} (hl : DoLaid c W K.flows ts label body cond t start)
    (hK : Placed K ts t.stop) : Placed (.doTest label body cond :: K) (t :: ts) t.next
  | switchEnd (hK : Placed K ts t.stop) : Placed (.switchEnd label :: K) (t :: ts) t.stop

/-- From the first address on, the value in the return slot is compared with
numbers until the second address is reached. -/
inductive Picks (v : Cell) : Nat → Nat → Prop
  | rest (h : W.Leads p q) : Picks v p q
  | hit (hl : W.At p (.load c.returnSlot)) (hn : W.At (p + 1) (.immediate v))
    (hb : W.Branches .ne (p + 1 + (Instr.immediate v).length) q) : Picks v p q
  | miss (hne : v ≠ n) (hl : W.At p (.load c.returnSlot)) (hn : W.At (p + 1) (.immediate n))
    (hb : W.Branches .ne (p + 1 + (Instr.immediate n).length) q)
    (h : Picks v (p + 1 + (Instr.immediate n).length + 2) r) : Picks v p r

/-- The code at an address makes the move and is where control goes on. -/
def Move.Lies (p : Nat) : Move → Prop
  | silent K => ∃ ts, Placed c W K ts p
  | turn K => ∃ ts q, W.Jumps p q ∧ Placed c W K ts q
  | perform piece K => ∃ ts q k, W.Leads p q ∧ piece.Coded c k ∧ Occurs W [] q k ∧
      Placed c W K ts (q + size k)
  | test e K => ∃ ts ts' q r stop, W.Leads p q ∧ Tested c W (some e) q stop r ∧
      Placed c W (K true) ts r ∧ Placed c W (K false) ts' stop
  | choose e K => ∃ q k, W.Leads p q ∧ (e.code c .value).Gives k ∧ Occurs W [] q k ∧
      W.At (q + size k) (.store c.returnSlot) ∧
      ∀ v, ∃ ts r, Picks c W v (q + size k + 1) r ∧ Placed c W (K v) ts r
  | done => W.Leads p (size W)
  | returned => ∃ q, W.Leads p q ∧ W.At q c.exit
  | astray => False

end Places

variable {c : Coder} {W : Code} {ts : List Target} {K : Control} {p q : Nat}

theorem Placed.leads (h : W.Leads p q) (hK : Placed c W K ts q) : Placed c W K ts p := by
  induction h with
  | refl => exact hK
  | jump hj _ ih => exact .jump hj (ih hK)

/-- A jump ahead of a move. -/
theorem Move.Lies.jump {move : Move} (hj : W.Jumps p q) (h : move.Lies c W q) : move.Lies c W p := by
  cases move with
  | silent K =>
    obtain ⟨ts, hK⟩ := h
    exact ⟨ts, .jump hj hK⟩
  | turn K =>
    obtain ⟨ts, r, hr, hK⟩ := h
    exact ⟨ts, q, hj, .jump hr hK⟩
  | perform piece K =>
    obtain ⟨ts, r, k, hr, h⟩ := h
    exact ⟨ts, r, k, .jump hj hr, h⟩
  | test e K =>
    obtain ⟨ts, ts', r, s, stop, hr, h⟩ := h
    exact ⟨ts, ts', r, s, stop, .jump hj hr, h⟩
  | choose e K =>
    obtain ⟨r, k, hr, h⟩ := h
    exact ⟨r, k, .jump hj hr, h⟩
  | done => exact Code.Leads.jump hj h
  | returned =>
    obtain ⟨r, hr, h⟩ := h
    exact ⟨r, .jump hj hr, h⟩
  | astray => exact h

/-! ### Jumps out of loops -/

variable {kind : LoopExit} {label : Option String}

/-- A jump finds what it means, and it means no switch to go on. -/
theorem Flow.depth_eq_ok {flows : List Flow} {span : Span} {d : Nat}
    (h : Flow.depth flows kind label span = .ok d) :
    flows.findIdx? (Flow.matches? kind label) = some d ∧
      (kind = .again → ∀ flow, flows[d]? = some flow → flow.isSwitch = false) := by
  unfold Flow.depth at h
  split at h
  · rename_i hd
    cases h
    refine ⟨hd, ?_⟩
    rintro rfl flow hflow
    obtain ⟨hlt, hmatch, -⟩ := List.findIdx?_eq_some_iff_getElem.mp hd
    rw [List.getElem?_eq_getElem hlt] at hflow
    cases hflow
    simpa [Flow.matches?] using hmatch
  · rename_i hd
    split at h
    · cases h
    · rename_i hkind
      cases h
      refine ⟨hd, ?_⟩
      rintro rfl flow hflow
      simpa [hflow] using hkind
  · cases h
  · cases h

theorem Pending.isMeant_eq (kind : LoopExit) (label : Option String) (f : Pending) :
    f.isMeant kind label = f.flow?.any (Flow.matches? kind label) := by
  unfold Pending.isMeant
  cases f.flow? <;> cases label <;> rfl

/-- A jump means the innermost construct or one further out. -/
theorem Control.exit_cons {f : Pending} {flow : Flow} {d : Nat} (hf : f.flow? = some flow)
    (hd : (Control.flows (f :: K)).findIdx? (Flow.matches? kind label) = some d)
    (hagain : kind = .again → ∀ flow, (Control.flows (f :: K))[d]? = some flow → flow.isSwitch = false) :
    (d = 0 ∧ (kind = .leave ∧ Control.exit kind label (f :: K) = some K ∨
      kind = .again ∧ flow.isSwitch = false ∧ Control.exit kind label (f :: K) = some (f :: K))) ∨
    ∃ d', d = d' + 1 ∧ K.flows.findIdx? (Flow.matches? kind label) = some d' ∧
      (kind = .again → ∀ flow, K.flows[d']? = some flow → flow.isSwitch = false) ∧
      Control.exit kind label (f :: K) = Control.exit kind label K := by
  have hflows : Control.flows (f :: K) = flow :: K.flows := List.filterMap_cons_some hf
  rw [hflows, List.findIdx?_cons] at hd
  rw [hflows] at hagain
  have hmeant : f.isMeant kind label = flow.matches? kind label := by
    rw [Pending.isMeant_eq, hf, Option.any_some]
  split at hd
  · rename_i hmatch
    cases hd
    refine .inl ⟨rfl, ?_⟩
    cases kind with
    | leave => exact .inl ⟨rfl, by rw [Control.exit, if_pos (hmeant.trans hmatch)]⟩
    | again =>
      have hloop := hagain rfl flow rfl
      exact .inr ⟨rfl, hloop, by simp [Control.exit, hmeant.trans hmatch, hf, hloop]⟩
  · rename_i hmatch
    obtain ⟨d', hd', rfl⟩ := Option.map_eq_some_iff.mp hd
    refine .inr ⟨d', rfl, hd', fun hkind flow hflow => hagain hkind flow (by simpa using hflow), ?_⟩
    exact if_neg (by rwa [hmeant])

/-- A jump goes where what it means goes on. -/
theorem Placed.exit {d : Nat} (h : Placed c W K ts p)
    (hd : K.flows.findIdx? (Flow.matches? kind label) = some d)
    (hagain : kind = .again → ∀ flow, K.flows[d]? = some flow → flow.isSwitch = false) :
    ∃ t, ts[d]? = some t ∧ ∀ r, W.Jumps r (t.of kind) →
      ∃ K' ts', K.exit kind label = some K' ∧ Placed c W K' ts' r := by
  induction h generalizing d with
  | done => cases hd
  | ret _ => cases hd
  | jump _ _ ih => exact ih hd hagain
  | block _ _ ih => exact ih hd hagain
  | arms _ _ _ _ ih => exact ih hd hagain
  | loopTest _ _ ih => exact ih hd hagain
  | @loopStep ts label step body t start p q K cond hl hstep hback hK ih =>
    rcases Control.exit_cons rfl hd hagain with
      ⟨rfl, ⟨rfl, hexit⟩ | ⟨rfl, -, hexit⟩⟩ | ⟨d', rfl, hd', hagain', hexit⟩
    · exact ⟨t, rfl, fun r hr => ⟨K, ts, hexit, .jump hr hK⟩⟩
    · refine ⟨t, rfl, fun r hr => ⟨_, t :: ts, hexit, ?_⟩⟩
      cases hl with
      | intro htest hbody hstep' hback' hnext =>
        have hl := LoopLaid.intro htest hbody hstep' hback' hnext
        rcases hnext with hnext | ⟨hnext, rfl⟩
        · exact .jump (hnext ▸ hr) (.loopStep hl hstep' hback' hK)
        · -- the jump is the one that goes back to the test
          exact .loopStep hl .none (hnext ▸ hr) hK
    · rw [hexit]
      exact ih hd' hagain'
  | @doTest ts label body t start K cond hl hK ih =>
    rcases Control.exit_cons rfl hd hagain with
      ⟨rfl, ⟨rfl, hexit⟩ | ⟨rfl, -, hexit⟩⟩ | ⟨d', rfl, hd', hagain', hexit⟩
    · exact ⟨t, rfl, fun r hr => ⟨K, ts, hexit, .jump hr hK⟩⟩
    · exact ⟨t, rfl, fun r hr => ⟨_, t :: ts, hexit, .jump hr (.doTest hl hK)⟩⟩
    · rw [hexit]
      exact ih hd' hagain'
  | @switchEnd K ts label t hK ih =>
    rcases Control.exit_cons rfl hd hagain with
      ⟨rfl, ⟨rfl, hexit⟩ | ⟨rfl, hloop, -⟩⟩ | ⟨d', rfl, hd', hagain', hexit⟩
    · exact ⟨t, rfl, fun r hr => ⟨K, ts, hexit, .jump hr hK⟩⟩
    · cases hloop
    · rw [hexit]
      exact ih hd' hagain'

end RobotScript
