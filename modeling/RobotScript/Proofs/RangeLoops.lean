/-
# Range loops

A range loop counts its variable up or down by a step that is not zero. It
compares the variable with the last value before each round, so the body runs for
the values from the first one on that are not beyond the last one, in order. The
sum of variable and step is cut to a word: the loop comes to its end only if the
value behind those of the range is a word, too.

Key definitions: `rangeCount`, `rangeValues`, `RangeLaid`, `BodyRuns`.
Key theorems: `lt_rangeCount_iff`, `RangeLaid.of_code`, `RangeLaid.rounds`,
`range_loop_visits`.
-/
import RobotScript.Proofs.ControlFlow

namespace RobotScript

open Machine (Instr Binary State)
open Code (plain size)
open Coding (Gives)

/-! ### Values of a range -/

/-- The value is not beyond the last one, counted in steps of `s`. -/
def NotBeyond (last s v : Int) : Prop := if 0 < s then v ≤ last else last ≤ v

/-- How many values a range has. -/
def rangeCount (first last s : Int) : Nat :=
  if 0 < s then ((last - first) / s + 1).toNat else ((first - last) / -s + 1).toNat

theorem lt_rangeCount_iff {first last s : Int} (hs : s ≠ 0) (i : Nat) :
    i < rangeCount first last s ↔ NotBeyond last s (first + i * s) := by
  unfold rangeCount NotBeyond
  split
  · rename_i hpos
    have hle : (i : Int) ≤ (last - first) / s ↔ i * s ≤ last - first := Int.le_ediv_iff_mul_le hpos
    omega
  · have hpos : 0 < -s := by omega
    have hle : (i : Int) ≤ (first - last) / -s ↔ i * -s ≤ first - last := Int.le_ediv_iff_mul_le hpos
    rw [Int.mul_neg] at hle
    omega

/-- The value number `i`, counted from zero. -/
def rangeValue (first s : Cell) (i : Nat) : Cell := Int16.ofInt (first.toInt + i * s.toInt)

/-- The values of a range in order. -/
def rangeValues (first last s : Cell) : List Cell :=
  (List.range (rangeCount first.toInt last.toInt s.toInt)).map (rangeValue first s)

theorem rangeValue_zero (first s : Cell) : rangeValue first s 0 = first := by
  simp [rangeValue]

theorem rangeValue_succ (first s : Cell) (i : Nat) : rangeValue first s (i + 1) = rangeValue first s i + s := by
  have hsum : first.toInt + (i + 1 : Nat) * s.toInt = first.toInt + i * s.toInt + s.toInt := by
    push_cast
    rw [Int.add_mul]
    omega
  rw [rangeValue, hsum, Int16.ofInt_add, Int16.ofInt_toInt]
  rfl

/-! ### The code of a range loop -/

/-- The comparison that a range loop goes on by. -/
def rangeTest (s : Cell) : Binary := if 0 ≤ s then .le else .ge

/-- Where the parts of a loop over the range from `a` to `b` in steps of `s` lie in
its code: the test at `p`, the body of `n` words at `q` and the step behind it. The
variable is at the address `x`. -/
structure RangeLaid (W : Code) (x : Nat) (a b s : Cell) (p q n : Nat) : Prop where
  fits : x < 4096
  first : W.At 0 (.immediate a)
  start : W.At (Instr.immediate a).length (.store (UInt16.ofNat x))
  head : p = (Instr.immediate a).length + 1
  count : W.At p (.load (UInt16.ofNat x))
  last : W.At (p + 1) (.immediate b)
  test : W.Branches (rangeTest s) (p + 1 + (Instr.immediate b).length) (size W)
  body : q = p + 1 + (Instr.immediate b).length + 2
  old : W.At (q + n) (.load (UInt16.ofNat x))
  step : W.At (q + n + 1) (.immediate s)
  add : W.At (q + n + 1 + (Instr.immediate s).length) (.binary .add)
  store : W.At (q + n + 1 + (Instr.immediate s).length + 1) (.store (UInt16.ofNat x))
  back : W.Jumps (q + n + 1 + (Instr.immediate s).length + 1 + 1) p

theorem Coding.Gives.address {c : Coder} {addr : Nat} {w : Word} (h : (c.address addr).Gives w) :
    w = UInt16.ofNat addr ∧ addr < 4096 ∧ addr < c.node.maxVarSize := by
  obtain ⟨s, s', h⟩ := h
  unfold Coder.address at h
  split at h
  · cases h
  · rename_i hfits
    cases h
    exact ⟨rfl, by omega, by omega⟩

section Access

variable {c : Coder} {st : Storage} {k : Code}

theorem Coding.Gives.load_known (hmode : st.mode = .absolute) (h : (Place.load c ⟨st, .known 0⟩).Gives k) :
    k = plain [.load (UInt16.ofNat st.offset)] ∧ st.offset < 4096 ∧ st.offset < c.node.maxVarSize := by
  obtain ⟨access, haccess, h⟩ := Gives.bind h
  unfold Place.access at haccess
  rw [hmode] at haccess
  obtain ⟨w, hw, haccess⟩ := Gives.bind haccess
  obtain ⟨rfl, hfits⟩ := hw.address
  obtain rfl := haccess.pure
  exact ⟨h.pure.symm, hfits⟩

theorem Coding.Gives.store_known (hmode : st.mode = .absolute) (h : (Place.store c ⟨st, .known 0⟩).Gives k) :
    k = plain [.store (UInt16.ofNat st.offset)] := by
  obtain ⟨access, haccess, h⟩ := Gives.bind h
  unfold Place.access at haccess
  rw [hmode] at haccess
  obtain ⟨w, hw, haccess⟩ := Gives.bind haccess
  obtain ⟨rfl, -⟩ := hw.address
  obtain rfl := haccess.pure
  exact h.pure.symm

end Access

theorem Coding.Gives.number {c : Coder} {e : Expr} {n : Cell} {k : Code} (hn : e.number? = some n)
    (h : (e.code c .value).Gives k) : k = plain [.immediate n] := by
  cases e <;> cases hn
  unfold Expr.code at h
  exact h.pure.symm

/-- The parts of a loop that goes on at the step behind its body. -/
theorem Occurs.stepLoop {W test body step k : Code} {op : Binary} {ts : List Target} {p : Nat}
    (hg : (Coder.stepLoop test (some op) body step).Gives k) (ho : Occurs W ts p k) :
    ∃ q ts', q = p + size test + 2 ∧ Occurs W ts' p test ∧ W.Branches op (p + size test) (p + size k) ∧
      Occurs W ts' q body ∧ Occurs W ts' (q + size body) step ∧ W.Jumps (q + size body + size step) p := by
  obtain ⟨_, htest, hg⟩ := Gives.bind hg
  obtain ⟨br, hbr, htest⟩ := Gives.bind htest
  obtain rfl := htest.pure
  obtain ⟨hsize, ho, hback⟩ := ho.loop hg
  have hbranch := Code.size_branch hbr.inReach
  simp only [Code.size_append, hbranch, ← Nat.add_assoc] at hsize hback
  refine ⟨_, _, rfl, ho.left.left.left, ⟨_, br, hbr.inReach, ho.left.left.right.instr, ?_⟩,
    ho.left.right_at ?_, ho.right_at ?_, hback⟩
  -- the branch goes behind the jump back
  · omega
  · simp only [Code.size_append, hbranch, Nat.add_assoc]
  · simp only [Code.size_append, hbranch, Nat.add_assoc]

/-- The code of a range loop with numbers for its bounds. -/
theorem RangeLaid.of_code {c : Coder} {flows : List Flow} {span : Span} {tag : Option String} {info : Info}
    {name : String} {st : Storage} {e1 e2 : Expr} {step : Option Expr} {body : List Stmt} {W : Code}
    {a b : Cell} (hmode : st.mode = .absolute) (ha : e1.number? = some a) (hb : e2.number? = some b)
    (hg : ((Stmt.rangeFor span tag (.var info ⟨name, some st⟩) e1 e2 step body).code c flows).Gives W) :
    st.offset < c.node.maxVarSize ∧ ∃ kb p q ts, (Stmt.blockCode c (⟨tag, false⟩ :: flows) body).Gives kb ∧
      Occurs W ts q kb ∧ RangeLaid W st.offset a b ((step.bind Expr.number?).getD 1) p q (size kb) := by
  unfold Stmt.code at hg
  obtain ⟨k, hg, ho, hsize⟩ := Occurs.statement hg (.self W)
  obtain ⟨⟨setup, counter⟩, hplace, hg⟩ := Gives.bind hg
  unfold Expr.placeOf at hplace
  obtain ⟨st', hst, hplace⟩ := Gives.bind hplace
  obtain rfl : st = st' := Except.ok.inj hst.lift
  obtain ⟨rfl, rfl⟩ := Prod.mk.inj hplace.pure
  obtain ⟨_, hk1, hg⟩ := Gives.bind hg
  obtain rfl := hk1.number ha
  obtain ⟨_, hk2, hg⟩ := hg.bind
  obtain rfl := hk2.store_known hmode
  obtain ⟨_, hk3, hg⟩ := hg.bind
  obtain ⟨rfl, hfits, hinside⟩ := hk3.load_known hmode
  obtain ⟨_, hk4, hg⟩ := hg.bind
  obtain rfl := hk4.number hb
  obtain ⟨kb, hkb, hg⟩ := hg.bind
  obtain ⟨_, hk6, hg⟩ := hg.bind
  obtain ⟨rfl, -⟩ := hk6.load_known hmode
  obtain ⟨_, hk7, hg⟩ := hg.bind
  obtain rfl := hk7.store_known hmode
  obtain ⟨loop, hloop, hg⟩ := hg.bind
  obtain rfl := hg.pure
  obtain ⟨q, ts, hq, htest, hbranch, hbody, hstep, hback⟩ := Occurs.stepLoop hloop ho.right
  have hp : 0 + size ([] ++ plain [Instr.immediate a] ++ plain [.store (UInt16.ofNat st.offset)]) =
      (Instr.immediate a).length + 1 := Nat.zero_add _
  rw [hp] at hq htest hbranch hback
  have hend : (Instr.immediate a).length + 1 + size loop = size W := by
    rw [← hsize, Code.size_append, ← hp, Nat.zero_add]
  rw [hend] at hbranch
  have hlast (n : Cell) : size (plain [Instr.load (UInt16.ofNat st.offset)] ++ plain [.immediate n]) =
      1 + (Instr.immediate n).length := rfl
  refine ⟨hinside, kb, (Instr.immediate a).length + 1, q, ts, hkb, hbody, ?_⟩
  rw [hlast, ← Nat.add_assoc] at hq hbranch
  generalize (step.bind Expr.number?).getD 1 = n at hstep hback hbranch
  have hsum : Occurs W ts (q + size kb + 1) (plain [.immediate n] ++ plain [.binary .add]) := hstep.left.right
  have hsize' : size (plain [Instr.load (UInt16.ofNat st.offset)] ++ plain [.immediate n, .binary .add]) =
      1 + ((Instr.immediate n).length + 1) := rfl
  have hbehind : q + size kb + (1 + ((Instr.immediate n).length + 1) + 1) =
      q + size kb + 1 + (Instr.immediate n).length + 1 + 1 := by omega
  rw [Code.size_append, hsize', show size (plain [Instr.store (UInt16.ofNat st.offset)]) = 1 from rfl,
    hbehind] at hback
  exact {
    fits := hfits
    first := ho.left.left.right.instr
    start := (ho.left.right_at (Nat.zero_add _).symm).instr
    head := rfl
    count := htest.left.instr
    last := htest.right.instr
    test := hbranch
    body := hq
    old := hstep.left.left.instr
    step := hsum.left.instr
    add := hsum.right.instr
    store := (hstep.right_at (by rw [hsize']; omega)).instr
    back := hback }

/-! ### Rounds -/

/-- The outcome of the comparison that a range loop goes on by. -/
theorem evalCell_rangeTest {s : Cell} (hs : s ≠ 0) (v b : Cell) : ∃ w, (rangeTest s).evalCell v b = some w ∧
    (w = 0 ↔ ¬ NotBeyond b.toInt s.toInt v.toInt) := by
  have htruth (t : Bool) : toCell (Binary.truth t) = 0 ↔ t = false := by
    cases t <;> decide
  have hne : s.toInt ≠ 0 := fun h => hs (Int16.toInt_inj.mp h)
  unfold rangeTest NotBeyond
  by_cases hpos : 0 ≤ s
  · have hpos' : 0 < s.toInt := by
      have := Int16.le_iff_toInt_le.mp hpos
      rw [Int16.toInt_zero] at this
      omega
    rw [if_pos hpos, if_pos hpos']
    refine ⟨_, rfl, ?_⟩
    rw [htruth, decide_eq_false_iff_not, Int32.le_iff_toInt_le, Int16.toInt_toInt32, Int16.toInt_toInt32]
  · have hneg : ¬ 0 < s.toInt := by
      intro h
      exact hpos (Int16.le_iff_toInt_le.mpr (by rw [Int16.toInt_zero]; omega))
    rw [if_neg hpos, if_neg hneg]
    refine ⟨_, rfl, ?_⟩
    rw [htruth, decide_eq_false_iff_not, Int32.le_iff_toInt_le, Int16.toInt_toInt32, Int16.toInt_toInt32]

namespace RangeLaid

variable {node : Node} {W : Code} {x : Nat} {a b s v : Cell} {p q n base : Nat} {m : State}

theorem operand (h : RangeLaid W x a b s p q n) : (UInt16.ofNat x).toNat % 4096 = x :=
  Machine.operand_eq h.fits

/-- The loop sets its variable to the first value. -/
theorem begins (h : RangeLaid W x a b s p q n) (hW : W.Stands m.image base) (hpc : m.pc = base)
    (hx : x < m.memory.size) (hroom : m.stack.length < Machine.stackSize) :
    Steps node m { m.setWord x a with pc := base + p } := by
  refine .head (hW.step_immediate h.first hpc hroom) ?_
  refine .head (Code.Stands.step_store hW h.start rfl rfl ?_) ?_
  · rw [h.operand]
    exact hx
  · rw [h.operand, h.head]
    exact .refl _

/-- The test leads to the body if the value is not beyond the last one, else out
of the loop. -/
theorem tests (h : RangeLaid W x a b s p q n) (hs : s ≠ 0) (hW : W.Stands m.image base)
    (hpc : m.pc = base + p) (hv : m.memory[x]? = some v) (hroom : m.stack.length + 2 ≤ Machine.stackSize) :
    (NotBeyond b.toInt s.toInt v.toInt → Steps node m { m with pc := base + q }) ∧
    (¬ NotBeyond b.toInt s.toInt v.toInt → Steps node m { m with pc := base + size W }) := by
  obtain ⟨w, hw, hzero⟩ := evalCell_rangeTest hs v b
  have hcompared : Steps node m { m with pc := base + if w = 0 then size W else q } := by
    refine .head (hW.step_load h.count hpc (by rw [h.operand]; exact hv) (by omega)) ?_
    refine .head (Code.Stands.step_immediate hW h.last rfl (by rw [List.length_cons]; omega)) ?_
    rw [h.body]
    exact .head (h.test.step hW (Nat.add_assoc ..) rfl hw) (.refl _)
  refine ⟨fun hin => ?_, fun hout => ?_⟩
  · rwa [if_neg (fun h => hzero.mp h hin)] at hcompared
  · rwa [if_pos (hzero.mpr hout)] at hcompared

/-- Behind the body the step is added to the variable. -/
theorem advances (h : RangeLaid W x a b s p q n) (hW : W.Stands m.image base) (hpc : m.pc = base + (q + n))
    (hv : m.memory[x]? = some v) (hroom : m.stack.length + 2 ≤ Machine.stackSize) :
    Steps node m { m.setWord x (v + s) with pc := base + p } := by
  refine .head (hW.step_load h.old hpc (by rw [h.operand]; exact hv) (by omega)) ?_
  refine .head (Code.Stands.step_immediate hW h.step rfl (by rw [List.length_cons]; omega)) ?_
  refine .head (Code.Stands.step_add hW h.add (Nat.add_assoc ..) rfl (by omega)) ?_
  have hx : x < m.memory.size := (Array.getElem?_eq_some_iff.mp hv).1
  refine .head (Code.Stands.step_store hW h.store (Nat.add_assoc ..) rfl (by rw [h.operand]; exact hx)) ?_
  rw [h.operand]
  exact .head (h.back.step hW (Nat.add_assoc ..)) (.refl _)

end RangeLaid

/-! ### The loop as a whole -/

/-- The machine has the stack given and a memory of the size given, and its image
holds the code. -/
structure Machine.State.Holds (W : Code) (base size : Nat) (stack : List Cell) (m : State) : Prop where
  code : W.Stands m.image base
  memory : m.memory.size = size
  stack : m.stack = stack

/-- From every state in which the variable has one of the values, the body comes to
its end, in the state that `effect` tells, and leaves the variable as it was. -/
def BodyRuns (node : Node) (W : Code) (base x q n : Nat) (stack values : List Cell)
    (effect : State → State) : Prop :=
  ∀ (m : State) (v : Cell), m.Holds W base node.maxVarSize stack → m.pc = base + q →
    m.memory[x]? = some v → v ∈ values →
    Steps node m (effect m) ∧ (effect m).Holds W base node.maxVarSize stack ∧
      (effect m).pc = base + q + n ∧ (effect m).memory[x]? = some v

/-- The state behind the body if that is run from the address given with the value
in the variable. -/
def roundOf (x start : Nat) (effect : State → State) (m : State) (v : Cell) : State :=
  effect { m.setWord x v with pc := start }

namespace RangeLaid

variable {node : Node} {W : Code} {x : Nat} {a b s : Cell} {p q n base : Nat} {effect : State → State}
  {stack : List Cell}

/-- From the test for the value number `i` on, the body runs for the values from
this one on, and the loop is left. -/
theorem rounds (h : RangeLaid W x a b s p q n) (hs : s ≠ 0)
    (hbody : BodyRuns node W base x q n stack (rangeValues a b s) effect) (hx : x < node.maxVarSize)
    (hroom : stack.length + 2 ≤ Machine.stackSize)
    (hword : ∀ i ≤ rangeCount a.toInt b.toInt s.toInt, (rangeValue a s i).toInt = a.toInt + i * s.toInt) :
    ∀ (k i : Nat), i + k = rangeCount a.toInt b.toInt s.toInt → ∀ m : State,
      m.Holds W base node.maxVarSize stack →
      Steps node { m.setWord x (rangeValue a s i) with pc := base + p }
        { (((List.range' i k).map (rangeValue a s)).foldl (roundOf x (base + q) effect) m).setWord x
            (rangeValue a s (i + k)) with pc := base + size W }
  | k, i, hi, m, hm => by
    have hne : s.toInt ≠ 0 := fun h => hs (Int16.toInt_inj.mp h)
    have hv : (m.setWord x (rangeValue a s i)).memory[x]? = some (rangeValue a s i) :=
      Array.getElem?_setIfInBounds_self_of_lt (hm.memory ▸ hx)
    have hroom' : m.stack.length + 2 ≤ Machine.stackSize := by rw [hm.stack]; exact hroom
    obtain ⟨hin, hout⟩ : (_ → Steps node _ _) ∧ (_ → Steps node _ _) :=
      h.tests (m := { m.setWord x (rangeValue a s i) with pc := base + p }) hs hm.code rfl hv hroom'
    rw [hword i (by omega), ← lt_rangeCount_iff hne] at hin hout
    cases k with
    | zero => exact hout (by omega)
    | succ k =>
      have hvalue : rangeValue a s i ∈ rangeValues a b s :=
        List.mem_map_of_mem (List.mem_range.mpr (by omega))
      obtain ⟨hsteps, hm', hpc, hv'⟩ := hbody { m.setWord x (rangeValue a s i) with pc := base + q }
        (rangeValue a s i) ⟨hm.code, Array.size_setIfInBounds.trans hm.memory, hm.stack⟩ rfl hv hvalue
      have hnext : Steps node _ _ := h.advances hm'.code (hpc.trans (Nat.add_assoc ..)) hv'
        (by rw [hm'.stack]; exact hroom)
      rw [← rangeValue_succ] at hnext
      have hrest := rounds h hs hbody hx hroom hword k (i + 1) (by omega) _ hm'
      rw [Nat.add_right_comm i 1 k] at hrest
      exact (hin (by omega)).trans (hsteps.trans (hnext.trans hrest))

end RangeLaid

/-- The values are numbers of the range if the one behind them is a word. -/
theorem toInt_rangeValue {a s : Cell} {n i : Nat} (hlo : -32768 ≤ a.toInt + n * s.toInt)
    (hhi : a.toInt + n * s.toInt ≤ 32767) (hi : i ≤ n) :
    (rangeValue a s i).toInt = a.toInt + i * s.toInt := by
  have ha : -32768 ≤ a.toInt := a.le_toInt
  have ha' : a.toInt ≤ 32767 := a.toInt_le
  -- the value lies between the first one and the one behind the range
  have hbetween : -32768 ≤ a.toInt + i * s.toInt ∧ a.toInt + i * s.toInt ≤ 32767 := by
    rcases Int.le_total 0 s.toInt with hs | hs
    · have hlower : 0 ≤ i * s.toInt := Int.mul_nonneg (Int.natCast_nonneg i) hs
      have hupper : i * s.toInt ≤ n * s.toInt := Int.mul_le_mul_of_nonneg_right (Int.ofNat_le.mpr hi) hs
      omega
    · have hupper : i * s.toInt ≤ 0 := Int.mul_nonpos_of_nonneg_of_nonpos (Int.natCast_nonneg i) hs
      have hlower : n * s.toInt ≤ i * s.toInt := Int.mul_le_mul_of_nonpos_right (Int.ofNat_le.mpr hi) hs
      omega
  exact Int16.toInt_ofInt_of_le hbetween.1 (Int.lt_of_le_sub_one hbetween.2)

/-- A range loop over a variable of the module runs its body for the values from
the first one on that are not beyond the last one, in order, and is left, if the
value behind these is a word. -/
theorem range_loop_visits {c : Coder} {flows : List Flow} {span : Span} {tag : Option String} {info : Info}
    {name : String} {st : Storage} {e₁ e₂ : Expr} {step : Option Expr} {body : List Stmt} {W : Code}
    {a b s : Cell} (hmode : st.mode = .absolute) (ha : e₁.number? = some a) (hb : e₂.number? = some b)
    (hstep : (step.bind Expr.number?).getD 1 = s) (hs : s ≠ 0)
    (hcode : ((Stmt.rangeFor span tag (.var info ⟨name, some st⟩) e₁ e₂ step body).code c flows).Gives W)
    {n : Nat} (hn : ∀ i : Nat, i < n ↔ NotBeyond b.toInt s.toInt (a.toInt + i * s.toInt))
    (hlo : -32768 ≤ a.toInt + n * s.toInt) (hhi : a.toInt + n * s.toInt ≤ 32767) :
    (rangeValues a b s).map Int16.toInt = (List.range n).map (fun i : Nat => a.toInt + i * s.toInt) ∧
    ∃ kb q ts, (Stmt.blockCode c (⟨tag, false⟩ :: flows) body).Gives kb ∧ Occurs W ts q kb ∧
      ∀ (base : Nat) (m : State) (effect : State → State),
        m.Holds W base c.node.maxVarSize m.stack → m.pc = base → m.stack.length + 2 ≤ Machine.stackSize →
        BodyRuns c.node W base st.offset q (size kb) m.stack (rangeValues a b s) effect →
        Steps c.node m
          { ((rangeValues a b s).foldl (roundOf st.offset (base + q) effect) m).setWord st.offset
              (rangeValue a s n) with pc := base + size W } := by
  have hne : s.toInt ≠ 0 := fun h => hs (Int16.toInt_inj.mp h)
  obtain rfl : rangeCount a.toInt b.toInt s.toInt = n := by
    refine Nat.le_antisymm (Nat.le_of_not_lt fun hlt => ?_) (Nat.le_of_not_lt fun hlt => ?_)
    · exact absurd ((hn n).mpr ((lt_rangeCount_iff hne n).mp hlt)) (Nat.lt_irrefl n)
    · exact absurd ((lt_rangeCount_iff hne _).mpr ((hn _).mp hlt)) (Nat.lt_irrefl _)
  have hword (i : Nat) (hi : i ≤ rangeCount a.toInt b.toInt s.toInt) := toInt_rangeValue hlo hhi hi
  refine ⟨?_, ?_⟩
  · rw [rangeValues, List.map_map]
    exact List.map_congr_left fun i hi => hword i (Nat.le_of_lt (List.mem_range.mp hi))
  subst hstep
  obtain ⟨hx, kb, p, q, ts, hkb, hbody, hlaid⟩ := RangeLaid.of_code hmode ha hb hcode
  refine ⟨kb, q, ts, hkb, hbody, fun base m effect hm hpc hroom hruns => ?_⟩
  have hbegins : Steps c.node m _ := hlaid.begins hm.code hpc (hm.memory ▸ hx) (by omega)
  have hrounds := hlaid.rounds hs hruns hx hroom hword _ 0 (Nat.zero_add _) m hm
  rw [rangeValue_zero, Nat.zero_add, ← List.range_eq_range'] at hrounds
  exact hbegins.trans hrounds

/-- What copying a word to another one does. -/
def copyWord (x y : Nat) (m : State) : State := { m.setWord y (m.word x) with pc := m.pc + 2 }

theorem BodyRuns.copy {node : Node} {W : Code} {base x y q : Nat} {ts : List Target} {stack values : List Cell}
    (hbody : Occurs W ts q (plain [.load (UInt16.ofNat x), .store (UInt16.ofNat y)])) (hne : y ≠ x)
    (hx : x < 4096) (hy : y < 4096) (hmemory : y < node.maxVarSize)
    (hroom : stack.length < Machine.stackSize) :
    BodyRuns node W base x q 2 stack values (copyWord x y) := by
  intro m v hm hpc hv _
  have hword : m.word x = v := by rw [State.word, Array.getD_eq_getD_getElem?, hv, Option.getD_some]
  have hbody' : Occurs W ts q (plain [.load (UInt16.ofNat x)] ++ plain [.store (UInt16.ofNat y)]) := hbody
  refine ⟨?_, ⟨hm.code, Array.size_setIfInBounds.trans hm.memory, hm.stack⟩, ?_, ?_⟩
  · refine .head (hm.code.step_load hbody'.left.instr hpc (by rw [Machine.operand_eq hx]; exact hv)
      (by rw [hm.stack]; exact hroom)) ?_
    refine .head (Code.Stands.step_store hm.code hbody'.right.instr rfl rfl
      (by rw [Machine.operand_eq hy]; exact hm.memory ▸ hmemory)) ?_
    rw [Machine.operand_eq hy, copyWord, hword, hpc]
    exact .refl _
  · show m.pc + 2 = _
    rw [hpc]
  · rw [← hv]
    exact Array.getElem?_setIfInBounds_ne hne

/-- A loop that counts down and copies each value of its variable. -/
theorem range_loop_visits_down :
    ∃ (c : Coder) (loop : Stmt) (W : Code) (m m' : State), (loop.code c []).Gives W ∧
      W.Stands m.image m.pc ∧ rangeValues 5 (-7) (-3) = [5, 2, -1, -4, -7] ∧ Steps c.node m m' ∧
      m'.pc = m.pc + size W ∧ m.memory = #[0, 0, 0] ∧ m'.memory = #[-10, -7, 0] := by
  let c : Coder := ⟨⟨"", 3, [], [], []⟩, ⟨.simple, 1, []⟩, 2, none, .stop⟩
  let i : Expr := .var default ⟨"i", some ⟨0, [], .int, .absolute⟩⟩
  let n : Expr := .var default ⟨"n", some ⟨1, [], .int, .absolute⟩⟩
  let body : List Stmt := [.expr default (.op default .assign [n, i])]
  let loop : Stmt := .rangeFor default none i (.number default 5) (.number default (-7))
    (some (.number default (-3))) body
  have hsome : ((loop.code c []) ⟨1, default⟩).toOption.isSome = true := by decide +kernel
  obtain ⟨⟨W, s'⟩, hrun⟩ := Option.isSome_iff_exists.mp hsome
  have hcode : (loop.code c []).Gives W := ⟨_, s', eq_ok_of_toOption hrun⟩
  have hcount (k : Nat) : k < 5 ↔ NotBeyond (-7) (-3) (5 + k * -3) := by
    rw [NotBeyond, if_neg (by decide)]
    omega
  obtain ⟨-, kb, q, ts, ⟨t, t', hkb⟩, hbody, hvisits⟩ :=
    range_loop_visits (s := -3) rfl rfl rfl rfl (by decide) hcode hcount (by decide) (by decide)
  obtain rfl : [.mark default] ++ plain [.load 0, .store 1] = kb := congrArg Prod.fst (Except.ok.inj hkb)
  have hvalues : rangeValues 5 (-7) (-3) = [5, 2, -1, -4, -7] := by decide +kernel
  have hlast : rangeValue 5 (-3) 5 = -10 := by decide +kernel
  have hruns {values : List Cell} : BodyRuns c.node W 0 0 q 2 [] values (copyWord 0 1) :=
    .copy hbody.tail (by decide) (by decide) (by decide) (by decide) (by decide)
  have hsteps := hvisits 0 (.start c.node W.words) (copyWord 0 1) ⟨W.stands_words, rfl, rfl⟩ rfl
    (Nat.le_of_ble_eq_true rfl) hruns
  have hround {m : State} {x y : Cell} (v : Cell) (hm : m.memory = #[x, y, 0]) :
      (roundOf 0 (0 + q) (copyWord 0 1) m v).memory = #[v, v, 0] := by
    show (Array.setIfInBounds (m.memory.setIfInBounds 0 v) 1 ((m.memory.setIfInBounds 0 v).getD 0 0)) = _
    rw [hm]
    rfl
  have hmemory := hround (-7) (hround (-4) (hround (-1) (hround 2 (hround 5
    (show (State.start c.node W.words).memory = #[0, 0, 0] from rfl)))))
  rw [hvalues, hlast, List.foldl_cons, List.foldl_cons, List.foldl_cons, List.foldl_cons, List.foldl_cons,
    List.foldl_nil] at hsteps
  refine ⟨c, loop, W, .start c.node W.words, _, hcode, W.stands_words, hvalues, hsteps, rfl, rfl, ?_⟩
  rw [State.setWord, hmemory]
  rfl

end RobotScript
