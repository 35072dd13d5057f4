/-
# Fragments of code

A fragment of code works on the words on top of the stack and on memory. What
it makes of them depends neither on where it stands nor on what lies below, but
for the fault of a stack that is full. So a fragment has a function, from the
words that it finds to those that it leaves, and the functions of fragments that
are put one behind the other are composed.

Key definitions: `Between`, `Code.Crosses`, `Comes`, `Fragment`, `Works`.
Key theorems: `Comes.of_crosses`, `Works.append`, `Works.above`, `Works.fork`.
-/
import RobotScript.Proofs.ControlFlow

namespace RobotScript

open Machine (Instr Binary Unary State RunFault Exec)
open Code (plain size)

/-! ### Runs between two addresses -/

/-- Steps that all start from the address `lo` on and before `hi`. -/
inductive Between (node : Node) (lo hi : Nat) : State → State → Prop
  | refl (m : State) : Between node lo hi m m
  | head {m m1 m2 : State} (hlo : lo ≤ m.pc) (hhi : m.pc < hi)
    (hstep : (Machine.step node).run m = .ok true m1) (h : Between node lo hi m1 m2) :
    Between node lo hi m m2

/-- The machine stands at the code, runs it without a fault and has just come to
its end. -/
structure Code.Crosses (node : Node) (k : Code) (m m' : State) : Prop where
  stands : k.Stands m.image m.pc
  within : Between node m.pc (m.pc + size k) m m'
  pc : m'.pc = m.pc + size k

/-- Between two addresses, the machine comes to a state as `P` says, or it stops
with a fault. -/
def Comes (node : Node) (lo hi : Nat) (m : State) (P : State → Prop) : Prop :=
  ∃ m', Between node lo hi m m' ∧
    (P m' ∨ lo ≤ m'.pc ∧ m'.pc < hi ∧ ∃ fault m'', (Machine.step node).run m' = .error fault m'')

variable {node : Node} {lo hi lo' hi' : Nat} {m m' m1 : State}

namespace Between

theorem steps (h : Between node lo hi m m') : Steps node m m' := by
  induction h with
  | refl => exact .refl _
  | head _ _ hstep _ ih => exact .head hstep ih

theorem trans (h : Between node lo hi m m1) (h' : Between node lo hi m1 m') : Between node lo hi m m' := by
  induction h with
  | refl => exact h'
  | head hlo hhi hstep _ ih => exact .head hlo hhi hstep (ih h')

theorem widen (h : Between node lo hi m m') (hlo : lo' ≤ lo) (hhi : hi ≤ hi') : Between node lo' hi' m m' := by
  induction h with
  | refl => exact .refl _
  | head hl hh hstep _ ih => exact .head (Nat.le_trans hlo hl) (Nat.lt_of_lt_of_le hh hhi) hstep ih

/-- From one run to the end, any other leads on to the same end. -/
theorem rest (h : Between node lo hi m m1) (h' : Between node lo hi m m') (hend : hi ≤ m'.pc) :
    Between node lo hi m1 m' := by
  induction h with
  | refl => exact h'
  | head hlo hhi hstep _ ih =>
    cases h' with
    | refl => omega
    | head _ _ hstep' h'' =>
      rw [hstep] at hstep'
      cases hstep'
      exact ih h''

end Between

namespace Comes

variable {P Q : State → Prop}

theorem here (h : P m) : Comes node lo hi m P := ⟨m, .refl m, .inl h⟩

theorem bind (h : Comes node lo hi m P) (hP : ∀ m1, P m1 → Comes node lo hi m1 Q) : Comes node lo hi m Q := by
  obtain ⟨m1, hwithin, hm1 | hfault⟩ := h
  · obtain ⟨m2, hwithin', hm2⟩ := hP m1 hm1
    exact ⟨m2, hwithin.trans hwithin', hm2⟩
  · exact ⟨m1, hwithin, .inr hfault⟩

theorem mono (h : Comes node lo hi m P) (hP : ∀ m1, P m1 → Q m1) : Comes node lo hi m Q :=
  h.bind fun m1 hm1 => here (hP m1 hm1)

theorem widen (h : Comes node lo hi m P) (hlo : lo' ≤ lo) (hhi : hi ≤ hi') : Comes node lo' hi' m P := by
  obtain ⟨m1, hwithin, hm1⟩ := h
  exact ⟨m1, hwithin.widen hlo hhi, hm1.imp_right fun ⟨hl, hh, hfault⟩ => ⟨by omega, by omega, hfault⟩⟩

/-- A step is made, or it is the fault. -/
theorem step (hlo : lo ≤ m.pc) (hhi : m.pc < hi)
    (h : (∃ m1, (Machine.step node).run m = .ok true m1 ∧ Comes node lo hi m1 P) ∨
      ∃ fault m1, (Machine.step node).run m = .error fault m1) :
    Comes node lo hi m P := by
  obtain ⟨m1, hstep, m2, hwithin, hm2⟩ | hfault := h
  · exact ⟨m2, .head hlo hhi hstep hwithin, hm2⟩
  · exact ⟨m, .refl m, .inr ⟨hlo, hhi, hfault⟩⟩

/-- A run to the end of the code comes to the one state that is known of. -/
theorem of_crosses {k : Code} (hrun : k.Crosses node m m')
    (h : Comes node m.pc (m.pc + size k) m P) (hP : ∀ m1, P m1 → m.pc + size k ≤ m1.pc) : P m' := by
  obtain ⟨m1, hwithin, hm1⟩ := h
  have hrest := hwithin.rest hrun.within (Nat.le_of_eq hrun.pc.symm)
  rcases hm1 with hm1 | ⟨-, hhi, fault, m'', hfault⟩
  · cases hrest with
    | refl => exact hm1
    | head _ hhi _ _ => exact absurd hhi (Nat.not_lt.mpr (hP m1 hm1))
  · cases hrest with
    | refl => exact absurd hrun.pc (Nat.ne_of_lt hhi)
    | head _ _ hstep _ => rw [hfault] at hstep; cases hstep

end Comes

/-! ### What a fragment does -/

/-- The words on top of the stack, and memory. -/
abbrev Sight := List Cell × Array Cell

/-- The machine with what a fragment sees put into it, above the rest of the
stack. -/
def Machine.State.put (m : State) (x : Sight) (rest : List Cell) (pc : Nat) : State :=
  { m with stack := x.1 ++ rest, memory := x.2, pc }

theorem Machine.State.put_self {m : State} {ws rest : List Cell} (h : m.stack = ws ++ rest) :
    m.put (ws, m.memory) rest m.pc = m := by
  rw [put, ← h]

/-- Wherever the code stands and whatever lies below the `a` words that it takes,
it comes to its end with what the function says, or to a fault. -/
def Carries (node : Node) (k : Code) (a : Nat) (f : Sight → Option Sight) : Prop :=
  ∀ (m : State) (base : Nat) (rest : List Cell) (x : Sight), k.Stands m.image base → x.1.length = a →
    x.2.size = node.maxVarSize → Comes node base (base + size k) (m.put x rest base) fun m' =>
      ∃ y, f x = some y ∧ m' = m.put y rest (base + size k)

/-- In place of `a` words the function leaves `b`, and it changes no word of
memory but those of `W`. -/
def Confines (node : Node) (W : Nat → Prop) (a b : Nat) (f : Sight → Option Sight) : Prop :=
  ∀ x y : Sight, x.1.length = a → x.2.size = node.maxVarSize → f x = some y →
    y.1.length = b ∧ y.2.size = node.maxVarSize ∧ ∀ j, ¬W j → y.2[j]? = x.2[j]?

/-- The function of the code takes `a` words, leaves `b` and changes the words of
`W`. -/
structure Fragment (node : Node) (W : Nat → Prop) (k : Code) (a b : Nat) (f : Sight → Option Sight) : Prop where
  acts : Carries node k a f
  keeps : Confines node W a b f

/-- The code has a function. -/
def Works (node : Node) (W : Nat → Prop) (k : Code) (a b : Nat) : Prop := ∃ f, Fragment node W k a b f

/-- A run of the code ends as its function says. -/
theorem Carries.of_crosses {k : Code} {a : Nat} {f : Sight → Option Sight} {rest : List Cell}
    (h : Carries node k a f) (ws : List Cell) (hrun : k.Crosses node m m') (hstack : m.stack = ws ++ rest)
    (hws : ws.length = a) (hsize : m.memory.size = node.maxVarSize) :
    ∃ y, f (ws, m.memory) = some y ∧ m' = m.put y rest (m.pc + size k) := by
  have hcomes := h m m.pc rest (ws, m.memory) hrun.stands hws hsize
  rw [State.put_self hstack] at hcomes
  refine hcomes.of_crosses hrun ?_
  rintro _ ⟨y, -, rfl⟩
  exact Nat.le_refl _

namespace Carries

variable {k k' : Code} {a b : Nat} {f g : Sight → Option Sight}

theorem nil (a : Nat) : Carries node [] a some :=
  fun _ _ _ x _ _ _ => .here ⟨x, rfl, rfl⟩

/-- Functions of fragments that follow each other are composed. -/
theorem append {W : Nat → Prop} (h : Carries node k a f) (hf : Confines node W a b f) (h' : Carries node k' b g) :
    Carries node (k ++ k') a fun x => (f x).bind g := by
  intro m base rest x hk hx hsize
  rw [Code.size_append, ← Nat.add_assoc]
  refine ((h m base rest x hk.left hx hsize).widen (Nat.le_refl _) (by omega)).bind ?_
  rintro _ ⟨y, hy, rfl⟩
  obtain ⟨hlength, hsize', -⟩ := hf x y hx hsize hy
  refine ((h' m _ rest y hk.right hlength hsize').widen (by omega) (Nat.le_refl _)).mono ?_
  rintro _ ⟨z, hz, rfl⟩
  exact ⟨z, (congrArg (·.bind g) hy).trans hz, rfl⟩

/-- An instruction makes a step, or that is the fault. -/
theorem of_step {i : Instr}
    (h : ∀ (m : State) (held : Bool) (ws rest : List Cell), i.Stands held m.image m.pc →
      m.stack = ws ++ rest → ws.length = a →
      (∃ y, f (ws, m.memory) = some y ∧
        (Machine.step node).run m = .ok true (m.put y rest (m.pc + i.length))) ∨
        ∃ fault m', (Machine.step node).run m = .error fault m') :
    Carries node (plain [i]) a f := by
  intro m base rest x hk hx _
  obtain ⟨held, hi⟩ := hk.instr
  have hpos : 0 < i.length := i.length_pos
  have hend : base + size (plain [i]) = base + i.length := rfl
  rw [hend]
  refine .step (Nat.le_refl _) (Nat.lt_add_of_pos_right hpos) ?_
  refine (h (m.put x rest base) held x.1 rest hi rfl hx).imp_left ?_
  rintro ⟨y, hy, hstep⟩
  exact ⟨_, hstep, .here ⟨y, hy, rfl⟩⟩

end Carries

/-! ### Instructions -/

namespace Sight

def push (n : Cell) (x : Sight) : Option Sight := some (n :: x.1, x.2)

def load (a : Nat) (x : Sight) : Option Sight := x.2[a]?.map fun w => (w :: x.1, x.2)

def store (a : Nat) : Sight → Option Sight
  | (v :: ws, memory) => if a < memory.size then some (ws, memory.setIfInBounds a v) else none
  | _ => none

def unary (u : Unary) : Sight → Option Sight
  | (v :: ws, memory) => some (u.evalCell v :: ws, memory)
  | _ => none

def binary (op : Binary) : Sight → Option Sight
  | (w :: v :: ws, memory) => (op.evalCell v w).map fun r => (r :: ws, memory)
  | _ => none

def loadIndirect (a : Nat) (size : Word) : Sight → Option Sight
  | (i :: ws, memory) =>
    if i.toUInt16 < size then memory[a + i.toUInt16.toNat]?.map fun w => (w :: ws, memory) else none
  | _ => none

def storeIndirect (a : Nat) (size : Word) : Sight → Option Sight
  | (i :: v :: ws, memory) =>
    if i.toUInt16 < size then
      if a + i.toUInt16.toNat < memory.size then
        some (ws, memory.setIfInBounds (a + i.toUInt16.toNat) v)
      else none
    else none
  | _ => none

end Sight

namespace Carries

theorem of_push {i : Instr} {n : Cell}
    (h : ∀ held, i.run node held = do
      Exec.push n
      Exec.advance i.length
      pure true)
    (a : Nat) :
    Carries node (plain [i]) a (Sight.push n) := by
  refine .of_step fun m held ws rest hi hstack hws => ?_
  rw [hi.step node, h held, EStateM.run_bind, Exec.run_push_eq]
  by_cases hfull : Machine.stackSize ≤ m.stack.length
  · rw [if_pos hfull]
    exact .inr ⟨_, _, rfl⟩
  · rw [if_neg hfull, hstack]
    exact .inl ⟨(n :: ws, m.memory), rfl, rfl⟩

theorem pushSmall {n : Cell} (hlo : -2048 ≤ n.toInt) (hhi : n.toInt < 2048) (a : Nat) :
    Carries node (plain [.pushSmall n]) a (Sight.push n) := by
  refine .of_push (fun held => ?_) a
  rw [Instr.run, Machine.signed12_word _ hlo hhi, Int16.ofInt_toInt]
  rfl

theorem push (n : Cell) (a : Nat) : Carries node (plain [.push n]) a (Sight.push n) :=
  .of_push (fun _ => rfl) a

theorem immediate (n : Cell) (a : Nat) : Carries node (plain [.immediate n]) a (Sight.push n) := by
  unfold Instr.immediate
  split
  · rename_i hn
    exact .pushSmall (Int16.le_iff_toInt_le.mp hn.1) (Int16.lt_iff_toInt_lt.mp hn.2) a
  · exact .push n a

theorem load (addr : Word) (a : Nat) : Carries node (plain [.load addr]) a (Sight.load (addr.toNat % 4096)) := by
  refine .of_step fun m held ws rest hi hstack hws => ?_
  rw [hi.step_load]
  cases hword : m.memory[addr.toNat % 4096]? with
  | none => exact .inr ⟨_, _, rfl⟩
  | some w =>
    dsimp only
    split
    · exact .inr ⟨_, _, rfl⟩
    · refine .inl ⟨(w :: ws, m.memory), by rw [Sight.load, hword, Option.map_some], ?_⟩
      rw [State.put, hstack]
      rfl

theorem store (addr : Word) (a : Nat) :
    Carries node (plain [.store addr]) (a + 1) (Sight.store (addr.toNat % 4096)) := by
  refine .of_step fun m held ws rest hi hstack hws => ?_
  obtain ⟨v, ws, rfl⟩ := List.exists_cons_of_length_eq_add_one hws
  rw [hi.step node, Instr.run, EStateM.run_bind, Exec.run_pop, hstack]
  dsimp only [List.cons_append]
  rw [EStateM.run_bind, Exec.run_write_eq]
  by_cases haddr : addr.toNat % 4096 < m.memory.size
  · refine .inl ⟨(ws, m.memory.setIfInBounds (addr.toNat % 4096) v), ?_, ?_⟩
    · rw [Sight.store, if_pos haddr]
    · rw [if_pos haddr]
      rfl
  · rw [if_neg haddr]
    exact .inr ⟨_, _, rfl⟩

theorem unary (u : Unary) (a : Nat) : Carries node (plain [.unary u]) (a + 1) (Sight.unary u) := by
  refine .of_step fun m held ws rest hi hstack hws => ?_
  obtain ⟨v, ws, rfl⟩ := List.exists_cons_of_length_eq_add_one hws
  rw [hi.step node, Instr.run, EStateM.run_bind, Exec.run_pop, hstack]
  dsimp only [List.cons_append]
  rw [EStateM.run_bind, Exec.run_push_eq]
  by_cases hfull : Machine.stackSize ≤ (ws ++ rest).length
  · rw [if_pos hfull]
    exact .inr ⟨_, _, rfl⟩
  · rw [if_neg hfull]
    exact .inl ⟨(u.evalCell v :: ws, m.memory), rfl, rfl⟩

theorem binary (op : Binary) (a : Nat) : Carries node (plain [.binary op]) (a + 2) (Sight.binary op) := by
  refine .of_step fun m held ws rest hi hstack hws => ?_
  obtain ⟨w, ws, rfl⟩ := List.exists_cons_of_length_eq_add_one hws
  obtain ⟨v, ws, rfl⟩ := List.exists_cons_of_length_eq_add_one (Nat.succ.inj hws)
  rw [hi.step_binary hstack]
  cases hvalue : op.evalCell v w with
  | none => exact .inr ⟨_, _, rfl⟩
  | some r =>
    dsimp only
    split
    · exact .inr ⟨_, _, rfl⟩
    · refine .inl ⟨(r :: ws, m.memory), by rw [Sight.binary, hvalue, Option.map_some], ?_⟩
      rfl

theorem loadIndirect (addr size : Word) (a : Nat) :
    Carries node (plain [.loadIndirect addr size]) (a + 1) (Sight.loadIndirect (addr.toNat % 4096) size) := by
  refine .of_step fun m held ws rest hi hstack hws => ?_
  obtain ⟨i, ws, rfl⟩ := List.exists_cons_of_length_eq_add_one hws
  rw [hi.step_loadIndirect hstack]
  split
  · rename_i hindex
    cases hword : m.memory[addr.toNat % 4096 + i.toUInt16.toNat]? with
    | none => exact .inr ⟨_, _, rfl⟩
    | some w =>
      dsimp only
      split
      · exact .inr ⟨_, _, rfl⟩
      · refine .inl ⟨(w :: ws, m.memory), ?_, ?_⟩
        · rw [Sight.loadIndirect, if_pos hindex, hword, Option.map_some]
        · rfl
  · exact .inr ⟨_, _, rfl⟩

theorem storeIndirect (addr size : Word) (a : Nat) :
    Carries node (plain [.storeIndirect addr size]) (a + 2) (Sight.storeIndirect (addr.toNat % 4096) size) := by
  refine .of_step fun m held ws rest hi hstack hws => ?_
  obtain ⟨i, ws, rfl⟩ := List.exists_cons_of_length_eq_add_one hws
  obtain ⟨v, ws, rfl⟩ := List.exists_cons_of_length_eq_add_one (Nat.succ.inj hws)
  have hstack : m.stack = i :: v :: (ws ++ rest) := hstack
  rw [hi.step_storeIndirect hstack]
  by_cases hindex : i.toUInt16 < size
  · rw [if_pos hindex]
    dsimp only [List.head?_cons, List.tail_cons]
    by_cases haddr : addr.toNat % 4096 + i.toUInt16.toNat < m.memory.size
    · refine .inl ⟨(ws, m.memory.setIfInBounds (addr.toNat % 4096 + i.toUInt16.toNat) v), ?_, ?_⟩
      · rw [Sight.storeIndirect, if_pos hindex, if_pos haddr]
      · rw [if_pos haddr]
        rfl
    · rw [if_neg haddr]
      exact .inr ⟨_, _, rfl⟩
  · rw [if_neg hindex]
    exact .inr ⟨_, _, rfl⟩

end Carries

/-! ### Fragments put together -/

/-- Work on the first words only. -/
def Sight.above (a : Nat) (f : Sight → Option Sight) (x : Sight) : Option Sight :=
  (f (x.1.take a, x.2)).map fun y => (y.1 ++ x.1.drop a, y.2)

/-- Go on as the comparison of the two words on top says. -/
def Sight.branch (op : Binary) (f f' : Sight → Option Sight) : Sight → Option Sight
  | (w :: v :: ws, memory) =>
    (op.evalCell v w).bind fun r => if r = 0 then f' (ws, memory) else f (ws, memory)
  | _ => none

namespace Carries

variable {k k' : Code} {a b : Nat} {f g : Sight → Option Sight}

/-- Words below those that a fragment takes stay where they are. -/
theorem above (h : Carries node k a f) (n : Nat) : Carries node k (a + n) (Sight.above a f) := by
  intro m base rest x hk hx hsize
  have hput (ws : List Cell) (memory : Array Cell) (pc : Nat) :
      m.put (ws, memory) (x.1.drop a ++ rest) pc = m.put (ws ++ x.1.drop a, memory) rest pc := by
    rw [State.put, State.put, List.append_assoc]
  have htake : (x.1.take a).length = a := by
    rw [List.length_take]
    omega
  have hcomes := h m base (x.1.drop a ++ rest) (x.1.take a, x.2) hk htake hsize
  rw [hput, List.take_append_drop] at hcomes
  refine hcomes.mono ?_
  rintro _ ⟨y, hy, rfl⟩
  exact ⟨(y.1 ++ x.1.drop a, y.2), by rw [Sight.above, hy, Option.map_some], hput y.1 y.2 _⟩

/-- A branch over a fragment, which jumps over another. -/
theorem branch {op : Binary} {branch skip : Instr} (h : Carries node k b f) (h' : Carries node k' b g)
    (hbranch : branchBy? op false (2 + size k + 1) = some branch) (hskip : jumpBy? (1 + size k') = some skip) :
    Carries node (plain [branch] ++ (k ++ (plain [skip] ++ k'))) (b + 2) (Sight.branch op f g) := by
  intro m base rest ⟨ws, memory⟩ hk hx hsize
  obtain ⟨w, ws, rfl⟩ := List.exists_cons_of_length_eq_add_one hx
  obtain ⟨v, ws, rfl⟩ := List.exists_cons_of_length_eq_add_one (Nat.succ.inj hx)
  have hws : ws.length = b := Nat.succ.inj (Nat.succ.inj hx)
  have hlength : size (plain [branch]) = 2 := Code.size_branch hbranch
  have hlength' : size (plain [skip]) = 1 := Code.size_jump hskip
  obtain ⟨held, hi⟩ := hk.left.instr
  obtain ⟨o, rfl, ho⟩ := branchBy?_eq_some hbranch
  have hfirst := hk.right.left
  have hjump := hk.right.right
  have hsecond := hk.right.right.right
  simp only [Code.size_append, hlength, hlength'] at hfirst hjump hsecond ⊢
  refine .step (Nat.le_refl _) (by show base < _; omega) ?_
  cases hvalue : op.evalCell v w with
  | none =>
    right
    have hstep : (Machine.step node).run (m.put (w :: v :: ws, memory) rest base) = _ := hi.step node
    have hstack : (m.put (w :: v :: ws, memory) rest base).stack = w :: v :: (ws ++ rest) := rfl
    rw [hstep, Instr.run, EStateM.run_bind, Exec.run_popBinary_cons hstack, hvalue]
    exact ⟨_, _, rfl⟩
  | some r =>
    left
    have hq : ((m.put (w :: v :: ws, memory) rest base).pc : Int) + o.toInt = (base + 2 + size k + 1 : Nat) := by
      show (base : Int) + o.toInt = _
      omega
    have hstack : (m.put (w :: v :: ws, memory) rest base).stack = w :: v :: (ws ++ rest) := rfl
    refine ⟨_, Machine.Instr.Stands.step_compare hi hstack hvalue hq, ?_⟩
    by_cases hr : r = 0
    · rw [if_pos hr]
      refine ((h' m _ rest (ws, memory) hsecond hws hsize).widen (by omega) (by omega)).mono ?_
      rintro _ ⟨y, hy, rfl⟩
      refine ⟨y, by rw [Sight.branch, hvalue, Option.bind_some, if_pos hr, hy], ?_⟩
      exact congrArg (m.put y rest) (by omega)
    · rw [if_neg hr]
      refine ((h m _ rest (ws, memory) hfirst hws hsize).widen (by omega) (by omega)).bind ?_
      rintro _ ⟨y, hy, rfl⟩
      -- behind the first fragment, the second is jumped over
      have hjumps : Code.Jumps (plain [skip] ++ k') 0 (1 + size k') :=
        ⟨1 + size k', skip, hskip, ⟨[], k', rfl, rfl⟩, by omega⟩
      have hstep : (Machine.step node).run (m.put y rest (base + 2 + size k)) = _ :=
        hjumps.step hjump rfl
      refine .step (by show base ≤ base + 2 + size k; omega)
        (by show base + 2 + size k < _; omega) (.inl ⟨_, hstep, .here ⟨y, ?_, ?_⟩⟩)
      · rw [Sight.branch, hvalue, Option.bind_some, if_neg hr, hy]
      · exact congrArg (m.put y rest) (by omega)

end Carries

/-! ### What a fragment keeps -/

namespace Confines

variable {W W' : Nat → Prop} {a b d : Nat} {f g : Sight → Option Sight}

theorem mono (h : Confines node W a b f) (hW : ∀ j, W j → W' j) : Confines node W' a b f := by
  intro x y hx hsize hy
  obtain ⟨hlength, hsize', hsame⟩ := h x y hx hsize hy
  exact ⟨hlength, hsize', fun j hj => hsame j fun h => hj (hW j h)⟩

/-- A function that leaves memory as it was. -/
theorem of_same (h : ∀ x y, x.1.length = a → f x = some y → y.1.length = b ∧ y.2 = x.2) :
    Confines node W a b f := by
  intro x y hx hsize hy
  obtain ⟨hlength, hsame⟩ := h x y hx hy
  rw [hsame]
  exact ⟨hlength, hsize, fun _ _ => rfl⟩

theorem bind (h : Confines node W a b f) (h' : Confines node W b d g) :
    Confines node W a d fun x => (f x).bind g := by
  intro x z hx hsize hz
  obtain ⟨y, hy, hz⟩ := Option.bind_eq_some_iff.mp hz
  obtain ⟨hlength, hsize', hsame⟩ := h x y hx hsize hy
  obtain ⟨hlength', hsize'', hsame'⟩ := h' y z hlength hsize' hz
  exact ⟨hlength', hsize'', fun j hj => (hsame' j hj).trans (hsame j hj)⟩

theorem above (h : Confines node W a b f) (n : Nat) : Confines node W (a + n) (b + n) (Sight.above a f) := by
  intro x y hx hsize hy
  obtain ⟨z, hz, rfl⟩ := Option.map_eq_some_iff.mp hy
  have htake : (x.1.take a).length = a := by
    rw [List.length_take]
    omega
  obtain ⟨hlength, hsize', hsame⟩ := h (x.1.take a, x.2) z htake hsize hz
  refine ⟨?_, hsize', hsame⟩
  rw [List.length_append, List.length_drop]
  omega

theorem push (n : Cell) : Confines node W a (a + 1) (Sight.push n) := by
  refine .of_same fun x y hx hy => ?_
  cases hy
  exact ⟨congrArg (· + 1) hx, rfl⟩

theorem load (addr : Nat) : Confines node W a (a + 1) (Sight.load addr) := by
  refine .of_same fun x y hx hy => ?_
  obtain ⟨w, -, rfl⟩ := Option.map_eq_some_iff.mp hy
  exact ⟨congrArg (· + 1) hx, rfl⟩

theorem unary (u : Unary) : Confines node W (a + 1) (a + 1) (Sight.unary u) := by
  refine .of_same fun ⟨ws, memory⟩ y hx hy => ?_
  obtain ⟨v, ws, rfl⟩ := List.exists_cons_of_length_eq_add_one hx
  cases hy
  exact ⟨hx, rfl⟩

theorem binary (op : Binary) : Confines node W (a + 2) (a + 1) (Sight.binary op) := by
  refine .of_same fun ⟨ws, memory⟩ y hx hy => ?_
  obtain ⟨w, ws, rfl⟩ := List.exists_cons_of_length_eq_add_one hx
  obtain ⟨v, ws, rfl⟩ := List.exists_cons_of_length_eq_add_one (Nat.succ.inj hx)
  obtain ⟨r, -, rfl⟩ := Option.map_eq_some_iff.mp hy
  exact ⟨Nat.succ.inj hx, rfl⟩

theorem loadIndirect (addr : Nat) (size : Word) :
    Confines node W (a + 1) (a + 1) (Sight.loadIndirect addr size) := by
  refine .of_same fun ⟨ws, memory⟩ y hx hy => ?_
  obtain ⟨i, ws, rfl⟩ := List.exists_cons_of_length_eq_add_one hx
  rw [Sight.loadIndirect, Option.ite_none_right_eq_some] at hy
  obtain ⟨w, -, rfl⟩ := Option.map_eq_some_iff.mp hy.2
  exact ⟨hx, rfl⟩

theorem store {addr : Nat} (haddr : W addr) : Confines node W (a + 1) a (Sight.store addr) := by
  intro ⟨ws, memory⟩ y hx hsize hy
  obtain ⟨v, ws, rfl⟩ := List.exists_cons_of_length_eq_add_one hx
  rw [Sight.store, Option.ite_none_right_eq_some] at hy
  obtain ⟨-, hy⟩ := hy
  cases hy
  refine ⟨Nat.succ.inj hx, Array.size_setIfInBounds.trans hsize, fun j hj => ?_⟩
  have hne : addr ≠ j := by
    rintro rfl
    exact hj haddr
  exact Array.getElem?_setIfInBounds_ne hne

theorem branch {op : Binary} (h : Confines node W a b f) (h' : Confines node W a b g) :
    Confines node W (a + 2) b (Sight.branch op f g) := by
  intro ⟨ws, memory⟩ y hx hsize hy
  obtain ⟨w, ws, rfl⟩ := List.exists_cons_of_length_eq_add_one hx
  obtain ⟨v, ws, rfl⟩ := List.exists_cons_of_length_eq_add_one (Nat.succ.inj hx)
  have hws : ws.length = a := Nat.succ.inj (Nat.succ.inj hx)
  obtain ⟨r, -, hy⟩ := Option.bind_eq_some_iff.mp hy
  split at hy
  · exact h' (ws, memory) y hws hsize hy
  · exact h (ws, memory) y hws hsize hy

end Confines

/-! ### Fragments that have a function -/

namespace Fragment

variable {W : Nat → Prop} {k k' : Code} {a b d : Nat} {f g : Sight → Option Sight}

theorem append (h : Fragment node W k a b f) (h' : Fragment node W k' b d g) :
    Fragment node W (k ++ k') a d fun x => (f x).bind g :=
  ⟨h.acts.append h.keeps h'.acts, h.keeps.bind h'.keeps⟩

theorem above (h : Fragment node W k a b f) (n : Nat) : Fragment node W k (a + n) (b + n) (Sight.above a f) :=
  ⟨h.acts.above n, h.keeps.above n⟩

end Fragment

namespace Works

variable {W W' : Nat → Prop} {k k' : Code} {a b d : Nat}

theorem mono (h : Works node W k a b) (hW : ∀ j, W j → W' j) : Works node W' k a b := by
  obtain ⟨f, hacts, hkeeps⟩ := h
  exact ⟨f, hacts, hkeeps.mono hW⟩

theorem nil (a : Nat) : Works node W [] a a :=
  ⟨some, .nil a, .of_same fun x y hx hy => by cases hy; exact ⟨hx, rfl⟩⟩

theorem append (h : Works node W k a b) (h' : Works node W k' b d) : Works node W (k ++ k') a d := by
  obtain ⟨f, hf⟩ := h
  obtain ⟨g, hg⟩ := h'
  exact ⟨_, hf.append hg⟩

theorem above (h : Works node W k a b) (n : Nat) : Works node W k (a + n) (b + n) := by
  obtain ⟨f, hf⟩ := h
  exact ⟨_, hf.above n⟩

theorem load (addr : Word) : Works node W (plain [.load addr]) a (a + 1) :=
  ⟨_, .load addr a, .load _⟩

theorem store {addr : Word} (haddr : W (addr.toNat % 4096)) : Works node W (plain [.store addr]) (a + 1) a :=
  ⟨_, .store addr a, .store haddr⟩

theorem unary (u : Unary) : Works node W (plain [.unary u]) (a + 1) (a + 1) :=
  ⟨_, .unary u a, .unary u⟩

theorem binary (op : Binary) : Works node W (plain [.binary op]) (a + 2) (a + 1) :=
  ⟨_, .binary op a, .binary op⟩

theorem loadIndirect (addr size : Word) : Works node W (plain [.loadIndirect addr size]) (a + 1) (a + 1) :=
  ⟨_, .loadIndirect addr size a, .loadIndirect _ size⟩

/-- Two words are compared, and one of two fragments is run. -/
theorem fork {op : Binary} {branch skip : Instr} {k1 k2 : Code} (h : Works node W k a (b + 2))
    (h1 : Works node W k1 b d) (hbranch : branchBy? op false (2 + size k1 + 1) = some branch)
    (h2 : Works node W k2 b d) (hskip : jumpBy? (1 + size k2) = some skip) :
    Works node W (k ++ plain [branch] ++ k1 ++ plain [skip] ++ k2) a d := by
  obtain ⟨f, hacts1, hkeeps1⟩ := h1
  obtain ⟨g, hacts2, hkeeps2⟩ := h2
  have hchoice : Works node W (plain [branch] ++ (k1 ++ (plain [skip] ++ k2))) (b + 2) d :=
    ⟨_, hacts1.branch hacts2 hbranch hskip, hkeeps1.branch hkeeps2⟩
  simpa only [List.append_assoc] using h.append hchoice

end Works

end RobotScript
