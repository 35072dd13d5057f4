/-
# Sending events

An event is sent with the words of a value. A variable at a fixed address is
sent from where it is; the words of any other value are pushed in storage order
and popped into temporaries, the last one first, and sent from there. Either way
the event carries the words as they were when the value was evaluated, and
nothing but temporaries has changed since.

Key definitions: `CodedEach`, `EventValue`.
Key theorems: `steps_emit`, `emit_sends_value`.
-/
import RobotScript.Proofs.VariableWords

namespace RobotScript

open Machine (Instr State Exec)
open Code (plain size)
open Coder (pops)

/-! ### The instruction -/

/-- Words that follow each other in memory are read in order. -/
theorem Machine.Exec.run_readMany {m : State} : ∀ {ws : List Cell} {addr : Nat},
    (∀ j < ws.length, m.memory[addr + j]? = ws[j]?) → (readMany addr ws.length).run m = .ok ws m
  | [], _, _ => rfl
  | w :: ws, addr, h => by
    have hfirst : m.memory[addr]? = some w := h 0 (Nat.succ_pos _)
    have hrest : (readMany (addr + 1) ws.length).run m = .ok ws m := run_readMany fun j hj => by
      rw [Nat.add_assoc, Nat.add_comm 1 j]
      exact h (j + 1) (Nat.succ_lt_succ hj)
    rw [List.length_cons, readMany, EStateM.run_bind, run_read_eq, hfirst]
    dsimp only
    rw [EStateM.run_bind, hrest]
    rfl

/-- The words at an address are sent. -/
theorem steps_emit {node : Node} {m : State} {id : Word} {addr : Nat} {ws : List Cell} (hid : id.toNat < 4096)
    (haddr : addr < 65536) (hlen : ws.length < 65536) (hws : ∀ j < ws.length, m.memory[addr + j]? = ws[j]?)
    (hcode : (plain [.emit id (UInt16.ofNat addr) (UInt16.ofNat ws.length)]).Stands m.image m.pc) :
    Steps node m { m with emitted := m.emitted.push ⟨id, ws⟩, pc := m.pc + 3 } := by
  obtain ⟨held, hi⟩ := hcode.instr
  refine .head ?_ (.refl _)
  have hread := Exec.run_readMany hws
  have hwords (n : Nat) (hn : n < 65536) : (UInt16.ofNat n).toNat = n := by
    rw [UInt16.toNat_ofNat', Nat.mod_eq_of_lt hn]
  have hsent : UInt16.ofNat (id.toNat % 4096) = id := by rw [Nat.mod_eq_of_lt hid, UInt16.ofNat_toNat]
  rw [hi.step node, Instr.run, hwords _ haddr, hwords _ hlen, hsent, EStateM.run_bind, hread]
  rfl

/-! ### Values that are pushed -/

/-- The code of expressions one after another. -/
inductive CodedEach (c : Coder) : Coding.State → List Expr → List Code → Coding.State → Prop
  | nil {st : Coding.State} : CodedEach c st [] [] st
  | cons {st st1 st' : Coding.State} {e : Expr} {es : List Expr} {k : Code} {ks : List Code}
    (h : e.code c .value st = .ok (k, st1)) (hs : CodedEach c st1 es ks st') :
    CodedEach c st (e :: es) (k :: ks) st'

namespace CodedEach

variable {c : Coder} {st st' st'' : Coding.State} {es : List Expr} {ks ks' : List Code} {k : Code}

theorem of_valuesCode (h : Expr.valuesCode c es st = .ok (k, st')) :
    ∃ ks, CodedEach c st es ks st' ∧ k = ks.flatten := by
  induction es generalizing st k with
  | nil =>
    cases h
    exact ⟨[], .nil, rfl⟩
  | cons e es ih =>
    obtain ⟨ke, st1, he, h1⟩ := Coding.bind_eq_ok h
    obtain ⟨kes, st2, hes, h2⟩ := Coding.bind_eq_ok h1
    cases h2
    obtain ⟨ks, hks, rfl⟩ := ih hes
    exact ⟨ke :: ks, .cons he hks, rfl⟩

theorem length (h : CodedEach c st es ks st') : es.length = ks.length := by
  induction h with
  | nil => rfl
  | cons _ _ ih => rw [List.length_cons, List.length_cons, ih]

/-- There is one such code. -/
theorem unique (h : CodedEach c st es ks st') (h' : CodedEach c st es ks' st'') : ks = ks' ∧ st' = st'' := by
  induction h generalizing ks' with
  | nil =>
    cases h'
    exact ⟨rfl, rfl⟩
  | cons he _ ih =>
    cases h' with
    | cons he' hs' =>
      obtain ⟨rfl, rfl⟩ := Prod.mk.inj (Except.ok.inj (he.symm.trans he'))
      obtain ⟨rfl, rfl⟩ := ih hs'
      exact ⟨rfl, rfl⟩

end CodedEach

section

variable {c : Coder} {s : Storage} {m : State} {a : Nat} {st st' : Coding.State} {k : Code}
variable {ws : List Cell}

/-- A variable that has words lies in memory. -/
theorem add_size_le {memory : Array Cell} {n : Nat} (hlen : ws.length = n)
    (hws : ∀ j < n, memory[a + j]? = ws[j]?) (hn : 0 < n) : a + n ≤ memory.size := by
  have hlast := hws (n - 1) (by omega)
  rw [List.getElem?_eq_getElem (by omega)] at hlast
  have hlt := (Array.getElem?_eq_some_iff.mp hlast).1
  omega

/-- Words of a variable are pushed one after another. -/
theorem Coder.steps_loads {js : List Nat} {ks : List Code}
    (h : js.mapM (fun j => Place.load c ⟨s, .known j⟩) st = .ok (ks, st')) (hjs : ∀ j ∈ js, j < s.size)
    (hwords : c.node.maxVarSize ≤ 4096) (hmemory : m.memory.size = c.node.maxVarSize)
    (hbegins : s.Begins c.node m.memory a) (hlies : 0 < s.size → a + s.size ≤ m.memory.size)
    (hcode : Code.Stands m.image m.pc ks.flatten)
    (hroom : m.stack.length + js.length + (if s.mode = .reference then 1 else 0) ≤ Machine.stackSize) :
    st' = st ∧ Steps c.node m { m with
      stack := (js.map fun j => m.word (a + j)).reverse ++ m.stack, pc := m.pc + size ks.flatten } := by
  induction js generalizing m st ks with
  | nil =>
    cases h
    exact ⟨rfl, .refl m⟩
  | cons j js ih =>
    rw [List.mapM_cons] at h
    obtain ⟨kl, st1, hload, h1⟩ := Coding.bind_eq_ok h
    obtain ⟨ks', st2, hrest, h2⟩ := Coding.bind_eq_ok h1
    cases h2
    rw [List.forall_mem_cons] at hjs
    rw [List.length_cons] at hroom
    have hcode : (kl ++ ks'.flatten).Stands m.image m.pc := hcode
    have hnext : m.stack.length + (if s.mode = .reference ∧ j ≠ 0 then 2 else 1) ≤ Machine.stackSize := by
      by_cases hmode : s.mode = .reference
      · rw [if_pos hmode] at hroom
        split <;> omega
      · rw [if_neg fun h => hmode h.1]
        omega
    have hload : Place.use c ⟨s, .known j⟩ .load st = .ok (kl, st1) := hload
    obtain ⟨rfl, huses⟩ := Place.uses_known hload (by rintro ⟨⟩) (fun _ => hwords) hmemory hbegins hjs.1
      (hlies (Nat.zero_lt_of_lt hjs.1)) hcode.left hnext
    obtain ⟨rfl, hsteps⟩ := ih (m := { m with stack := m.word (a + j) :: m.stack, pc := m.pc + size kl })
      hrest hjs.2 hmemory hbegins hlies hcode.right (by rw [List.length_cons]; omega)
    refine ⟨rfl, (huses.load rfl).trans ?_⟩
    rw [List.flatten_cons, Code.size_append, ← Nat.add_assoc, List.map_cons, List.reverse_cons,
      List.append_assoc]
    exact hsteps

/-- All words of a variable are pushed in storage order. -/
theorem Coder.steps_pushVariable
    (h : Coder.concat (List.range s.size) (fun j => Place.load c ⟨s, .known j⟩) st = .ok (k, st'))
    (hwords : c.node.maxVarSize ≤ 4096) (hmemory : m.memory.size = c.node.maxVarSize)
    (hbegins : s.Begins c.node m.memory a) (hlen : ws.length = s.size)
    (hws : ∀ j < s.size, m.memory[a + j]? = ws[j]?) (hcode : k.Stands m.image m.pc)
    (hroom : m.stack.length + s.size + (if s.mode = .reference then 1 else 0) ≤ Machine.stackSize) :
    st' = st ∧ Steps c.node m { m with stack := ws.reverse ++ m.stack, pc := m.pc + size k } := by
  obtain ⟨ks, st1, hks, h1⟩ := Coding.bind_eq_ok h
  cases h1
  have hread : (List.range s.size).map (fun j => m.word (a + j)) = ws := by
    refine List.ext_getElem (by simp [hlen]) fun j hj hj' => ?_
    have hword := hws j (hlen ▸ hj')
    rw [List.getElem?_eq_getElem hj'] at hword
    rw [State.getElem?_memory (Array.getElem?_eq_some_iff.mp hword).1] at hword
    simpa using Option.some.inj hword
  have hloads := Coder.steps_loads hks (fun j hj => List.mem_range.mp hj) hwords hmemory hbegins
    (add_size_le hlen hws) hcode (by rwa [List.length_range])
  rwa [hread] at hloads

/-! ### Values of events -/

/-- Whether the expression stands for one word that is computed: it is neither a
whole variable nor an array literal. -/
def Expr.isComputed : Expr → Bool
  | .var _ _ | .array _ _ => false
  | _ => true

/-- How many words the stack takes at most while those of the variable are pushed:
to find any word but the first through a reference takes one more. -/
def Storage.depth (s : Storage) : Nat :=
  if s.mode = .reference ∧ s.size ≠ 1 then s.size + 1 else s.size

/-- In the code `W` at `base`, the machine has come from `m` to the state behind the
evaluation of a value, if that takes any, and the value has the words `ws`. A
variable has the words that memory holds. -/
inductive EventValue (c : Coder) (base : Nat) (W : Code) (st : Coding.State) (m : State) :
    Option Expr → List Cell → State → Prop
  | nothing : EventValue c base W st m none [] m
  | scalar {e : Expr} {k : Code} {st1 : Coding.State} {v : Cell} {n : State} (he : e.isComputed = true)
    (hcode : e.code c .value st = .ok (k, st1)) (hrun : Stacks c.node base W k [v] m n) :
    EventValue c base W st m (some e) [v] n
  | literal {i : Info} {items : List Expr} {ks : List Code} {st1 : Coding.State} {ws : List Cell} {n : State}
    (hcode : CodedEach c st items ks st1) (hrun : StacksEach c.node base W ks ws m n) :
    EventValue c base W st m (some (.array i items)) ws n
  | whole {i : Info} {v : Variable} {s : Storage} {a : Nat} {ws : List Cell} (hs : v.storage = some s)
    (hbegins : s.Begins c.node m.memory a) (hlen : ws.length = s.size)
    (hws : ∀ j < s.size, m.memory[a + j]? = ws[j]?)
    (hroom : s.mode ≠ .absolute → m.stack.length + s.depth ≤ Machine.stackSize) :
    EventValue c base W st m (some (.var i v)) ws m

theorem EventValue.reaches {base : Nat} {W : Code} {value : Option Expr} {n : State}
    (h : EventValue c base W st m value ws n) (hW : W.Stands m.image base) :
    Steps c.node m n ∧ W.Stands n.image base := by
  cases h with
  | nothing | whole => exact ⟨.refl m, hW⟩
  | scalar _ _ hrun => exact ⟨hrun.steps, hrun.code⟩
  | literal _ hrun => exact ⟨hrun.pushes.steps, hrun.pushes.code⟩

/-- The machine comes from `n` to the address `q` with the `rest` on its stack and
the words `ws` at `addr`. Of memory it changes only as many temporaries from `t`
on, which lie behind all that is declared. -/
def Coder.Lays (c : Coder) (n : State) (ws : List Cell) (addr t : Nat) (rest : List Cell) (q : Nat) : Prop :=
  ∃ memory, Steps c.node n { n with memory, stack := rest, pc := q } ∧
    (∀ j < ws.length, memory[addr + j]? = ws[j]?) ∧
    ∀ j, j < c.moduleSize ∨ j < t ∨ t + ws.length ≤ j → memory[j]? = n.memory[j]?

/-- Words on the stack come to lie in temporaries. -/
theorem Coder.popToTemps_lays {rest : List Cell} {b : Nat} {n : State}
    (h : c.popToTemps ws.length st = .ok ((k, b), st')) (hmemory : n.memory.size = c.node.maxVarSize)
    (hcode : k.Stands n.image n.pc) (hstack : n.stack = ws.reverse ++ rest) :
    c.Lays n ws b st'.nextTemp rest (n.pc + size k) := by
  obtain ⟨base, st1, htemps, h1⟩ := Coding.bind_eq_ok h
  obtain ⟨-, hbase, hlast⟩ := Coding.temps_eq_ok htemps
  obtain ⟨kp, st2, hpops, h2⟩ := Coding.bind_eq_ok h1
  obtain ⟨rfl, rfl, hfits⟩ := Coder.popInto_eq_ok hpops
  cases h2
  obtain ⟨memory, hsteps, hwords, hother⟩ := steps_pops c.node hcode rfl hstack fun j hj =>
    ⟨(hfits j hj).1, hmemory ▸ (hfits j hj).2⟩
  rw [size_pops, hlast]
  exact ⟨memory, hsteps, hwords, fun j hj => hother j (by omega)⟩

/-- An event is sent from where a variable is, or the words of its value are pushed
and popped into temporaries. -/
theorem Coder.emitFrom_eq_ok {e : Expr} {addr : Nat} (h : c.emitFrom e st = .ok ((k, addr), st')) :
    (∃ i v s, e = .var i v ∧ v.storage = some s ∧ s.mode = .absolute ∧ k = [] ∧ addr = s.offset ∧ st' = st) ∨
    (∀ i v s, e = .var i v → v.storage = some s → s.mode ≠ .absolute) ∧
      ∃ pushed n popped st1, c.pushWords e st = .ok ((pushed, n), st1) ∧
        c.popToTemps n st1 = .ok ((popped, addr), st') ∧ k = pushed ++ popped := by
  have hpushed (h : (do
        let pushed ← c.pushWords e
        let popped ← c.popToTemps pushed.2
        return (pushed.1 ++ popped.1, popped.2) : Coding (Code × Nat)) st = .ok ((k, addr), st')) :
      ∃ pushed n popped st1, c.pushWords e st = .ok ((pushed, n), st1) ∧
        c.popToTemps n st1 = .ok ((popped, addr), st') ∧ k = pushed ++ popped := by
    obtain ⟨⟨pushed, n⟩, st1, hpush, h1⟩ := Coding.bind_eq_ok h
    obtain ⟨⟨popped, base⟩, st2, hpop, h2⟩ := Coding.bind_eq_ok h1
    cases h2
    exact ⟨pushed, n, popped, st1, hpush, hpop, rfl⟩
  cases e with
  | var i v =>
    obtain ⟨s, st1, hs, h1⟩ := Coding.bind_eq_ok h
    obtain ⟨hstored, rfl⟩ := Variable.stored_eq_ok hs
    by_cases hmode : s.mode = .absolute
    · rw [if_pos hmode] at h1
      cases h1
      exact .inl ⟨i, v, s, rfl, hstored, hmode, rfl, rfl, rfl⟩
    · rw [if_neg hmode] at h1
      refine .inr ⟨?_, hpushed h1⟩
      rintro i' v' s' he hs'
      cases he
      rw [hstored] at hs'
      cases hs'
      exact hmode
  | _ =>
    refine .inr ⟨fun i v s he => ?_, hpushed h⟩
    cases he

theorem Coder.pushWords_computed {e : Expr} (he : e.isComputed = true) :
    c.pushWords e = do return (← e.code c .value, 1) := by
  cases e with
  | var | array => cases he
  | _ => rfl

/-- A variable that is not at a fixed address is pushed in storage order. -/
theorem Coder.pushWords_variable {i : Info} {v : Variable} {n : Nat}
    (h : c.pushWords (.var i v) st = .ok ((k, n), st')) (hs : v.storage = some s)
    (hsize : (Expr.var i v).size = s.size) (hwords : c.node.maxVarSize ≤ 4096)
    (hmemory : m.memory.size = c.node.maxVarSize) (hbegins : s.Begins c.node m.memory a)
    (hlen : ws.length = s.size) (hws : ∀ j < s.size, m.memory[a + j]? = ws[j]?)
    (hcode : k.Stands m.image m.pc) (hroom : m.stack.length + s.depth ≤ Machine.stackSize) :
    n = ws.length ∧ Steps c.node m { m with stack := ws.reverse ++ m.stack, pc := m.pc + size k } := by
  unfold Coder.pushWords at h
  dsimp only at h
  unfold Storage.depth at hroom
  by_cases hone : (Expr.var i v).size = 1
  · rw [if_pos hone] at h
    obtain ⟨kv, st1, hkv, h1⟩ := Coding.bind_eq_ok h
    cases h1
    unfold Expr.code at hkv
    rw [if_neg (by rintro ⟨⟩)] at hkv
    obtain ⟨s', st2, hs', h2⟩ := Coding.bind_eq_ok hkv
    obtain ⟨hstored, rfl⟩ := Variable.stored_eq_ok hs'
    obtain rfl : s = s' := Option.some.inj (hs.symm.trans hstored)
    rw [if_neg (not_not_intro (hsize.symm.trans hone))] at h2
    obtain ⟨kl, st3, hload, h3⟩ := Coding.bind_eq_ok h2
    have hload : Place.use c ⟨s, .known 0⟩ .load st2 = .ok (kl, st3) := hload
    cases h3
    obtain ⟨rfl, huses⟩ := Place.uses_known hload (by rintro ⟨⟩) (fun _ => hwords) hmemory hbegins (by omega)
      (add_size_le hlen hws (by omega)) hcode (by simp_all)
    obtain ⟨w, rfl⟩ := List.length_eq_one_iff.mp (hlen.trans (hsize.symm.trans hone))
    have hword : m.word (a + 0) = w := by
      have hfirst := hws 0 (by omega)
      rw [State.getElem?_memory (Array.getElem?_eq_some_iff.mp hfirst).1] at hfirst
      exact Option.some.inj hfirst
    have hsteps := huses.load rfl
    rw [hword] at hsteps
    exact ⟨rfl, hsteps⟩
  · rw [if_neg hone] at h
    obtain ⟨s', st1, hs', h1⟩ := Coding.bind_eq_ok h
    obtain ⟨hstored, rfl⟩ := Variable.stored_eq_ok hs'
    obtain rfl : s = s' := Option.some.inj (hs.symm.trans hstored)
    obtain ⟨kv, st2, hkv, h2⟩ := Coding.bind_eq_ok h1
    cases h2
    refine ⟨hlen.symm, (Coder.steps_pushVariable hkv hwords hmemory hbegins hlen hws hcode ?_).2⟩
    have hne : s.size ≠ 1 := fun h => hone (hsize.trans h)
    by_cases hmode : s.mode = .reference
    · rw [if_pos ⟨hmode, hne⟩] at hroom
      rw [if_pos hmode]
      omega
    · rw [if_neg fun h => hmode h.1] at hroom
      rw [if_neg hmode]
      omega

/-- Wherever an event is sent from, the words of its value lie there. -/
theorem Coder.emitFrom_lays {e : Expr} {addr base : Nat} {W : Code} {n : State}
    (h : c.emitFrom e st = .ok ((k, addr), st')) (hwords : c.node.maxVarSize ≤ 4096)
    (hmemory : m.memory.size = c.node.maxVarSize) (hW : W.Stands m.image base)
    (hpart : ∀ image, W.Stands image base → k.Stands image m.pc)
    (hvalue : EventValue c base W st m (some e) ws n) (hsize : e.size = ws.length) :
    c.Lays n ws addr st'.nextTemp m.stack (m.pc + size k) := by
  -- words that are pushed are popped into temporaries
  have hlays {pushed popped : Code} {st1 : Coding.State} {n : State} (hk : k = pushed ++ popped)
      (hrun : Stacks c.node base W pushed ws m n)
      (hpop : c.popToTemps ws.length st1 = .ok ((popped, addr), st')) :
      c.Lays n ws addr st'.nextTemp m.stack (m.pc + size k) := by
    have hstands := hpart _ hrun.code
    rw [hk] at hstands
    rw [hk, Code.size_append, ← Nat.add_assoc, ← hrun.pc]
    exact Coder.popToTemps_lays hpop (hrun.steps.memory_size.trans hmemory) (hrun.pc ▸ hstands.right)
      hrun.stack
  cases hvalue with
  | scalar he hke hrun =>
    rcases Coder.emitFrom_eq_ok h with ⟨i, v, s, rfl, -⟩ | ⟨-, pushed, count, popped, st2, hpush, hpop, hk⟩
    · cases he
    · rw [Coder.pushWords_computed he] at hpush
      obtain ⟨ke, st3, hke', h1⟩ := Coding.bind_eq_ok hpush
      cases h1
      obtain ⟨rfl, rfl⟩ := Prod.mk.inj (Except.ok.inj (hke.symm.trans hke'))
      exact hlays hk hrun hpop
  | literal hitems hrun =>
    rcases Coder.emitFrom_eq_ok h with ⟨i, v, s, he, -⟩ | ⟨-, pushed, count, popped, st2, hpush, hpop, hk⟩
    · cases he
    · obtain ⟨ke, st3, hke, h1⟩ := Coding.bind_eq_ok hpush
      cases h1
      obtain ⟨ks, hks, rfl⟩ := CodedEach.of_valuesCode hke
      obtain ⟨rfl, rfl⟩ := hks.unique hitems
      rw [hks.length, hrun.length] at hpop
      exact hlays hk hrun.pushes hpop
  | @whole i v s a _ hs hbegins hlen hws hroom =>
    rcases Coder.emitFrom_eq_ok h with
      ⟨i', v', s', he, hs', hmode, rfl, rfl, rfl⟩ | ⟨hmode, pushed, count, popped, st2, hpush, hpop, hk⟩
    · cases he
      obtain rfl : s = s' := Option.some.inj (hs.symm.trans hs')
      obtain rfl : a = s.offset := by simpa only [Storage.Begins, hmode] using hbegins
      exact ⟨m.memory, .refl m, fun j hj => hws j (hlen ▸ hj), fun _ _ => rfl⟩
    · have hstands : pushed.Stands m.image m.pc := by
        have hstands := hpart _ hW
        rw [hk] at hstands
        exact hstands.left
      obtain ⟨rfl, hsteps⟩ := Coder.pushWords_variable hpush hs (hsize.trans hlen) hwords hmemory hbegins
        hlen hws hstands (hroom (hmode i v s rfl hs))
      obtain ⟨memory, hpopped, hlaid, hother⟩ := hlays hk ⟨⟨hsteps, rfl, hW⟩, rfl⟩ hpop
      exact ⟨memory, hsteps.trans hpopped, hlaid, hother⟩

end

/-! ### Statements -/

/-- An event is known by its place among the declared ones, the first of its name. -/
theorem Settings.userEvent?_eq_some {settings : Settings} {name : String} {id : Word} {decl : UserEvent}
    (h : settings.userEvent? name = some (id, decl)) :
    ∃ i, id = UInt16.ofNat i ∧ settings.userEvents[i]? = some decl ∧ decl.name = name ∧
      ∀ j < i, ∀ d, settings.userEvents[j]? = some d → d.name ≠ name := by
  obtain ⟨⟨d, i⟩, hfind, hid⟩ := Option.map_eq_some_iff.mp h
  obtain ⟨rfl, rfl⟩ := Prod.mk.inj hid
  obtain ⟨hname, j, hj, hat, hfirst⟩ := List.find?_eq_some_iff_getElem.mp hfind
  rw [List.getElem_zipIdx, Nat.zero_add] at hat
  obtain ⟨rfl, rfl⟩ := Prod.mk.inj hat
  rw [List.length_zipIdx] at hj
  refine ⟨j, rfl, List.getElem?_eq_getElem hj, beq_iff_eq.mp hname, fun l hl d hd => ?_⟩
  have hother := hfirst l hl
  rw [List.getElem_zipIdx] at hother
  obtain ⟨-, rfl⟩ := List.getElem?_eq_some_iff.mp hd
  simpa using hother

/-- An event is sent with as many words as are declared for it. -/
theorem Coder.emit_eq_ok {c : Coder} {event : String} {value : Option Expr} {span : Span} {k : Code}
    {st st' : Coding.State} (h : c.emit event value span st = .ok (k, st')) :
    ∃ id decl kv addr, c.settings.userEvent? event = some (id, decl) ∧
      (value.map (·.size)).getD 0 = decl.size ∧ c.Fits addr ∧
      (value = none ∧ kv = [] ∧ st' = st ∨ ∃ e, value = some e ∧ c.emitFrom e st = .ok ((kv, addr), st')) ∧
      k = kv ++ plain [.emit id (UInt16.ofNat addr) (UInt16.ofNat decl.size)] := by
  unfold Coder.emit at h
  cases hevent : c.settings.userEvent? event with
  | none =>
    rw [hevent] at h
    cases h
  | some found =>
    obtain ⟨id, decl⟩ := found
    rw [hevent] at h
    dsimp only at h
    by_cases hsize : (value.map (·.size)).getD 0 = decl.size
    · rw [if_neg (not_not_intro hsize), hsize] at h
      cases value with
      | none =>
        obtain ⟨_, st1, hnone, h1⟩ := Coding.bind_eq_ok h
        cases hnone
        obtain ⟨w, st2, haddr, h2⟩ := Coding.bind_eq_ok h1
        obtain ⟨rfl, rfl, hfits⟩ := Coder.address_eq_ok haddr
        cases h2
        exact ⟨id, decl, [], 0, rfl, hsize, hfits, .inl ⟨rfl, rfl, rfl⟩, rfl⟩
      | some e =>
        obtain ⟨⟨kv, addr⟩, st1, hfrom, h1⟩ := Coding.bind_eq_ok h
        obtain ⟨w, st2, haddr, h2⟩ := Coding.bind_eq_ok h1
        obtain ⟨rfl, rfl, hfits⟩ := Coder.address_eq_ok haddr
        cases h2
        exact ⟨id, decl, kv, addr, rfl, hsize, hfits, .inr ⟨e, rfl, hfrom⟩, rfl⟩
    · rw [if_pos hsize] at h
      cases h

/-- The code of an `emit` sends its value: from the state behind the evaluation the
machine comes to the end of the statement, with just one more event. The event has
the place of its declaration for an id and carries as many words as are declared,
those of the value in storage order as it was evaluated. Of memory no word has
changed since but temporaries, which lie behind all that is declared. -/
theorem emit_sends_value {c : Coder} {flows : List Flow} {span : Span} {event : String} {value : Option Expr}
    {st st' : Coding.State} {k : Code}
    (hcode : (Stmt.emit span event value).code c flows st = .ok (k, st'))
    (hwords : c.node.maxVarSize ≤ 4096) (hevents : c.settings.userEvents.length ≤ 4096) :
    ∃ (i : Nat) (decl : UserEvent), c.settings.userEvents[i]? = some decl ∧ decl.name = event ∧
      (∀ j < i, ∀ d, c.settings.userEvents[j]? = some d → d.name ≠ event) ∧
      ∀ (m n : State) (ws : List Cell), k.Stands m.image m.pc → m.memory.size = c.node.maxVarSize →
        (value.map (·.size)).getD 0 = ws.length → EventValue c m.pc k ⟨c.tempTop, span⟩ m value ws n →
        ws.length = decl.size ∧ ∃ memory,
          Steps c.node n { n with
            emitted := n.emitted.push ⟨UInt16.ofNat i, ws⟩
            memory, stack := m.stack, pc := m.pc + size k } ∧
          ∀ j, j < c.moduleSize ∨ j < st'.nextTemp ∨ st'.nextTemp + ws.length ≤ j →
            memory[j]? = n.memory[j]? := by
  unfold Stmt.code at hcode
  replace hcode : c.statement span true (c.emit event value span) st = .ok (k, st') := hcode
  obtain ⟨k', hemit, rfl⟩ := Coder.statement_eq_ok hcode
  rw [if_pos rfl]
  obtain ⟨id, decl, kv, addr, hevent, hdecl, hfits, hsent, rfl⟩ := Coder.emit_eq_ok hemit
  obtain ⟨i, rfl, hat, hname, hfirst⟩ := Settings.userEvent?_eq_some hevent
  refine ⟨i, decl, hat, hname, hfirst, fun m n ws hk hmemory hsize hvalue => ?_⟩
  have hlen : ws.length = decl.size := hsize.symm.trans hdecl
  have hlays : c.Lays n ws addr st'.nextTemp m.stack (m.pc + size kv) := by
    rcases hsent with ⟨rfl, rfl, rfl⟩ | ⟨e, rfl, hfrom⟩
    · cases hvalue
      exact ⟨m.memory, .refl m, nofun, fun _ _ => rfl⟩
    · exact Coder.emitFrom_lays hfrom hwords hmemory hk (fun _ h => h.unmarked.left) hvalue hsize
  obtain ⟨memory, hsteps, hlaid, hother⟩ := hlays
  obtain ⟨hreached, hstands⟩ := hvalue.reaches hk
  refine ⟨hlen, memory, hsteps.trans ?_, hother⟩
  have hi : (UInt16.ofNat i).toNat < 4096 := by
    have hlt := (List.getElem?_eq_some_iff.mp hat).1
    rw [UInt16.toNat_ofNat', Nat.mod_eq_of_lt (by omega)]
    omega
  have hcount : ws.length < 65536 := by
    have hkept : memory.size = c.node.maxVarSize := (hreached.trans hsteps).memory_size.trans hmemory
    rcases Nat.eq_zero_or_pos ws.length with hnone | hpos
    · omega
    · have hle := add_size_le rfl hlaid hpos
      omega
  have hsend := hstands.unmarked.right
  rw [← hlen] at hsend
  have hend : m.pc + size (.mark span :: (kv ++ plain [.emit (UInt16.ofNat i) (UInt16.ofNat addr)
      (UInt16.ofNat decl.size)])) = m.pc + size kv + 3 := by
    rw [Code.size_cons, Code.size_append, ← Nat.add_assoc, ← Nat.add_assoc]
    rfl
  rw [hend]
  exact steps_emit (m := { n with memory, stack := m.stack, pc := m.pc + size kv }) hi
    (Nat.lt_trans hfits.1 (by decide)) hcount hlaid hsend

/-- Two words that are passed by reference: the frame pointer is 4 and the slot
behind it points to the start of memory. -/
theorem emit_sends_value_reference :
    ∃ (c : Coder) (value : Expr) (st' : Coding.State) (k : Code) (m : State) (memory : Array Cell),
      c.settings.userEvents = [⟨"d", 1⟩, ⟨"e", 2⟩] ∧ c.node.maxVarSize ≤ 4096 ∧
      (Stmt.emit default "e" (some value)).code c [] default = .ok (k, st') ∧ k.Stands m.image m.pc ∧
      m.memory = #[7, 8, 0, 0, 0, 0, 0, 0, 0, 4] ∧ m.stack = [] ∧ m.emitted = #[] ∧
      Steps c.node m { m with emitted := #[⟨1, [7, 8]⟩], memory, pc := size k } ∧
      memory[0]? = some 7 ∧ memory[1]? = some 8 := by
  let c : Coder := ⟨⟨"", 10, [], [], []⟩, ⟨.l2, 1, [⟨"d", 1⟩, ⟨"e", 2⟩]⟩, 2, some 2, .ret⟩
  let s : Storage := ⟨1, [2], .int, .reference⟩
  let value : Expr := .var ⟨default, .int, [2]⟩ ⟨"a", some s⟩
  let k : Code := .mark default :: plain [.load 9, .loadIndirect 1 10, .loadIndirect 0 10,
    .load 9, .loadIndirect 1 10, .immediate 1, .binary .add, .loadIndirect 0 10,
    .store 7, .store 6, .emit 1 6 2]
  let m : State := { State.start c.node k.words with memory := #[7, 8, 0, 0, 0, 0, 0, 0, 0, 4] }
  have hcode : (Stmt.emit default "e" (some value)).code c [] default = .ok (k, ⟨6, default⟩) := rfl
  have hW : k.Stands m.image m.pc := k.stands_words
  have hvalue : EventValue c m.pc k ⟨c.tempTop, default⟩ m (some value) [7, 8] m :=
    .whole rfl ⟨4, 0, rfl, rfl, rfl⟩ rfl (by decide) fun _ => by decide
  obtain ⟨i, decl, hat, hname, -, hsent⟩ := emit_sends_value hcode (by decide) (by decide)
  obtain rfl : i = 1 := by
    rcases i with _ | _ | i
    · cases hat
      exact absurd hname (by decide)
    · rfl
    · cases hat
  obtain ⟨-, memory, hsteps, hother⟩ := hsent m m [7, 8] hW rfl rfl hvalue
  refine ⟨c, value, _, k, m, memory, rfl, by decide, hcode, hW, rfl, rfl, rfl, ?_, hother 0 (.inl (by decide)),
    hother 1 (.inl (by decide))⟩
  have hend : m.pc + size k = size k := Nat.zero_add _
  rw [hend] at hsteps
  exact hsteps

end RobotScript
