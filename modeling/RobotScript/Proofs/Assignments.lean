/-
# Assignments

An assignment reads its target as often as its form asks for, before its value is
computed and behind that, and writes it once. Each time the element is found anew.
A position that is known, or was saved, is found as it was, but one that is computed
again is computed in the memory of that moment: the element that is written is the
one that the indices select once the value has been computed. If all positions are
the same, one element is read and written, and the value is the one stored, or for a
postfix operator the one before. They are the same if the value and the store leave
the temporary or the indices as they were.

Key definitions: `Spot.Found`, `Spot.value`, `AssignmentTrace`.
Key theorems: `Spot.Reads.run`, `AssignmentTrace.Runs.same_position`, `assignment_follows_positions`.
-/
import RobotScript.Proofs.ElementPositions
import RobotScript.Proofs.ExprValues

namespace RobotScript

open Machine (Instr State)
open Code (plain size)

/-! ### The code of an assignment -/

variable {c : Coder} {st st' : Coding.State}

/-- An assignment finds its place, reads it, computes its value, writes the place
and reads it again. -/
theorem Expr.code_assignment_eq_ok {i : Info} {o : Op} {target value : Expr} {goal : Goal} {k : Code}
    (ho : o.isAssignment = true) (h : (Expr.op i o [target, value]).code c goal st = .ok (k, st')) :
    ∃ setup place st0 before st1 kv st2 store st3 behind,
      target.placeOf c (goal ≠ .effect || o ≠ .assign) st = .ok ((setup, place), st0) ∧
      place.loads c (o.readsBefore (goal ≠ .effect)) st0 = .ok (before, st1) ∧
      value.code c .value st1 = .ok (kv, st2) ∧ place.store c st2 = .ok (store, st3) ∧
      place.loads c (o.readsBehind (goal ≠ .effect)) st3 = .ok (behind, st') ∧
      k = Coder.reachUsed goal (setup ++ (before ++ kv ++ store ++ behind)) := by
  have h : (target.placeOf c (goal ≠ .effect || o ≠ .assign) >>= fun x =>
      c.assign o (goal ≠ .effect) x.2 (value.code c .value) >>= fun assigned =>
        pure (Coder.reachUsed goal (x.1 ++ assigned))) st = .ok (k, st') := by
    unfold Expr.code at h
    cases o with
    | assign | compound _ | preIncrement | preDecrement | postIncrement | postDecrement => exact h
    | _ => cases ho
  obtain ⟨⟨setup, place⟩, st0, hplace, h1⟩ := Coding.bind_eq_ok h
  obtain ⟨assigned, st4, hassign, h2⟩ := Coding.bind_eq_ok h1
  cases h2
  rw [Coder.assign_eq] at hassign
  obtain ⟨before, st1, hbefore, h3⟩ := Coding.bind_eq_ok hassign
  obtain ⟨kv, st2, hvalue, h4⟩ := Coding.bind_eq_ok h3
  obtain ⟨store, st3, hstore, h5⟩ := Coding.bind_eq_ok h4
  obtain ⟨behind, st5, hbehind, h6⟩ := Coding.bind_eq_ok h5
  cases h6
  exact ⟨setup, place, st0, before, st1, kv, st2, store, st3, behind, hplace, hbefore, hvalue, hstore,
    hbehind, rfl⟩

/-- The target of an assignment as code is generated for it. Where it is used more than
once, a position with an effect is saved. -/
def Expr.spot (reused : Bool) (temp : Nat) : Expr → Spot
  | index _ _ es => match knownIndex? es with
    | some j => .known j
    | none => if reused && !allPure es then .saved temp else .computed es
  | _ => .known 0

theorem Expr.placeOf_spot {target : Expr} {reused : Bool} {setup : Code} {place : Place}
    (h : target.placeOf c reused st = .ok ((setup, place), st')) :
    ∃ s, place = (target.spot reused st'.nextTemp).place c s := by
  cases target with
  | var i v =>
    obtain ⟨s, _, -, h⟩ := Coding.bind_eq_ok h
    cases h
    exact ⟨s, rfl⟩
  | index i v es =>
    unfold placeOf at h
    obtain ⟨s, _, -, h⟩ := Coding.bind_eq_ok h
    rw [Coder.elementPlace_eq] at h
    refine ⟨s, ?_⟩
    split at h
    · rename_i hes
      cases h
      rw [spot, hes]
      rfl
    · rename_i hes
      rw [spot, hes]
      dsimp only
      split at h
      · obtain ⟨_, _, -, h⟩ := Coding.bind_eq_ok h
        obtain ⟨base, _, hbase, h⟩ := Coding.bind_eq_ok h
        obtain ⟨_, _, haddress, h⟩ := Coding.bind_eq_ok h
        cases h
        obtain ⟨rfl, rfl, -⟩ := Coder.address_eq_ok haddress
        rw [if_pos (by assumption), (Coding.temps_eq_ok hbase).2.2]
        rfl
      · cases h
        rw [if_neg (by assumption)]
        rfl
  | _ => cases h

/-- A place that is used more than once can be found again. -/
theorem Expr.spot_repeatable {target : Expr} (hindexed : target.Every Expr.IsIndexed) (temp : Nat) :
    (target.spot true temp).Repeatable := by
  unfold spot
  split
  · rename_i es
    split
    · trivial
    · split
      · trivial
      · rename_i hpure
        have hall : allPure es = true := by simpa using hpure
        exact ⟨hindexed.top, fun e he => ⟨isPure_of_allPure hall e he, hindexed.operands e he⟩⟩
  · trivial

/-! ### How an element is found -/

variable {s : Storage} {spot : Spot} {a base f : Nat} {W : Code} {m m' n : State}

/-- A use of the place from `m` on has come to the position `f` in its variable by
the time of `n`. A position that can be computed again is, by code that is run
straight through; code with an effect may call functions on the way. -/
inductive Spot.Finds (c : Coder) (s : Storage) (a base : Nat) (W : Code) (st : Coding.State) (m : State) :
    Spot → Nat → State → Prop
  | known {f : Nat} : Finds c s a base W st m (.known f) f m
  | again {spot : Spot} {kp : Code} {st' : Coding.State} {f : Nat} {n : State} (hspot : spot.Repeatable)
    (hne : ∀ j, spot ≠ .known j) (hcode : (spot.place c s).position st = .ok (kp, st'))
    (hrun : kp.Crosses c.node (s.ready c a m) n) (htop : n.stack.head? = some (Int16.ofNat f)) :
    Finds c s a base W st m spot f n
  | once {spot : Spot} {kp : Code} {st' : Coding.State} {f : Nat} {n : State} (hspot : ¬spot.Repeatable)
    (hcode : (spot.place c s).position st = .ok (kp, st'))
    (hrun : Stacks c.node base W kp [Int16.ofNat f] (s.ready c a m) n) : Finds c s a base W st m spot f n

/-- The position lies in the variable, which is at `a` before and behind. -/
structure Spot.Found (c : Coder) (s : Storage) (spot : Spot) (a base : Nat) (W : Code) (st : Coding.State)
    (m : State) (f : Nat) (n : State) : Prop where
  position : Spot.Finds c s a base W st m spot f n
  inside : f < s.size
  before : s.Begins c.node m.memory a
  behind : s.Begins c.node n.memory a

section

variable (hwords : c.node.maxVarSize ≤ 4096) (hcount : c.node.nativeFunctions.length ≤ 4096)
  (hmemory : m.memory.size = c.node.maxVarSize) (htemps : st.nextTemp ≤ c.node.maxVarSize)

include hwords hcount hmemory htemps

/-- Code that is run again leaves the position, and no more than temporaries and
the return slot changed. -/
theorem Spot.Repeatable.crosses {kp : Code} (hspot : spot.Repeatable)
    (hcode : (spot.place c s).position st = .ok (kp, st')) (hrun : kp.Crosses c.node (s.ready c a m) n)
    (htop : n.stack.head? = some (Int16.ofNat f)) :
    n.stack = Int16.ofNat f :: (s.ready c a m).stack ∧ n.image = m.image ∧
      ∀ j, ¬c.Spare st'.nextTemp st.nextTemp j → n.memory[j]? = m.memory[j]? := by
  obtain ⟨-, g, hg⟩ := hspot.position hwords hcount htemps hcode
  obtain ⟨⟨ws, memory⟩, hy, rfl⟩ := hg.acts.of_crosses [] hrun rfl rfl hmemory
  obtain ⟨hlength, -, hsame⟩ := hg.keeps _ _ rfl hmemory hy
  obtain ⟨i, rfl⟩ := List.length_eq_one_iff.mp hlength
  obtain rfl : i = Int16.ofNat f := Option.some.inj htop
  exact ⟨rfl, rfl, hsame⟩

theorem Spot.Finds.stacks {kp : Code} (h : Spot.Finds c s a base W st m spot f n)
    (hne : ∀ j, spot ≠ .known j) (hcode : (spot.place c s).position st = .ok (kp, st'))
    (hW : W.Stands m.image base) : Stacks c.node base W kp [Int16.ofNat f] (s.ready c a m) n := by
  cases h with
  | known => exact absurd rfl (hne _)
  | again hspot _ hcode' hrun htop =>
    cases hcode.symm.trans hcode'
    obtain ⟨hstack, himage, -⟩ := hspot.crosses hwords hcount hmemory htemps hcode hrun htop
    exact ⟨⟨hrun.within.steps, hrun.pc, himage ▸ hW⟩, hstack⟩
  | once _ hcode' hrun =>
    cases hcode.symm.trans hcode'
    exact hrun

/-- The word at the position is used. Finding a position that can be computed again
changes no more than temporaries and the return slot. -/
theorem Spot.Found.uses {use : Use} {k : Code} (h : spot.Found c s a base W st m f n) (huse : use ≠ .address)
    (hk : (spot.place c s).use c use st = .ok (k, st')) (hlies : a + s.size ≤ m.memory.size)
    (hW : W.Stands m.image base) (hpart : ∀ image, W.Stands image base → k.Stands image m.pc)
    (hroom : m.stack.length + 2 ≤ Machine.stackSize) :
    Steps c.node m n ∧ W.Stands n.image base ∧
      Uses c.node use (a + f) m.stack (m.pc + size k) n ∧
      (spot.Repeatable → st'.nextTemp ≤ st.nextTemp ∧
        ∀ j, ¬c.Spare st'.nextTemp st.nextTemp j → n.memory[j]? = m.memory[j]?) := by
  by_cases hknown : ∃ j, spot = .known j
  · obtain ⟨j, rfl⟩ := hknown
    cases h.position with
    | known =>
      obtain ⟨rfl, huses⟩ := Place.uses_known hk huse (fun _ => hwords) hmemory h.before h.inside hlies
        (hpart _ hW) (by split <;> omega)
      exact ⟨.refl m, hW, huses, fun _ => ⟨Nat.le_refl _, fun _ _ => rfl⟩⟩
    | again _ hne => exact absurd rfl (hne j)
    | once hspot => exact absurd trivial hspot
  · have hne (j : Nat) : spot ≠ .known j := fun h => hknown ⟨j, h⟩
    have hdirect : (spot.place c s).direct? c use = none := by
      cases spot with
      | known j => exact absurd rfl (hne j)
      | computed _ | saved _ => rfl
    obtain ⟨husable, kp, hcode, rfl⟩ := Place.use_indexed hdirect hk
    have hrun := h.position.stacks hwords hcount hmemory htemps hne hcode hW
    obtain ⟨hsteps, huses⟩ := h.before.uses_found huse husable (by show s.size < _; omega) (fun _ => hwords)
      hmemory h.behind h.inside hlies hpart hW hrun hroom
    refine ⟨hsteps, hrun.code, huses, fun hspot => ⟨(hspot.position hwords hcount htemps hcode).1, ?_⟩⟩
    cases h.position with
    | known => exact absurd rfl (hne f)
    | again _ _ hcode' hcross htop =>
      cases hcode.symm.trans hcode'
      exact (hspot.crosses hwords hcount hmemory htemps hcode hcross htop).2.2
    | once honce => exact absurd hspot honce

end

/-! ### Reading the target -/

/-- The place is read at one position after another, and the words are pushed. -/
inductive Spot.Reads (c : Coder) (s : Storage) (spot : Spot) (a base : Nat) (W : Code) :
    Coding.State → List Nat → State → State → Prop
  | nil {st : Coding.State} {m : State} : Reads c s spot a base W st [] m m
  | cons {st st1 : Coding.State} {f : Nat} {fs : List Nat} {k : Code} {m n m' : State}
    (hload : (spot.place c s).load c st = .ok (k, st1)) (hfound : spot.Found c s a base W st m f n)
    (hrest : Reads c s spot a base W st1 fs
      { n with stack := n.word (a + f) :: m.stack, pc := m.pc + size k } m') :
    Reads c s spot a base W st (f :: fs) m m'

theorem Coder.Spare.mono {lo hi lo' hi' j : Nat} (h : c.Spare lo hi j) (hlo : lo' ≤ lo) (hhi : hi ≤ hi') :
    c.Spare lo' hi' j :=
  h.imp_right fun ⟨hl, hh⟩ => ⟨Nat.le_trans hlo hl, Nat.lt_of_lt_of_le hh hhi⟩

theorem Machine.State.word_congr {j : Nat} (h : n.memory[j]? = m.memory[j]?) : n.word j = m.word j := by
  rw [State.word, State.word, Array.getD_eq_getD_getElem?, Array.getD_eq_getD_getElem?, h]

theorem Machine.State.word_setWord {g : Nat} {v : Cell} (h : a + f < m.memory.size) :
    (m.setWord (a + f) v).word (a + g) = if g = f then v else m.word (a + g) := by
  show (m.memory.setIfInBounds (a + f) v).getD (a + g) 0 = _
  rw [Array.getD_eq_getD_getElem?]
  split
  · rename_i hg
    rw [hg, Array.getElem?_setIfInBounds_self_of_lt h, Option.getD_some]
  · rw [Array.getElem?_setIfInBounds_ne (by omega), State.word, Array.getD_eq_getD_getElem?]

/-- What is pushed are the words at the positions as they were in the first place. -/
theorem Spot.Reads.run {fs : List Nat} {k : Code} (h : spot.Reads c s a base W st fs m m')
    (hwords : c.node.maxVarSize ≤ 4096) (hcount : c.node.nativeFunctions.length ≤ 4096)
    (hmemory : m.memory.size = c.node.maxVarSize) (htemps : st.nextTemp ≤ c.node.maxVarSize)
    (hspot : fs ≠ [] → spot.Repeatable) (hcode : (spot.place c s).loads c fs.length st = .ok (k, st'))
    (hlies : a + s.size ≤ m.memory.size) (hW : W.Stands m.image base)
    (hpart : ∀ image, W.Stands image base → k.Stands image m.pc)
    (hapart : ∀ j < s.size, ¬c.Spare st'.nextTemp st.nextTemp (a + j))
    (hroom : m.stack.length + fs.length + 1 ≤ Machine.stackSize) :
    Passes c.node base W (size k) m m' ∧ m'.stack = (fs.map fun f => m.word (a + f)).reverse ++ m.stack ∧
      st'.nextTemp ≤ st.nextTemp ∧ (∀ f ∈ fs, f < s.size) ∧
      ∀ j, ¬c.Spare st'.nextTemp st.nextTemp j → m'.memory[j]? = m.memory[j]? := by
  induction h generalizing k with
  | nil =>
    cases hcode
    exact ⟨⟨.refl _, rfl, hW⟩, rfl, Nat.le_refl _, nofun, fun _ _ => rfl⟩
  | @cons st st1 f fs kl m n m' hload hfound _ ih =>
    rw [List.length_cons] at hroom hcode
    obtain ⟨kl', st2, hload', h1⟩ := Coding.bind_eq_ok hcode
    cases hload.symm.trans hload'
    obtain ⟨kr, st3, hloads, h2⟩ := Coding.bind_eq_ok h1
    cases h2
    have hspot := hspot (List.cons_ne_nil f fs)
    obtain ⟨hsteps, hstands, huses, hkeeps⟩ := hfound.uses hwords hcount hmemory htemps
      (show Use.load ≠ .address from nofun) hload hlies hW (fun _ h => (hpart _ h).left) (by omega)
    obtain ⟨hle, hsame⟩ := hkeeps hspot
    have hkept := hsteps.memory_size
    obtain ⟨hpasses, hstack, hle', hinside, hrest⟩ := ih (hkept.trans hmemory) (by omega) (fun _ => hspot) hloads
      (hkept ▸ hlies) hstands (fun _ h => (hpart _ h).right)
      (fun j hj h => hapart j hj (h.mono (Nat.le_refl _) hle)) (by rw [List.length_cons]; omega)
    have hkeep (j : Nat) (hj : ¬c.Spare st'.nextTemp st.nextTemp j) : n.memory[j]? = m.memory[j]? :=
      hsame j fun h => hj (h.mono hle' (Nat.le_refl _))
    have hword (g : Nat) (hg : g < s.size) : n.word (a + g) = m.word (a + g) :=
      State.word_congr (hkeep _ (hapart g hg))
    refine ⟨⟨(hsteps.trans (huses.load rfl)).trans hpasses.steps, ?_, hpasses.code⟩, ?_, Nat.le_trans hle' hle,
      List.forall_mem_cons.mpr ⟨hfound.inside, hinside⟩, fun j hj => ?_⟩
    · rw [hpasses.pc, Code.size_append, Nat.add_assoc]
    · have hothers : (fs.map fun g => n.word (a + g)) = fs.map fun g => m.word (a + g) :=
        List.map_congr_left fun g hg => hword g (hinside g hg)
      rw [hstack, List.map_cons, List.reverse_cons, List.append_assoc, ← hword f hfound.inside, ← hothers]
      rfl
    · exact (hrest j fun h => hj (h.mono (Nat.le_refl _) hle)).trans (hkeep j hj)

/-! ### Runs of an assignment -/

/-- A run of an assignment: where its variable begins, the positions at which it is
read, written and read again, and the value. With these go the machine with the place
prepared, the old value pushed, the new value pushed, the place found for writing,
and at the end, and the states of generating code in between. -/
structure AssignmentTrace where
  address : Nat
  reads : List Nat
  written : Nat
  rereads : List Nat
  value : Cell
  prepared : State
  operands : State
  valued : State
  found : State
  finished : State
  read : Coding.State
  computed : Coding.State
  stored : Coding.State

/-- The machine has run the code `k` of an assignment from `m` on as the trace says. -/
structure AssignmentTrace.Runs (x : AssignmentTrace) (c : Coder) (o : Op) (value : Expr) (used : Bool) (s : Storage)
    (spot : Spot) (setup : Code) (st st' : Coding.State) (k : Code) (m : State) : Prop where
  prepares : Passes c.node m.pc k (size setup) m x.prepared
  stack : x.prepared.stack = m.stack
  reads : spot.Reads c s x.address m.pc k st x.reads x.prepared x.operands
  reads_length : x.reads.length = o.readsBefore used
  loads : ∃ kl, (spot.place c s).loads c x.reads.length st = .ok (kl, x.read)
  computes : ∃ kv, value.code c .value x.read = .ok (kv, x.computed) ∧
    Passes c.node m.pc k (size kv) x.operands x.valued
  pushes : x.valued.stack = x.value :: x.operands.stack.drop o.takes
  finds : spot.Found c s x.address m.pc k x.computed x.valued x.written x.found
  rereads : ∃ ks, (spot.place c s).store c x.computed = .ok (ks, x.stored) ∧
    spot.Reads c s x.address m.pc k x.stored x.rereads
      { x.found.setWord (x.address + x.written) x.value with
        stack := x.valued.stack.tail, pc := x.valued.pc + size ks } x.finished
  rereads_length : x.rereads.length = o.readsBehind used
  lies : x.address + s.size ≤ m.memory.size
  apart : ∀ j < s.size, ¬c.Spare x.read.nextTemp st.nextTemp (x.address + j) ∧
    ¬c.Spare st'.nextTemp x.stored.nextTemp (x.address + j)

/-- What the run of an assignment has read, written and pushed. Besides the word that
is written it has changed temporaries and the return slot, but for what its value and
its indices do. -/
structure AssignmentTrace.Assigns (x : AssignmentTrace) (c : Coder) (o : Op) (used : Bool) (st st' : Coding.State) :
    Prop where
  operands : x.operands.stack =
    (x.reads.map fun g => x.prepared.word (x.address + g)).reverse ++ x.prepared.stack
  kept : ∀ j, ¬c.Spare x.read.nextTemp st.nextTemp j → x.operands.memory[j]? = x.prepared.memory[j]?
  stored : x.finished.memory[x.address + x.written]? = some x.value
  others : ∀ j, j ≠ x.address + x.written → ¬c.Spare st'.nextTemp x.stored.nextTemp j →
    x.finished.memory[j]? = x.found.memory[j]?
  pushed : x.finished.stack = (x.rereads.map fun g =>
      if g = x.written then x.value else x.found.word (x.address + g)).reverse ++
    ((x.reads.map fun g => x.prepared.word (x.address + g)).dropLast ++ x.prepared.stack)
  one : (∀ g ∈ x.reads ++ x.rereads, g = x.written) → x.finished.stack =
    (if used then [o.result (x.prepared.word (x.address + x.written)) x.value] else []) ++ x.prepared.stack

section

variable {x : AssignmentTrace} {o : Op} {value : Expr} {used : Bool} {setup k : Code}

/-- The words on the stack are those at the positions read, but for the one that the
value has taken. -/
theorem drop_takes {ws rest : List Cell} (h : ws.length = o.readsBefore used) :
    (ws.reverse ++ rest).drop o.takes = ws.dropLast ++ rest := by
  obtain ⟨hb, ht, -⟩ | ⟨hb, ht, -⟩ | ⟨hb, ht, -⟩ := o.forms used
  · obtain rfl := List.eq_nil_of_length_eq_zero (h.trans hb)
    rw [ht]
    rfl
  · obtain ⟨w, rfl⟩ := List.length_eq_one_iff.mp (h.trans hb)
    rw [ht]
    rfl
  · cases used with
    | false =>
      obtain ⟨w, rfl⟩ := List.length_eq_one_iff.mp (h.trans hb)
      rw [ht]
      rfl
    | true =>
      obtain ⟨v, w, rfl⟩ := List.length_eq_two.mp (h.trans hb)
      rw [ht]
      rfl

/-- Temporaries are handed out downwards. -/
theorem Coding.Brings.le_tempTop {α : Type} {y : Coding α} {r : α} {Q : α → Nat → Prop} (h : Brings c st.nextTemp y Q)
    (hrun : y st = .ok (r, st')) (htop : st.nextTemp ≤ c.tempTop) : st'.nextTemp ≤ c.tempTop := by
  obtain ⟨⟨es, hes⟩, -⟩ := h st r st' rfl hrun
  have hdescends := hes.descends
  rw [← List.append_nil es] at hdescends
  obtain ⟨mid, hmid, rfl⟩ := Descends.split es htop hdescends
  exact hmid

theorem AssignmentTrace.Runs.assigns {st1 st2 st3 : Coding.State} {before kv store behind rest : Code}
    (hx : x.Runs c o value used s spot setup st st' k m) (hwords : c.node.maxVarSize ≤ 4096)
    (hcount : c.node.nativeFunctions.length ≤ 4096) (hmemory : m.memory.size = c.node.maxVarSize)
    (htop : st.nextTemp ≤ c.tempTop) (hspot : x.reads ++ x.rereads ≠ [] → spot.Repeatable)
    (hbefore : (spot.place c s).loads c (o.readsBefore used) st = .ok (before, st1))
    (hvalue : value.code c .value st1 = .ok (kv, st2)) (hstore : (spot.place c s).store c st2 = .ok (store, st3))
    (hbehind : (spot.place c s).loads c (o.readsBehind used) st3 = .ok (behind, st'))
    (hk : k = setup ++ (before ++ (kv ++ (store ++ (behind ++ rest)))))
    (hroom : m.stack.length + 4 ≤ Machine.stackSize) :
    Passes c.node m.pc k (size (setup ++ (before ++ kv ++ store ++ behind))) m x.finished ∧
      x.Assigns c o used st st' ∧ x.valued.memory.size = m.memory.size ∧ x.found.memory.size = m.memory.size := by
  have hreads : x.reads.length ≤ 2 := hx.reads_length ▸ (o.reads_le used).1
  -- what is behind each piece is in the code that stands
  have hpart (image : Array Word) (h : k.Stands image m.pc) :
      (setup ++ (before ++ (kv ++ (store ++ (behind ++ rest))))).Stands image m.pc := hk ▸ h
  have hprepared := hx.prepares
  have hmemory0 := hprepared.steps.memory_size
  -- the target is read
  obtain ⟨kl, hloads⟩ := hx.loads
  rw [hx.reads_length] at hloads
  cases hbefore.symm.trans hloads
  obtain ⟨hread, hoperands, hle, -, hkept⟩ := hx.reads.run hwords hcount (hmemory0.trans hmemory)
    (Nat.le_trans htop c.tempTop_le) (fun h => hspot fun h' => h (List.append_eq_nil_iff.mp h').1)
    (hx.reads_length ▸ hbefore) (hmemory0 ▸ hx.lies) hprepared.code
    (fun _ h => hprepared.pc ▸ (hpart _ h).right.left) (fun j hj => (hx.apart j hj).1) (by rw [hx.stack]; omega)
  have htop1 := Nat.le_trans hle htop
  -- the value is computed
  obtain ⟨kv', hvalue', hcomputed⟩ := hx.computes
  cases hvalue.symm.trans hvalue'
  have htop2 := ((Expr.drafted value).code .value _).le_tempTop hvalue htop1
  have hpushes := hx.pushes
  rw [hoperands, drop_takes (by rw [List.length_map, hx.reads_length])] at hpushes
  have hreached := (hprepared.steps.trans hread.steps).trans hcomputed.steps
  have hmemory2 := hreached.memory_size
  have hpc2 : x.valued.pc = m.pc + size setup + size before + size kv := by
    rw [hcomputed.pc, hread.pc, hprepared.pc]
  have hwritten (image : Array Word) (h : k.Stands image m.pc) :
      (store ++ (behind ++ rest)).Stands image x.valued.pc := hpc2 ▸ (hpart image h).right.right.right
  have hlength : x.valued.stack.length ≤ m.stack.length + 2 := by
    rw [hpushes, List.length_cons, List.length_append, List.length_dropLast, List.length_map, hx.stack]
    omega
  -- the place is found once more and written
  obtain ⟨ks, hstore', hrereads⟩ := hx.rereads
  cases hstore.symm.trans hstore'
  have htop3 := (Place.use_brings .store (spot.drafted s)).le_tempTop hstore htop2
  obtain ⟨hfound, hcode3, huses, -⟩ := hx.finds.uses hwords hcount (hmemory2.trans hmemory)
    (Nat.le_trans htop2 c.tempTop_le) (show Use.store ≠ .address from nofun) hstore (hmemory2 ▸ hx.lies)
    hcomputed.code (fun _ h => (hwritten _ h).left) (by omega)
  have hwrite := huses.store rfl x.value _ hpushes
  have hmemory3 := hfound.memory_size
  have hset : (x.found.memory.setIfInBounds (x.address + x.written) x.value).size = m.memory.size := by
    rw [Array.size_setIfInBounds, hmemory3, hmemory2]
  have hin : x.address + x.written < x.found.memory.size := by
    have hinside := hx.finds.inside
    have hlies := hx.lies
    omega
  -- the target is read again
  rw [hpushes, List.tail_cons] at hrereads
  rw [← hx.rereads_length] at hbehind
  have hrereads_le : x.rereads.length ≤ 1 := hx.rereads_length ▸ (o.reads_le used).2
  obtain ⟨hreread, hresult, -, hinside, hother⟩ := hrereads.run hwords hcount (hset.trans hmemory)
    (Nat.le_trans htop3 c.tempTop_le) (fun h => hspot fun h' => h (List.append_eq_nil_iff.mp h').2) hbehind
    (hset ▸ hx.lies) hcode3 (fun _ h => (hwritten _ h).right.left) (fun j hj => (hx.apart j hj).2)
    (by rw [hpushes, List.length_cons] at hlength; dsimp only; omega)
  refine ⟨⟨((hreached.trans hfound).trans hwrite).trans hreread.steps, ?_, hreread.code⟩, ?_, hmemory2,
    hmemory3.trans hmemory2⟩
  · rw [hreread.pc]
    show x.valued.pc + _ + _ = _
    simp only [hpc2, Code.size_append]
    omega
  · have hpushed : x.finished.stack = (x.rereads.map fun g =>
        (x.found.setWord (x.address + x.written) x.value).word (x.address + g)).reverse ++ _ := hresult
    rw [List.map_congr_left fun g _ => State.word_setWord hin] at hpushed
    refine ⟨hoperands, hkept, ?_, fun j hj hspare => ?_, hpushed, fun hall => ?_⟩
    · rw [hother _ (hx.apart _ hx.finds.inside).2]
      exact Array.getElem?_setIfInBounds_self_of_lt hin
    · rw [hother j hspare]
      exact Array.getElem?_setIfInBounds_ne (Ne.symm hj)
    · have hreads : x.reads = List.replicate (o.readsBefore used) x.written :=
        List.eq_replicate_iff.mpr ⟨hx.reads_length, fun g hg => hall g (List.mem_append_left _ hg)⟩
      have hrereads : x.rereads = List.replicate (o.readsBehind used) x.written :=
        List.eq_replicate_iff.mpr ⟨hx.rereads_length, fun g hg => hall g (List.mem_append_right _ hg)⟩
      rw [hpushed, hreads, hrereads]
      obtain ⟨hb, -, hg, hr⟩ | ⟨hb, -, hg, hr⟩ | ⟨hb, -, hg, hr⟩ := o.forms used <;> cases used <;>
        simp [hb, hg, hr, List.replicate_succ]

theorem Coder.exists_reachUsed_eq (goal : Goal) (code : Code) : ∃ rest, reachUsed goal code = code ++ rest := by
  cases goal with
  | test => exact ⟨_, rfl⟩
  | value | effect => exact ⟨[], (List.append_nil code).symm⟩

/-- Where a test is wanted, the value is compared with zero. -/
theorem Passes.reachUsed {node : Node} {goal : Goal}
    (h : Passes node m.pc (Coder.reachUsed goal k) (size k) m n) (hroom : n.stack.length < Machine.stackSize) :
    Steps node m { n with
      stack := (if goal = .test then [0] else []) ++ n.stack, pc := m.pc + size (Coder.reachUsed goal k) } := by
  have hend : { n with pc := m.pc + size k } = n := by rw [← h.pc]
  cases goal with
  | test =>
    refine h.steps.trans (.head (h.code.step_immediate ⟨k, [], rfl, rfl⟩ h.pc hroom) ?_)
    rw [Coder.reachUsed, Code.size_append, ← Nat.add_assoc]
    exact .refl _
  | value | effect => exact hend ▸ h.steps

/-- The position of a variable and that of an element with a known index stay the same. -/
theorem Spot.Found.known {j : Nat} (h : (Spot.known j).Found c s a base W st m f n) : f = j := by
  cases h.position with
  | known => rfl
  | again _ hne => exact absurd rfl (hne j)
  | once hspot => exact absurd trivial hspot

theorem Spot.Reads.known {j : Nat} {fs : List Nat} (h : (Spot.known j).Reads c s a base W st fs m m') :
    ∀ g ∈ fs, g = j := by
  induction h with
  | nil => nofun
  | cons _ hfound _ ih => exact List.forall_mem_cons.mpr ⟨hfound.known, ih⟩

end

/-! ### Positions that stay -/

/-- The position that a temporary or words of variables outside functions give. -/
def Spot.value (s : Storage) (words : Nat → Cell) : Spot → Except ValueFault Cell
  | known j => .ok (Int16.ofNat j)
  | saved temp => .ok (words temp)
  | computed es => Expr.position (wordsAt words) s.dims 1 es

/-- The position is given so. -/
def Spot.IsDirect (node : Node) : Spot → Prop
  | known _ => True
  | saved temp => temp < node.returnSlot
  | computed es => ∀ e ∈ es, e.Every (Expr.DirectPart node)

/-- The words of the stack that finding the position needs. -/
def Spot.room : Spot → Nat
  | computed es => Expr.roomBehind es
  | known _ | saved _ => 1

section

variable {words : Nat → Cell} (hdirect : spot.IsDirect c.node) (hspot : spot.Repeatable)
  (hslot : c.slot = c.node.returnSlot)

include hdirect hspot hslot

/-- The code of a position computes what the words give. -/
theorem Spot.computes {kp : Code} (hne : ∀ j, spot ≠ .known j) (h : (spot.place c s).position st = .ok (kp, st')) :
    Computes c.node c.slot words spot.room [] kp ((fun p => [p]) <$> spot.value s words) := by
  cases spot with
  | known j => exact absurd rfl (hne j)
  | saved temp =>
    cases h
    exact Computes.load (hslot ▸ hdirect) c.slot_lt
  | computed es =>
    cases es with
    | nil => exact absurd rfl hspot.1
    | cons e es =>
      obtain ⟨-, K, rfl, hK⟩ := (Spot.computed (e :: es)).drafted s st.nextTemp st kp st' rfl h
      have hcomputes : Computes c.node c.slot words _ [] K.code _ := hK.computes hslot hdirect
      exact hcomputes.mono (by show _ ≤ max (max (e.room + 1) 3) (Expr.roomBehind es); omega)

/-- A position that is found is the one that the words give. -/
theorem Spot.Found.value (h : spot.Found c s a base W st m f n) (hshows : m.Shows words c.slot)
    (hroom : m.stack.length + 1 + spot.room ≤ Machine.stackSize) :
    spot.value s words = .ok (Int16.ofNat f) ∧ n.Shows words c.slot := by
  cases h.position with
  | known => exact ⟨rfl, hshows⟩
  | again _ hne hcode hrun htop =>
    have hshows' : (s.ready c a m).Shows words c.slot := ⟨hshows.below, hshows.inside⟩
    have hroom' : (s.ready c a m).stack.length + spot.room ≤ Machine.stackSize := by
      have hbelow := s.length_below a
      show (s.below a ++ m.stack).length + _ ≤ _
      rw [List.length_append]
      omega
    obtain ⟨vs, w, hvs, rfl⟩ := (Spot.computes hdirect hspot hslot hne hcode).of_crosses hrun hshows' hroom'
    refine ⟨?_, hshows'.arrived w _ _⟩
    cases hvalue : spot.value s words with
    | error fault =>
      rw [hvalue] at hvs
      cases hvs
    | ok v =>
      rw [hvalue] at hvs
      cases hvs
      rw [Option.some.inj htop]
  | once honce => exact absurd hspot honce

theorem Spot.Reads.value {fs : List Nat} (h : spot.Reads c s a base W st fs m m') (hshows : m.Shows words c.slot)
    (hroom : m.stack.length + fs.length + spot.room ≤ Machine.stackSize) :
    ∀ g ∈ fs, spot.value s words = .ok (Int16.ofNat g) ∧ g < s.size := by
  induction h with
  | nil => nofun
  | cons _ hfound _ ih =>
    rw [List.length_cons] at hroom
    obtain ⟨hvalue, hshows'⟩ := hfound.value hdirect hspot hslot hshows (by omega)
    refine List.forall_mem_cons.mpr ⟨⟨hvalue, hfound.inside⟩, ih ⟨hshows'.below, hshows'.inside⟩ ?_⟩
    rw [List.length_cons]
    omega

end

/-- The element that is written is the one that is read, if the value and the store
leave the position alone. -/
theorem AssignmentTrace.Runs.same_position {x : AssignmentTrace} {o : Op} {value : Expr} {used : Bool}
    {setup k : Code} (hx : x.Runs c o value used s spot setup st st' k m) (hassigns : x.Assigns c o used st st')
    (hsizes : x.valued.memory.size = m.memory.size ∧ x.found.memory.size = m.memory.size)
    (hwords : c.node.maxVarSize ≤ 4096) (htwo : 2 ≤ c.node.maxVarSize)
    (hmemory : m.memory.size = c.node.maxVarSize) (hspot : x.reads ++ x.rereads ≠ [] → spot.Repeatable)
    (hdirect : spot.IsDirect c.node) (hroom : m.stack.length + 4 + spot.room ≤ Machine.stackSize)
    (hvalue : spot.value s x.valued.word = spot.value s x.prepared.word)
    (hstore : spot.value s (x.found.setWord (x.address + x.written) x.value).word = spot.value s x.valued.word) :
    ∀ g ∈ x.reads ++ x.rereads, g = x.written := by
  intro g hg
  have hspot := hspot (List.ne_nil_of_mem hg)
  have hslot := Coder.slot_eq hwords htwo
  have hin : c.slot < m.memory.size := by
    rw [hslot, hmemory, Node.returnSlot]
    omega
  obtain ⟨hreads, hrereads⟩ := o.reads_le used
  have hlength : x.valued.stack.length ≤ m.stack.length + 3 := by
    rw [hx.pushes, hassigns.operands, hx.stack, List.length_cons, List.length_drop, List.length_append,
      List.length_reverse, List.length_map, hx.reads_length]
    omega
  -- each position is the one that memory gives at its time
  have hread : ∀ g ∈ x.reads, spot.value s x.prepared.word = .ok (Int16.ofNat g) ∧ g < s.size := by
    refine hx.reads.value hdirect hspot hslot (State.shows_word ?_) ?_
    · rw [hx.prepares.steps.memory_size]
      exact hin
    · rw [hx.stack, hx.reads_length]
      omega
  have hwritten : spot.value s x.valued.word = .ok (Int16.ofNat x.written) :=
    (hx.finds.value hdirect hspot hslot (State.shows_word (by omega)) (by omega)).1
  have hreread : ∀ g ∈ x.rereads,
      spot.value s (x.found.setWord (x.address + x.written) x.value).word = .ok (Int16.ofNat g) ∧ g < s.size := by
    obtain ⟨ks, -, hrereads'⟩ := hx.rereads
    have hshows : (x.found.setWord (x.address + x.written) x.value).Shows _ c.slot := State.shows_word (by
      show c.slot < (x.found.memory.setIfInBounds _ _).size
      rw [Array.size_setIfInBounds]
      omega)
    refine hrereads'.value hdirect hspot hslot ⟨hshows.below, hshows.inside⟩ ?_
    show x.valued.stack.tail.length + _ + _ ≤ _
    rw [List.length_tail, hx.rereads_length]
    omega
  have hlies := hx.lies
  have hinside := hx.finds.inside
  obtain ⟨hcell, hlt⟩ : Int16.ofNat g = Int16.ofNat x.written ∧ g < s.size := by
    rcases List.mem_append.mp hg with hg | hg
    · exact ⟨Except.ok.inj ((hread g hg).1.symm.trans (hvalue.symm.trans hwritten)), (hread g hg).2⟩
    · exact ⟨Except.ok.inj ((hreread g hg).1.symm.trans (hstore.trans hwritten)), (hreread g hg).2⟩
  rw [← toNat_ofNat_cell (n := g) (by omega), hcell, toNat_ofNat_cell (by omega)]

/-- An assignment reads and writes the elements at the positions found, whatever its
value and its indices do in between. With a known position, that is one element, and
so it is with one that was saved or is computed, if the value and the store leave it
alone. -/
theorem assignment_follows_positions {i : Info} {o : Op} {target value : Expr} {goal : Goal} {k : Code}
    (hwords : c.node.maxVarSize ≤ 4096) (hcount : c.node.nativeFunctions.length ≤ 4096)
    (ho : o.isAssignment = true) (hindexed : target.Every Expr.IsIndexed) (htop : st.nextTemp ≤ c.tempTop)
    (hcode : (Expr.op i o [target, value]).code c goal st = .ok (k, st')) :
    ∃ s spot setup st₀, spot = target.spot (goal ≠ .effect || o ≠ .assign) st₀.nextTemp ∧
      target.placeOf c (goal ≠ .effect || o ≠ .assign) st = .ok ((setup, spot.place c s), st₀) ∧
      ∀ (x : AssignmentTrace) (m : State), x.Runs c o value (goal ≠ .effect) s spot setup st₀ st' k m →
        m.memory.size = c.node.maxVarSize → m.stack.length + 4 ≤ Machine.stackSize →
        Steps c.node m { x.finished with
          stack := (if goal = .test then [0] else []) ++ x.finished.stack, pc := m.pc + size k } ∧
        x.Assigns c o (goal ≠ .effect) st₀ st' ∧
        (∀ j, spot = .known j → ∀ g ∈ x.reads ++ x.written :: x.rereads, g = j) ∧
        (2 ≤ c.node.maxVarSize → spot.IsDirect c.node → m.stack.length + 4 + spot.room ≤ Machine.stackSize →
          spot.value s x.valued.word = spot.value s x.prepared.word →
          spot.value s (x.found.setWord (x.address + x.written) x.value).word = spot.value s x.valued.word →
          ∀ g ∈ x.reads ++ x.rereads, g = x.written) := by
  obtain ⟨setup, place, st₀, before, st₁, kv, st₂, store, st₃, behind, hplace, hbefore, hvalue, hstore, hbehind, hk⟩ :=
    Expr.code_assignment_eq_ok ho hcode
  obtain ⟨s, rfl⟩ := Expr.placeOf_spot hplace
  refine ⟨s, _, setup, st₀, rfl, hplace, fun x m hx hmemory hroom => ?_⟩
  have htop₀ := ((Expr.drafted target).place _ _).le_tempTop hplace htop
  have hagain (h : x.reads ++ x.rereads ≠ []) :
      (target.spot (goal ≠ .effect || o ≠ .assign) st₀.nextTemp).Repeatable := by
    cases hreused : decide (goal ≠ .effect) || decide (o ≠ .assign) with
    | true => exact Expr.spot_repeatable hindexed _
    | false =>
      rw [Bool.or_eq_false_iff, decide_eq_false_iff_not, decide_eq_false_iff_not, not_not, not_not] at hreused
      obtain ⟨rfl, rfl⟩ := hreused
      refine absurd ?_ h
      rw [List.eq_nil_of_length_eq_zero hx.reads_length, List.eq_nil_of_length_eq_zero hx.rereads_length]
      rfl
  have hknown (j : Nat) (hj : target.spot (goal ≠ .effect || o ≠ .assign) st₀.nextTemp = .known j) (g : Nat)
      (hg : g ∈ x.reads ++ x.written :: x.rereads) : g = j := by
    obtain ⟨ks, -, hrereads⟩ := hx.rereads
    have hreads := hx.reads
    have hfinds := hx.finds
    rw [hj] at hreads hfinds hrereads
    rcases List.mem_append.mp hg with hg | hg
    · exact hreads.known g hg
    · rcases List.mem_cons.mp hg with rfl | hg
      · exact hfinds.known
      · exact hrereads.known g hg
  obtain ⟨rest, hrest⟩ := Coder.exists_reachUsed_eq goal (setup ++ (before ++ kv ++ store ++ behind))
  have hparts : k = setup ++ (before ++ (kv ++ (store ++ (behind ++ rest)))) := by
    rw [hk, hrest]
    simp only [List.append_assoc]
  obtain ⟨hpasses, hassigns, hsizes⟩ := hx.assigns hwords hcount hmemory htop₀ hagain hbefore hvalue hstore hbehind
    hparts hroom
  have hlength : x.finished.stack.length < Machine.stackSize := by
    obtain ⟨hreads, hrereads⟩ := o.reads_le (goal ≠ .effect)
    rw [← hx.reads_length] at hreads
    rw [← hx.rereads_length] at hrereads
    rw [hassigns.pushed, List.length_append, List.length_append, List.length_reverse, List.length_map,
      List.length_dropLast, List.length_map, hx.stack]
    omega
  subst hk
  exact ⟨hpasses.reachUsed hlength, hassigns, hknown, fun htwo hdirect hroom' =>
    hx.same_position hassigns hsizes hwords htwo hmemory hagain hdirect hroom'⟩

/-- The value of `a[i] = 5`: the index is computed for the store and again behind it. -/
theorem assignment_follows_positions_element :
    ∃ (c : Coder) (st : Coding.State) (target : Expr) (k : Code) (m m' : State),
      (Expr.op default .assign [target, .int 5 default]).code c .value st = .ok (k, st) ∧
      m.memory = #[1, 0, 0, 0, 0, 0, 0, 0, 0, 0] ∧ Steps c.node m m' ∧ m'.memory[2]? = some 5 ∧ m'.stack = [5] := by
  let c : Coder := ⟨⟨"", 10, [], [], []⟩, ⟨.l2, 1, []⟩, 4, none, .stop⟩
  let s : Storage := ⟨1, [3], .int, .absolute⟩
  let index : Expr := .var (.scalar default .int) ⟨"i", some ⟨0, [], .int, .absolute⟩⟩
  let target : Expr := .index default ⟨"a", some s⟩ [index]
  let st : Coding.State := ⟨8, default⟩
  let k : Code := plain [.immediate 5, .load 0, .storeIndirect 1 3, .load 0, .loadIndirect 1 3]
  have hcode : (Expr.op default .assign [target, .int 5 default]).code c .value st = .ok (k, st) := rfl
  let m : State := { State.start c.node k.words with memory := #[1, 0, 0, 0, 0, 0, 0, 0, 0, 0] }
  have hk : k.Stands m.image 0 := Code.stands_words _
  have hbehind : (plain [.load 0, .storeIndirect 1 3, .load 0, .loadIndirect 1 3]).Stands m.image 1 :=
    Code.Stands.right (k := plain [.immediate 5]) hk
  have hend : (plain [.load 0, .loadIndirect 1 3]).Stands m.image 4 :=
    Code.Stands.right (k := plain [.load 0, .storeIndirect 1 3]) hbehind
  have hindexed : target.Every Expr.IsIndexed :=
    .mk nofun (List.forall_mem_singleton.mpr (.leaf rfl trivial))
  have hspot : (Spot.computed [index]).Repeatable := Expr.spot_repeatable hindexed 0
  let m₁ : State := { m with stack := [5], pc := 1 }
  let n₁ : State := { m with stack := [1, 5], pc := 2 }
  let m₂ : State := { n₁.setWord 2 5 with stack := [], pc := 4 }
  let n₂ : State := { m₂ with stack := [1], pc := 5 }
  have hpush : (Machine.step c.node).run m = .ok true m₁ :=
    hk.step_immediate ⟨[], [_, _, _, _], rfl, rfl⟩ rfl (by decide)
  have hfirst : (Machine.step c.node).run m₁ = .ok true n₁ :=
    hk.step_load (m := m₁) ⟨[_], [_, _, _], rfl, rfl⟩ rfl (by decide +kernel) (by decide)
  have hagain : (Machine.step c.node).run m₂ = .ok true n₂ :=
    hk.step_load (m := m₂) ⟨[_, _, _], [_], rfl, rfl⟩ rfl (by decide +kernel) (by decide)
  have hfree (j : Nat) (hj : j < 3) : ¬c.Spare 8 8 (1 + j) := by
    show ¬(1 + j = 8 ∨ 8 ≤ 1 + j ∧ 1 + j < 8)
    omega
  let x : AssignmentTrace :=
    ⟨1, [], 1, [1], 5, m, m, m₁, n₁, { n₂ with stack := [n₂.word 2], pc := 7 }, st, st, st⟩
  have hx : x.Runs c .assign (.int 5 default) true s (.computed [index]) [] st st k m := {
    prepares := ⟨.refl m, rfl, hk⟩
    stack := rfl
    reads := .nil
    reads_length := rfl
    loads := ⟨[], rfl⟩
    computes := ⟨plain [.immediate 5], rfl, .head hpush (.refl _), rfl, hk⟩
    pushes := rfl
    finds := ⟨.again hspot nofun rfl ⟨hbehind.left, .head (by decide) (by decide) hfirst (.refl _), rfl⟩ rfl,
      by decide, rfl, rfl⟩
    rereads := ⟨plain [.load 0, .storeIndirect 1 3], rfl, .cons (k := plain [.load 0, .loadIndirect 1 3]) rfl
      ⟨.again hspot nofun rfl ⟨hend.left, .head (by decide) (by decide) hagain (.refl _), rfl⟩ rfl,
        by decide, rfl, rfl⟩ .nil⟩
    rereads_length := rfl
    lies := by decide
    apart := fun j hj => ⟨hfree j hj, hfree j hj⟩ }
  obtain ⟨_, _, _, _, rfl, hplace, hall⟩ := assignment_follows_positions (by decide) (by decide) rfl hindexed
    (by decide) hcode
  cases hplace
  obtain ⟨hsteps, hassigns, -, hsame⟩ := hall x m hx rfl (by decide)
  have hdirect : (Spot.computed [index]).IsDirect c.node :=
    List.forall_mem_singleton.mpr (.leaf rfl ⟨by decide, by decide, trivial⟩)
  exact ⟨c, st, target, k, m, _, hcode, rfl, hsteps, hassigns.stored,
    hassigns.one (hsame (by decide) hdirect (by decide) rfl rfl)⟩

end RobotScript
