/-
# The layout of arrays

An array literal is written row by row and kept column by column, and the
assignment of a whole array is split into assignments of its elements, in storage
order. So the item in a row and a column of the literal comes to lie at the
position that these have as indices, and is read from there again, whether the
indices are constant or computed. It takes two words at least: the literal of a
single item is refused. And an array that lies over the words that it is found by
is lost while it is filled.

Key definitions: `Storage.anchors`, `Fills`, `TableShape`, `ArrayAssigned`.
Key theorems: `getElem?_columnMajor`, `Fills.run`, `array_layout_agrees`.
-/
import RobotScript.Proofs.Assignments
import RobotScript.Proofs.Printing

namespace RobotScript

open Machine (Instr State)
open Code (plain size)

/-! ### Tables -/

section

variable {α : Type} {rows : List (List α)} {width : Nat}

theorem columnMajor_eq_map [Inhabited α] (hwidth : ∀ row ∈ rows, row.length = width) :
    columnMajor rows = (List.range (width * rows.length)).map fun n =>
      (rows[n % rows.length]?.bind (·[n / rows.length]?)).getD default := by
  by_cases hne : rows = []
  · rw [hne]
    rfl
  have hpos : 0 < rows.length := List.length_pos_of_ne_nil hne
  have hhead : (rows.headD []).length = width := by
    obtain ⟨row, rest, rfl⟩ := List.exists_cons_of_ne_nil hne
    exact hwidth row List.mem_cons_self
  have hcolumn (j : Nat) (hj : j ∈ List.range width) : rows.filterMap (·[j]?) =
      (List.range rows.length).map fun i => (rows[(j * rows.length + i) % rows.length]?.bind
        (·[(j * rows.length + i) / rows.length]?)).getD default := by
    have hj : j < width := List.mem_range.mp hj
    have hitem (row : List α) (hrow : row ∈ rows) : row[j]? = some ((row[j]?).getD default) := by
      rw [List.getElem?_eq_getElem (hwidth row hrow ▸ hj), Option.getD_some]
    rw [List.filterMap_congr hitem, List.filterMap_eq_map']
    refine List.ext_getElem (by simp) fun i hi _ => ?_
    rw [List.length_map] at hi
    have hdiv : (j * rows.length + i) / rows.length = j := by
      rw [Nat.add_comm, Nat.add_mul_div_right _ _ hpos, Nat.div_eq_of_lt hi, Nat.zero_add]
    have hmod : (j * rows.length + i) % rows.length = i := by
      rw [Nat.add_comm, Nat.add_mul_mod_self_right, Nat.mod_eq_of_lt hi]
    rw [List.getElem_map, List.getElem_map, List.getElem_range, hdiv, hmod, List.getElem?_eq_getElem hi,
      Option.bind_some]
  unfold columnMajor
  rw [hhead, List.flatMap_def, List.map_congr_left hcolumn, ← List.flatMap_def, flatMap_columns fun n =>
    (rows[n % rows.length]?.bind (·[n / rows.length]?)).getD default]

/-- The item in a row and a column of a table comes behind the columns before it. -/
theorem getElem?_columnMajor [Inhabited α] (hwidth : ∀ row ∈ rows, row.length = width) {r c : Nat} {x : α}
    (h : rows[r]?.bind (·[c]?) = some x) :
    r < rows.length ∧ c < width ∧ (columnMajor rows)[r + rows.length * c]? = some x := by
  obtain ⟨row, hrow, hx⟩ := Option.bind_eq_some_iff.mp h
  have hr : r < rows.length := (List.getElem?_eq_some_iff.mp hrow).1
  have hc : c < width := hwidth row (List.mem_of_getElem? hrow) ▸ (List.getElem?_eq_some_iff.mp hx).1
  have hlt : r + rows.length * c < width * rows.length :=
    calc r + rows.length * c
      _ < rows.length + rows.length * c := Nat.add_lt_add_right hr _
      _ = (c + 1) * rows.length := by rw [Nat.succ_mul, Nat.mul_comm, Nat.add_comm]
      _ ≤ width * rows.length := Nat.mul_le_mul_right _ hc
  have hdiv : (r + rows.length * c) / rows.length = c := by
    rw [Nat.add_mul_div_left _ _ (Nat.zero_lt_of_lt hr), Nat.div_eq_of_lt hr, Nat.zero_add]
  refine ⟨hr, hc, ?_⟩
  rw [columnMajor_eq_map hwidth, List.getElem?_map, List.getElem?_range hlt, Option.map_some,
    Nat.add_mul_mod_self_left, Nat.mod_eq_of_lt hr, hdiv, h, Option.getD_some]

end

/-- A table of so many rows and columns can be assigned to an array of these
dimensions, in which the item in a row and a column has these indices. -/
inductive TableShape : Nat → Nat → List Nat → (Nat → Nat → List Nat) → Prop
  | grid {height width : Nat} : TableShape height width [height, width] fun r c => [r, c]
  | list {width : Nat} : TableShape 1 width [width] fun _ c => [c]

namespace TableShape

variable {height width : Nat} {dims : List Nat} {indices : Nat → Nat → List Nat} {r c : Nat}

theorem volume_eq (h : TableShape height width dims indices) : volume dims = width * height := by
  cases h with
  | grid => simp [volume, Nat.mul_comm]
  | list => rfl

theorem inBounds (h : TableShape height width dims indices) (hr : r < height) (hc : c < width) :
    List.Forall₂ (· < ·) (indices r c) dims := by
  cases h with
  | grid => exact .cons hr (.cons hc .nil)
  | list => exact .cons hc .nil

theorem position_eq (h : TableShape height width dims indices) (hr : r < height) :
    storagePosition dims (indices r c) = r + height * c := by
  cases h with
  | grid => simp [storagePosition]
  | list =>
    simp only [storagePosition, Nat.mul_zero, Nat.add_zero]
    omega

end TableShape

/-! ### Where a variable is found -/

namespace Storage

variable {s : Storage} {node : Node} {memory memory' : Array Cell} {a : Nat}

/-- The words of memory that a variable is found by: the frame pointer, and the
slot of a parameter that is passed by reference. -/
def anchors (s : Storage) (node : Node) (memory : Array Cell) : List Nat :=
  match s.mode with
  | .absolute => []
  | .frame => [node.frameSlot]
  | .reference => node.frameSlot ::
      (memory[node.frameSlot]?.map fun fp => fp.toUInt16.toNat + s.offset).toList

/-- None of the words that the variable is found by is one of its own. -/
def Apart (s : Storage) (node : Node) (memory : Array Cell) (a : Nat) : Prop :=
  ∀ j ∈ s.anchors node memory, j < a ∨ a + s.size ≤ j

/-- The words that the variable is found by are the same. -/
def Anchored (s : Storage) (node : Node) (memory memory' : Array Cell) : Prop :=
  ∀ j ∈ s.anchors node memory, memory'[j]? = memory[j]?

theorem Anchored.anchors_eq (h : s.Anchored node memory memory') :
    s.anchors node memory' = s.anchors node memory := by
  unfold Anchored at h
  unfold anchors at h ⊢
  cases hmode : s.mode with
  | absolute | frame => rfl
  | reference =>
    simp only [hmode] at h ⊢
    rw [h _ List.mem_cons_self]

/-- It is found at the same address then. -/
theorem Begins.of_anchored (hbegins : s.Begins node memory a) (h : s.Anchored node memory memory') :
    s.Begins node memory' a := by
  unfold Anchored anchors at h
  unfold Begins at hbegins ⊢
  cases hmode : s.mode with
  | absolute =>
    simp only [hmode] at hbegins ⊢
    exact hbegins
  | frame =>
    simp only [hmode] at hbegins h ⊢
    obtain ⟨fp, hfp, ha⟩ := hbegins
    exact ⟨fp, (h _ List.mem_cons_self).trans hfp, ha⟩
  | reference =>
    simp only [hmode] at hbegins h ⊢
    obtain ⟨fp, p, hfp, hp, ha⟩ := hbegins
    have hslot : fp.toUInt16.toNat + s.offset ∈
        (memory[node.frameSlot]?.map fun fp => fp.toUInt16.toNat + s.offset).toList := by
      rw [hfp]
      exact List.mem_singleton_self _
    exact ⟨fp, p, (h _ List.mem_cons_self).trans hfp, (h _ (List.mem_cons_of_mem _ hslot)).trans hp, ha⟩

/-- It is found where it was after one of its words has been set. -/
theorem Apart.setIfInBounds (h : s.Apart node memory a) {p : Nat} (hp : p < s.size) (x : Cell) :
    s.Anchored node memory (memory.setIfInBounds (a + p) x) := by
  intro j hj
  have hne := h j hj
  exact Array.getElem?_setIfInBounds_ne (by omega)

/-- The variable at `a` is left where it is and as it is. -/
structure Stays (s : Storage) (node : Node) (a : Nat) (memory memory' : Array Cell) : Prop where
  anchored : s.Anchored node memory memory'
  words : ∀ j < s.size, memory'[a + j]? = memory[a + j]?

end Storage

/-! ### Assignments of elements -/

/-- In the code `W` at `base`, the machine has come from `m` to the state behind
the assignments of the items, each with its value, to the words from the position
`p` on: the item converted to the type of the array pushes the value, which is
popped into its word. The items leave the array as it is. -/
inductive Fills (c : Coder) (s : Storage) (a base : Nat) (W : Code) (span : Span) :
    Nat → List (Expr × Cell) → State → State → Prop
  | nil {p : Nat} {m : State} : Fills c s a base W span p [] m m
  | cons {p : Nat} {e e' : Expr} {x : Cell} {items : List (Expr × Cell)} {k store : Code}
    {st1 st2 : Coding.State} {m m1 m' : State} (hfold : e.fold = .ok e')
    (hcode : (e'.cast s.ty).code c .value ⟨c.tempTop, span⟩ = .ok (k, st1))
    (hrun : Stacks c.node base W k [x] m m1) (hstays : s.Stays c.node a m.memory m1.memory)
    (hstore : Place.store c ⟨s, .known p⟩ st1 = .ok (store, st2))
    (hrest : Fills c s a base W span (p + 1) items
      { m1.setWord (a + p) x with stack := m.stack, pc := m1.pc + size store } m') :
    Fills c s a base W span p ((e, x) :: items) m m'

section

variable {c : Coder} {v : Variable} {s : Storage} {a : Nat} {m n : State} {k : Code} {span : Span}
  {st st' : Coding.State} {flows : List Flow}

variable {p : Nat} {place : Span} {stmts : List Stmt}

/-- The assignment of an element is the code of the value and the store. -/
theorem Stmt.code_assign_element {i : Info} {e : Expr} {ty : Ty} (hs : v.storage = some s) (hp : p ≤ 32767)
    (h : (Stmt.expr span (.op i .assign [element v p place ty, e])).code c flows st = .ok (k, st')) :
    ∃ ke st1 store, e.code c .value ⟨c.tempTop, span⟩ = .ok (ke, st1) ∧
      Place.store c ⟨s, .known p⟩ st1 = .ok (store, st') ∧ k = .mark span :: (ke ++ store) := by
  have hcell := ofNat_nonneg hp
  unfold Stmt.code at h
  replace h : c.statement span true ((Expr.op i .assign [element v p place ty, e]).code c .effect) st =
    .ok (k, st') := h
  obtain ⟨k', h1, rfl⟩ := Coder.statement_eq_ok h
  obtain ⟨setup, target, st1, before, st2, ke, st3, store, st4, behind, hplace, hbefore, hke, hstore, hbehind, rfl⟩ :=
    Expr.code_assignment_eq_ok rfl h1
  cases hbefore
  cases hbehind
  unfold element Expr.placeOf at hplace
  obtain ⟨s', st2, hs', h3⟩ := Coding.bind_eq_ok hplace
  obtain ⟨hstored, rfl⟩ := Variable.stored_eq_ok hs'
  obtain rfl : s = s' := Option.some.inj (hs.symm.trans hstored)
  unfold Expr.int at h3
  rw [Coder.elementPlace_known hcell.1, hcell.2] at h3
  cases h3
  refine ⟨ke, _, store, hke, hstore, ?_⟩
  simp [Coder.reachUsed]

/-- A single index counts the words of the whole array. -/
theorem Stmt.fold_element {ty : Ty} (hs : v.storage = some s) (hsize : s.size ≤ 32767) (hp : p < s.size) :
    (element v p place ty).fold = .ok (element v p place ty) := by
  have hflat : flatIndex? [max s.size 1] [Int16.ofNat p] = some p := by
    have hbound : List.Forall₂ (· < ·) [p] [max s.size 1] := .cons (by omega) .nil
    have hposition : storagePosition [max s.size 1] [p] ≤ 32767 := show p + _ * 0 ≤ 32767 by omega
    rw [show [Int16.ofNat p] = [p].map Int16.ofNat from rfl, flatIndex?_ofNat hbound hposition]
    rfl
  show Expr.foldIndex v [.int (Int16.ofNat p) place] (.scalar place ty) = _
  have hindices : [Expr.int (Int16.ofNat p) place].mapM Expr.number? = some [Int16.ofNat p] := rfl
  simp only [Expr.foldIndex, hs, hindices, List.length_singleton, if_true, hflat]
  rfl

/-- The assignment of an item is that of its converted value to the element at the
position. -/
theorem Stmt.assignItems_cons_eq_ok {opSpan : Span} {item : Expr} {items : List Expr}
    (hs : v.storage = some s) (hsize : s.size ≤ 32767) (hp : p < s.size)
    (h : assignItems span opSpan ⟨place, s.ty, s.dims⟩ v p (item :: items) = .ok stmts) :
    ∃ item' rest, item.fold = .ok item' ∧
      assignItems span opSpan ⟨place, s.ty, s.dims⟩ v (p + 1) items = .ok rest ∧
      stmts = .expr span (.op (.scalar opSpan s.ty) .assign
        [element v p place s.ty, item'.cast s.ty]) :: rest := by
  obtain ⟨e, he, h1⟩ := bind_eq_ok.mp h
  obtain ⟨rest, hrest, h2⟩ := bind_eq_ok.mp h1
  cases h2
  obtain ⟨args, hargs, h3⟩ := bind_eq_ok.mp he
  obtain ⟨target, htarget, h4⟩ := bind_eq_ok.mp hargs
  rw [Stmt.fold_element hs hsize hp] at htarget
  cases htarget
  obtain ⟨values, hvalues, h5⟩ := bind_eq_ok.mp h4
  cases h5
  obtain ⟨item', hitem, h6⟩ := bind_eq_ok.mp hvalues
  cases h6
  refine ⟨item', rest, hitem, hrest, ?_⟩
  unfold Expr.foldOp at h3
  dsimp only at h3
  split at h3
  · cases h3
    rfl
  · cases h3

/-- The word on top of the stack is popped into a word of the variable. -/
theorem Place.steps_store {x : Cell} {below : List Cell} {store : Code}
    (hstore : Place.store c ⟨s, .known p⟩ st = .ok (store, st'))
    (hwords : s.mode ≠ .absolute → c.node.maxVarSize ≤ 4096) (hmemory : m.memory.size = c.node.maxVarSize)
    (hbegins : s.Begins c.node m.memory a) (hp : p < s.size) (hlies : a + s.size ≤ m.memory.size)
    (hcode : store.Stands m.image m.pc) (hstack : m.stack = x :: below)
    (hroom : below.length + 3 ≤ Machine.stackSize) :
    Steps c.node m { m.setWord (a + p) x with stack := below, pc := m.pc + size store } := by
  have hstore : Place.use c ⟨s, .known p⟩ .store st = .ok (store, st') := hstore
  have hlength : m.stack.length = below.length + 1 := congrArg List.length hstack
  exact (Place.uses_known hstore nofun hwords hmemory hbegins hp hlies hcode
    (by split <;> omega)).2.store rfl x below hstack

/-- The items come to lie one behind the other, and the words before them stay. -/
theorem Fills.run {base : Nat} {W : Code} {opSpan : Span} {items : List (Expr × Cell)}
    (h : Fills c s a base W span p items m n) (hs : v.storage = some s) (hsize : s.size ≤ 32767)
    (hwords : s.mode ≠ .absolute → c.node.maxVarSize ≤ 4096)
    (hstmts : Stmt.assignItems span opSpan ⟨place, s.ty, s.dims⟩ v p (items.map (·.1)) = .ok stmts)
    (hcode : Stmt.blockCode c flows stmts st = .ok (k, st')) (hW : W.Stands m.image base)
    (hpart : ∀ image, W.Stands image base → k.Stands image m.pc) (hmemory : m.memory.size = c.node.maxVarSize)
    (hlies : a + s.size ≤ m.memory.size) (hbegins : s.Begins c.node m.memory a)
    (hapart : s.Apart c.node m.memory a) (hroom : m.stack.length + 3 ≤ Machine.stackSize)
    (hlen : p + items.length ≤ s.size) :
    Passes c.node base W (size k) m n ∧ n.stack = m.stack ∧ s.Begins c.node n.memory a ∧
      (∀ j < p, n.memory[a + j]? = m.memory[a + j]?) ∧
      ∀ j < items.length, n.memory[a + (p + j)]? = items[j]?.map (·.2) := by
  induction h generalizing stmts st k with
  | nil =>
    cases hstmts
    cases hcode
    exact ⟨⟨.refl _, rfl, hW⟩, rfl, hbegins, fun _ _ => rfl, nofun⟩
  | @cons p e e' x items ke store st1 st2 m m1 n hfold hke hrun hstays hstore _ ih =>
    rw [List.length_cons] at hlen
    obtain ⟨item, rest, hitem, hrest, rfl⟩ := Stmt.assignItems_cons_eq_ok hs hsize (by omega) hstmts
    cases hitem.symm.trans hfold
    obtain ⟨k1, st3, hfirst, h1⟩ := Coding.bind_eq_ok hcode
    obtain ⟨k2, st4, hothers, h2⟩ := Coding.bind_eq_ok h1
    cases h2
    obtain ⟨_, _, _, hke', hstore', rfl⟩ := Stmt.code_assign_element hs (by omega) hfirst
    cases hke.symm.trans hke'
    cases hstore.symm.trans hstore'
    have hp : p < s.size := by omega
    -- the item is evaluated and leaves the array as it is
    have hkept := hrun.steps.memory_size
    have hstands := hpart _ hrun.code
    have hpopped := hstands.left.unmarked.right
    rw [← hrun.pc] at hpopped
    have hbegins1 := hbegins.of_anchored hstays.anchored
    have hapart1 : s.Apart c.node m1.memory a := by
      unfold Storage.Apart
      rwa [hstays.anchored.anchors_eq]
    -- its value is popped into the word at the position
    have hsteps := Place.steps_store hstore hwords (hkept.trans hmemory) hbegins1 hp (hkept ▸ hlies) hpopped
      hrun.stack hroom
    have hset := hapart1.setIfInBounds hp x
    have hsize2 : (m1.setWord (a + p) x).memory.size = m.memory.size := by
      rw [← hkept]
      exact Array.size_setIfInBounds
    obtain ⟨hpasses, hstack, hend, hbefore, hbehind⟩ := ih hrest hothers hrun.code
      (fun image h => by
        have hright := (hpart image h).right
        rw [Code.size_cons, Code.size_append, ← Nat.add_assoc, ← Nat.add_assoc] at hright
        rw [show m1.pc = _ from hrun.pc]
        exact hright)
      (hsize2.trans hmemory) (hsize2 ▸ hlies) (hbegins1.of_anchored hset)
      (by
        unfold Storage.Apart
        rwa [show (m1.setWord (a + p) x).memory = m1.memory.setIfInBounds (a + p) x from rfl, hset.anchors_eq])
      hroom (by omega)
    refine ⟨⟨(hrun.steps.trans hsteps).trans hpasses.steps, ?_, hpasses.code⟩, hstack, hend, fun j hj => ?_,
      fun j hj => ?_⟩
    · rw [hpasses.pc, Code.size_append, Code.size_cons, Code.size_append]
      show m1.pc + size store + size k2 = m.pc + (0 + (size ke + size store) + size k2)
      rw [hrun.pc]
      omega
    · have hne : (m1.setWord (a + p) x).memory[a + j]? = m1.memory[a + j]? :=
        Array.getElem?_setIfInBounds_ne (by omega)
      rw [hbefore j (by omega)]
      exact hne.trans (hstays.words j (by omega))
    · cases j with
      | zero =>
        rw [hbefore (p + 0) (by omega)]
        exact Array.getElem?_setIfInBounds_self_of_lt (by omega)
      | succ j =>
        rw [List.length_cons] at hj
        rw [show p + (j + 1) = p + 1 + j by omega]
        exact hbehind j (by omega)

/-! ### Assignments of literals -/

/-- An array literal is no single word, whatever it is converted to. -/
theorem Expr.code_cast_array {i : Info} {items : List Expr} {ty : Ty} :
    ((Expr.array i items).cast ty).code c .value st ≠ .ok (k, st') := by
  unfold Expr.cast
  split
  · exact nofun
  · cases ty <;> dsimp only <;> split <;> exact nofun

/-- The assignment of an array literal that is accepted is split into its items;
for a single item there is no code. -/
theorem Stmt.assignItems_of_fold {result : Option Ty} {i literal : Info} {items : List Expr}
    (h : Stmt.fold result (.expr span (.op i .assign
      [.var ⟨place, s.ty, s.dims⟩ v, .array literal items])) = .ok stmts)
    (hcode : Stmt.blockCode c flows stmts st = .ok (k, st')) :
    assignItems span i.span ⟨place, s.ty, s.dims⟩ v 0 items = .ok stmts := by
  unfold Stmt.fold at h
  split at h
  · unfold assignArray at h
    dsimp only at h
    split at h
    · cases h
    · exact h
  · obtain ⟨e, he, h1⟩ := bind_eq_ok.mp h
    cases h1
    obtain ⟨args, hargs, h2⟩ := bind_eq_ok.mp he
    obtain ⟨target, htarget, h3⟩ := bind_eq_ok.mp hargs
    cases htarget
    obtain ⟨values, hvalues, h4⟩ := bind_eq_ok.mp h3
    cases h4
    obtain ⟨value, hvalue, h5⟩ := bind_eq_ok.mp hvalues
    cases h5
    obtain ⟨folded, hfolded, h6⟩ := bind_eq_ok.mp hvalue
    cases h6
    unfold Expr.foldOp at h2
    dsimp only at h2
    split at h2
    · cases h2
      obtain ⟨k1, st1, hfirst, -⟩ := Coding.bind_eq_ok hcode
      unfold Stmt.code at hfirst
      obtain ⟨k2, hexpr, -⟩ := Coder.statement_eq_ok hfirst
      unfold Expr.code at hexpr
      obtain ⟨⟨setup, target⟩, st2, -, h3⟩ := Coding.bind_eq_ok hexpr
      obtain ⟨assigned, st3, hassign, -⟩ := Coding.bind_eq_ok h3
      obtain ⟨ke, st4, hke, -⟩ := Coding.bind_eq_ok hassign
      exact absurd hke Expr.code_cast_array
    · cases h2

end

/-- The code `k` of the assignment of a literal to the array at `a` is run from `m`
on, until `n`. The table holds the items of the literal, row by row, each with the
value that it has when it is evaluated, converted to the type of the array. The
array does not lie over the words that it is found by. -/
structure ArrayAssigned (c : Coder) (v : Variable) (s : Storage) (a : Nat)
    (table : List (List (Expr × Cell))) (k : Code) (m n : State) : Prop where
  code : ∃ result flows span i literal place stmts st st',
    Stmt.fold result (.expr span (.op i .assign [.var ⟨place, s.ty, s.dims⟩ v,
      .array literal (columnMajor (table.map (·.map (·.1))))])) = .ok stmts ∧
    Stmt.blockCode c flows stmts st = .ok (k, st') ∧ Fills c s a m.pc k span 0 (columnMajor table) m n
  stands : k.Stands m.image m.pc
  memory : m.memory.size = c.node.maxVarSize
  lies : a + s.size ≤ m.memory.size
  begins : s.Begins c.node m.memory a
  apart : s.Apart c.node m.memory a
  room : m.stack.length + 3 ≤ Machine.stackSize

/-- The layout of arrays is the same everywhere. Elements in bounds lie in the
array, and no two at the same position; constant and computed indices both read
the word at their position. After the assignment of a literal, the element with
the indices of a row and a column has the value of the item that is written
there. -/
theorem array_layout_agrees {c : Coder} {v : Variable} {s : Storage} (hs : v.storage = some s)
    (hsize : volume s.dims ≤ 32767) (hwords : s.mode ≠ .absolute → c.node.maxVarSize ≤ 4096) :
    FlatIndexing c v s ∧
    ∀ table width indices a k m n, (∀ row ∈ table, row.length = width) →
      TableShape table.length width s.dims indices → ArrayAssigned c v s a table k m n →
      Steps c.node m n ∧ n.pc = m.pc + size k ∧ n.stack = m.stack ∧ s.Begins c.node n.memory a ∧
      ∀ r col e x, table[r]?.bind (·[col]?) = some (e, x) →
        ∀ k' m' n', ElementRead c v s a (indices r col) k' m' n' →
          (∀ j < s.size, n'.memory[a + j]? = n.memory[a + j]?) →
          Steps c.node m' { n' with stack := x :: m'.stack, pc := m'.pc + size k' } := by
  refine ⟨.of_storage hs hsize hwords, ?_⟩
  intro table width indices a k m n hrows hshape h
  obtain ⟨result, flows, span, i, literal, place, stmts, st, st', hfold, hcode, hfills⟩ := h.code
  have hvolume : s.size = volume s.dims := Storage.size_eq (by omega)
  have hcount : (columnMajor table).length = s.size := by
    rw [columnMajor_eq_map hrows, List.length_map, List.length_range, hvolume]
    exact hshape.volume_eq.symm
  have hstmts := Stmt.assignItems_of_fold hfold hcode
  rw [columnMajor_map] at hstmts
  obtain ⟨hpasses, hstack, hbegins, -, hwords'⟩ := hfills.run hs (hvolume ▸ hsize) hwords hstmts hcode h.stands
    (fun _ h => h) h.memory h.lies h.begins h.apart h.room (by omega)
  refine ⟨hpasses.steps, hpasses.pc, hstack, hbegins, fun r col e x hitem k' m' n' hread hsame => ?_⟩
  obtain ⟨hr, hcol, hentry⟩ := getElem?_columnMajor hrows hitem
  have hbounds := hshape.inBounds hr hcol
  have hposition := hshape.position_eq (c := col) hr
  have hlt : r + table.length * col < s.size := hvolume ▸ hposition ▸ storagePosition_lt hbounds
  have hword := hwords' _ (hcount ▸ hlt)
  rw [Nat.zero_add, hentry, ← hsame _ hlt] at hword
  have hsteps := hread.steps hs hsize hwords hbounds
  have hin : a + (r + table.length * col) < n'.memory.size := (Array.getElem?_eq_some_iff.mp hword).1
  rw [State.getElem?_memory hin] at hword
  rwa [hposition, Option.some.inj hword] at hsteps

/-- The literal `[1, 2, 3; 4, 5, 6]` at the address 2. Behind its assignment the
element with the indices 1 and 2, which the first two words of memory hold, is 6. -/
theorem array_layout_agrees_oblong :
    ∃ (c : Coder) (v : Variable) (s : Storage) (k k' : Code) (m n m' n' : State),
      v.storage = some s ∧ s.dims = [2, 3] ∧ volume s.dims ≤ 32767 ∧
      ArrayAssigned c v s 2 [[(.int 1 default, 1), (.int 2 default, 2), (.int 3 default, 3)],
        [(.int 4 default, 4), (.int 5 default, 5), (.int 6 default, 6)]] k m n ∧
      ElementRead c v s 2 [1, 2] k' m' n' ∧ m'.memory = n.memory ∧
      Steps c.node m n ∧ Steps c.node m' { n' with stack := [6], pc := size k' } := by
  let c : Coder := ⟨⟨"", 10, [], [], []⟩, ⟨.l2, 1, []⟩, 8, none, .stop⟩
  let s : Storage := ⟨2, [2, 3], .int, .absolute⟩
  let v : Variable := ⟨"a", some s⟩
  let item (x : Cell) : Expr × Cell := (.int x default, x)
  let table : List (List (Expr × Cell)) := [[item 1, item 2, item 3], [item 4, item 5, item 6]]
  let assign (x : Cell) (p : Word) : Code := .mark default :: plain [.immediate x, .store p]
  let k : Code := assign 1 2 ++ (assign 4 3 ++ (assign 2 4 ++ (assign 5 5 ++ (assign 3 6 ++ (assign 6 7 ++ [])))))
  let m : State := { State.start c.node k.words with memory := #[1, 2, 0, 0, 0, 0, 0, 0, 0, 0] }
  have hW : k.Stands m.image m.pc := k.stands_words
  have hitem {p q : Nat} {x : Cell} {w : Word} {memory : Array Cell} {items : List (Expr × Cell)} {n : State}
      (hat : k.At q (.immediate x))
      (hstore : Place.store c ⟨s, .known p⟩ ⟨c.tempTop, default⟩ = .ok (plain [.store w], ⟨c.tempTop, default⟩))
      (h : Fills c s 2 0 k default (p + 1) items
        { m with memory := memory.setIfInBounds (2 + p) x, pc := q + (Instr.immediate x).length + 1 } n) :
      Fills c s 2 0 k default p (item x :: items) { m with memory, pc := q } n :=
    .cons rfl rfl (.immediate hW hat (Nat.zero_add q).symm (show 0 < 32 by decide))
      ⟨nofun, fun _ _ => rfl⟩ hstore h
  let n : State := { m with memory := #[1, 2, 1, 4, 2, 5, 3, 6, 0, 0], pc := 12 }
  have hfills : Fills c s 2 0 k default 0 [item 1, item 4, item 2, item 5, item 3, item 6] m n :=
    hitem ⟨[_], _, rfl, rfl⟩ rfl <| hitem ⟨[_, _, _, _], _, rfl, rfl⟩ rfl <|
    hitem ⟨[_, _, _, _, _, _, _], _, rfl, rfl⟩ rfl <| hitem ⟨[_, _, _, _, _, _, _, _, _, _], _, rfl, rfl⟩ rfl <|
    hitem ⟨[_, _, _, _, _, _, _, _, _, _, _, _, _], _, rfl, rfl⟩ rfl <|
    hitem ⟨[_, _, _, _, _, _, _, _, _, _, _, _, _, _, _, _], _, rfl, rfl⟩ rfl .nil
  have hassigned : ArrayAssigned c v s 2 table k m n :=
    ⟨⟨none, [], default, default, ⟨default, .int, [2, 3]⟩, default, _, default, _, rfl, rfl, hfills⟩, hW, rfl,
      by decide, rfl, nofun, by decide⟩
  let i : Expr := .var ⟨default, .int, []⟩ ⟨"i", some ⟨0, [], .int, .absolute⟩⟩
  let j : Expr := .var ⟨default, .int, []⟩ ⟨"j", some ⟨1, [], .int, .absolute⟩⟩
  let k' : Code := plain [.load 0, .load 1, .immediate 2, .binary .mult, .binary .add, .loadIndirect 2 6]
  let m' : State := { State.start c.node k'.words with memory := n.memory }
  have hW' : k'.Stands m'.image m'.pc := k'.stands_words
  obtain ⟨n', hindexed, hmemory⟩ : ∃ n', Indexed c 0 k' s.dims [] 0 1 default [i, j] [1, 2] m' n' ∧
      n'.memory = n.memory :=
    ⟨_, .cons rfl (.load (p := 0) hW' ⟨[], _, rfl, rfl⟩ rfl rfl (by decide)) <|
      .cons rfl (.load (p := 1) hW' ⟨[_], _, rfl, rfl⟩ rfl rfl (by decide)) .nil, rfl⟩
  have hread : ElementRead c v s 2 [1, 2] k' m' n' :=
    ⟨⟨[i, j], default, _, default, _, rfl, rfl, .computed rfl hindexed⟩, hW', rfl, by decide, rfl, rfl, by decide⟩
  obtain ⟨-, hlayout⟩ := array_layout_agrees (c := c) (v := v) (s := s) rfl (by decide) (fun h => absurd rfl h)
  obtain ⟨hsteps, -, -, -, hreads⟩ := hlayout table 3 _ 2 k m n (by decide) .grid hassigned
  have hlast := hreads 1 2 _ 6 rfl k' m' n' hread fun _ _ => by rw [hmemory]
  exact ⟨c, v, s, k, k', m, n, m', n', rfl, rfl, by decide, hassigned, hread, rfl, hsteps, hlast⟩

end RobotScript
