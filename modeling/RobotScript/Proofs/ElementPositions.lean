/-
# Positions of elements

The elements of an array lie in storage order: the first index counts single
words, the next one whole columns, and so on. So each tuple of indices has a
position, and no two have the same. Constant indices are folded to it, and the
code of any others computes it, an index at a time: the index is multiplied by
its stride and added to what there is. Either way the word at that position of
the variable is read.

Key definitions: `storagePosition`, `Indexed`, `ElementRead`, `FlatIndexing`.
Key theorems: `storagePosition_lt`, `storagePosition_inj`, `Indexed.position`, `ElementRead.steps`.
-/
import RobotScript.Proofs.ConstantFolding
import RobotScript.Proofs.VariableWords

namespace RobotScript

open Machine (Instr State)
open Code (plain size)
open Coder (pushNat)

/-- The position in storage order of the element with the given indices. -/
def storagePosition : List Nat → List Nat → Nat
  | d :: ds, k :: ks => k + d * storagePosition ds ks
  | _, _ => 0

/-! ### Positions in bounds -/

section

variable {dims ks ks' : List Nat}

/-- An element in bounds lies in the array. -/
theorem storagePosition_lt (h : List.Forall₂ (· < ·) ks dims) : storagePosition dims ks < volume dims := by
  induction h with
  | nil => exact Nat.one_pos
  | @cons k d ks ds hk _ ih =>
    show k + d * storagePosition ds ks < d * volume ds
    calc k + d * storagePosition ds ks
      _ < d + d * storagePosition ds ks := Nat.add_lt_add_right hk _
      _ = d * (storagePosition ds ks + 1) := by rw [Nat.mul_succ, Nat.add_comm]
      _ ≤ d * volume ds := Nat.mul_le_mul_left d ih

/-- No two elements in bounds have the same position. -/
theorem storagePosition_inj (h : List.Forall₂ (· < ·) ks dims) (h' : List.Forall₂ (· < ·) ks' dims)
    (heq : storagePosition dims ks = storagePosition dims ks') : ks = ks' := by
  induction h generalizing ks' with
  | nil =>
    cases h'
    rfl
  | @cons k d ks ds hk _ ih =>
    cases h' with
    | @cons k' _ ks' _ hk' hs' =>
      have heq : k + d * storagePosition ds ks = k' + d * storagePosition ds ks' := heq
      have hfirst : k = k' := by
        have hmod := congrArg (· % d) heq
        simpa [Nat.add_mul_mod_self_left, Nat.mod_eq_of_lt hk, Nat.mod_eq_of_lt hk'] using hmod
      subst hfirst
      have hrest := Nat.eq_of_mul_eq_mul_left (Nat.zero_lt_of_lt hk) (Nat.add_left_cancel heq)
      rw [ih hs' hrest]

theorem volume_pos (h : List.Forall₂ (· < ·) ks dims) : 0 < volume dims :=
  Nat.zero_lt_of_lt (storagePosition_lt h)

/-- Indices in bounds are folded to the position. -/
theorem flatIndex?_ofNat (h : List.Forall₂ (· < ·) ks dims) (hposition : storagePosition dims ks ≤ 32767) :
    flatIndex? dims (ks.map Int16.ofNat) = some (storagePosition dims ks) := by
  induction h with
  | nil => rfl
  | @cons k d ks ds hk hs ih =>
    have hposition : k + d * storagePosition ds ks ≤ 32767 := hposition
    have hrest : storagePosition ds ks ≤ d * storagePosition ds ks :=
      Nat.le_mul_of_pos_left _ (Nat.zero_lt_of_lt hk)
    have hcell : (Int16.ofNat k).toInt = k := Int16.toInt_ofNat_of_lt (by omega)
    have hindex : 0 ≤ Int16.ofNat k ∧ (Int16.ofNat k).toInt.toNat < d := by
      rw [Int16.le_iff_toInt_le, hcell]
      exact ⟨Int.natCast_nonneg k, hk⟩
    rw [List.map_cons, flatIndex?, if_pos hindex, ih (by omega), hcell]
    rfl

end

/-! ### Positions that are computed -/

/-- Multiply an index by its stride. -/
def Coder.scaling (stride : Nat) : List Instr :=
  if stride = 1 then [] else [pushNat stride, .binary .mult]

/-- Add an index to what there is of the position. -/
def Coder.adding (j : Nat) : List Instr :=
  if j = 0 then [] else [.binary .add]

section

variable (node : Node) {m : State}

theorem Coder.steps_scaling {stride : Nat} {v : Cell} {below : List Cell}
    (hcode : (plain (scaling stride)).Stands m.image m.pc) (hstack : m.stack = v :: below)
    (hroom : below.length + 2 ≤ Machine.stackSize) :
    Steps node m { m with
      stack := v * Int16.ofNat stride :: below, pc := m.pc + size (plain (scaling stride)) } := by
  unfold scaling at hcode ⊢
  by_cases hone : stride = 1
  · rw [if_pos hone, hone, show Int16.ofNat 1 = 1 from rfl, Int16.mul_one, ← hstack]
    exact .refl m
  · rw [if_neg hone] at hcode ⊢
    have hcode : (plain [pushNat stride] ++ plain [.binary .mult]).Stands m.image m.pc := hcode
    have hpush : (Machine.step node).run m = _ :=
      Code.Stands.step_immediate (p := 0) (n := Int16.ofNat stride) hcode.left ⟨[], [], rfl, rfl⟩ rfl
        (by rw [hstack, List.length_cons]; omega)
    obtain ⟨held, hmult⟩ := hcode.right.instr
    refine .head hpush (.head ?_ (.refl _))
    rw [Instr.Stands.step_binary hmult (by rw [hstack]), Machine.Binary.evalCell_mult]
    dsimp only
    rw [if_neg (by omega)]
    rfl

theorem Coder.steps_adding {j : Nat} {v sum : Cell} {below : List Cell}
    (hcode : (plain (adding j)).Stands m.image m.pc)
    (hstack : m.stack = v :: if j = 0 then below else sum :: below)
    (hroom : below.length + 1 ≤ Machine.stackSize) :
    Steps node m { m with
      stack := ((if j = 0 then 0 else sum) + v) :: below, pc := m.pc + size (plain (adding j)) } := by
  unfold adding at hcode ⊢
  by_cases hfirst : j = 0
  · rw [if_pos hfirst] at hstack ⊢
    rw [if_pos hfirst, Int16.zero_add, ← hstack]
    exact .refl m
  · rw [if_neg hfirst] at hcode hstack ⊢
    obtain ⟨held, hadd⟩ := hcode.instr
    refine .head ?_ (.refl _)
    rw [hadd.step_binary hstack, Machine.Binary.evalCell_add, if_neg hfirst]
    dsimp only
    rw [if_neg (by omega)]
    rfl

/-- An index that is on the stack comes to count as many words as its stride says,
from what there is of the position on. -/
theorem Coder.steps_counting {j stride : Nat} {v sum : Cell} {rest : List Cell} {k : Code}
    (hcode : (plain (scaling stride) ++ (plain (adding j) ++ k)).Stands m.image m.pc)
    (hstack : m.stack = v :: if j = 0 then rest else sum :: rest)
    (hroom : rest.length + 3 ≤ Machine.stackSize) :
    Steps node m { m with
      stack := ((if j = 0 then 0 else sum) + v * Int16.ofNat stride) :: rest
      pc := m.pc + size (plain (scaling stride)) + size (plain (adding j)) } := by
  have hbelow : (if j = 0 then rest else sum :: rest).length ≤ rest.length + 1 := by
    split <;> simp
  exact (steps_scaling node hcode.left hstack (by omega)).trans
    (steps_adding node (m := { m with
      stack := v * Int16.ofNat stride :: if j = 0 then rest else sum :: rest
      pc := m.pc + size (plain (scaling stride)) }) hcode.right.left rfl (by omega))

end

/-- In the code `W` at `base`, the machine has run the code of the indices from
the number `j` on, and these have the values `vs`. Behind each index, what there
is of the position stands on the `rest` of the stack. -/
inductive Indexed (c : Coder) (base : Nat) (W : Code) (dims : List Nat) (rest : List Cell) :
    Nat → Nat → Coding.State → List Expr → List Cell → State → State → Prop
  | nil {j stride : Nat} {st : Coding.State} {m : State} : Indexed c base W dims rest j stride st [] [] m m
  | cons {j stride : Nat} {st st1 : Coding.State} {e : Expr} {es : List Expr} {k : Code} {v : Cell}
    {vs : List Cell} {m m1 m' : State} (hcode : e.code c .value st = .ok (k, st1))
    (hrun : Stacks c.node base W k [v] m m1)
    (hrest : Indexed c base W dims rest (j + 1) (stride * dims[j]?.getD 1) st1 es vs
      { m1 with
        stack := ((if j = 0 then 0 else m.stack.headD 0) + v * Int16.ofNat stride) :: rest
        pc := m1.pc + size (plain (Coder.scaling stride)) + size (plain (Coder.adding j)) } m') :
    Indexed c base W dims rest j stride st (e :: es) (v :: vs) m m'

section

variable {c : Coder} {base : Nat} {W : Code} {dims : List Nat} {st st' : Coding.State} {k : Code}
variable {es : List Expr}

theorem Expr.positionCode_cons_eq_ok {j stride : Nat} {e : Expr}
    (h : positionCode c dims j stride (e :: es) st = .ok (k, st')) :
    ∃ ke st1 kr, e.code c .value st = .ok (ke, st1) ∧
      positionCode c dims (j + 1) (stride * dims[j]?.getD 1) es st1 = .ok (kr, st') ∧
      k = ke ++ (plain (Coder.scaling stride) ++ (plain (Coder.adding j) ++ kr)) := by
  obtain ⟨ke, st1, hke, h1⟩ := Coding.bind_eq_ok h
  obtain ⟨kr, st2, hkr, h2⟩ := Coding.bind_eq_ok h1
  cases h2
  refine ⟨ke, st1, kr, hke, hkr, ?_⟩
  unfold plain
  rw [List.map_append, List.append_assoc, List.append_assoc]
  rfl

/-- The code of the indices from the number `j` on adds the rest of the position. -/
theorem Indexed.adds {rest : List Cell} {j stride : Nat} {ks : List Nat} {sum : Cell} {m n : State}
    (h : Indexed c base W dims rest j stride st es (ks.map Int16.ofNat) m n)
    (hcode : Expr.positionCode c dims j stride es st = .ok (k, st')) (hW : W.Stands m.image base)
    (hpart : ∀ image, W.Stands image base → k.Stands image m.pc) (hlen : ks.length = (dims.drop j).length)
    (hne : j ≠ 0 ∨ es ≠ []) (hstack : m.stack = if j = 0 then rest else sum :: rest)
    (hroom : rest.length + 3 ≤ Machine.stackSize) :
    Passes c.node base W (size k) m n ∧
      n.stack = ((if j = 0 then 0 else sum) +
        Int16.ofNat (stride * storagePosition (dims.drop j) ks)) :: rest := by
  generalize hvs : ks.map Int16.ofNat = vs at h
  induction h generalizing k ks sum with
  | nil =>
    cases hcode
    obtain rfl : ks = [] := List.map_eq_nil_iff.mp hvs
    have hj := hne.resolve_right (fun h => h rfl)
    rw [List.eq_nil_of_length_eq_zero hlen.symm, if_neg hj] at *
    exact ⟨⟨.refl _, rfl, hW⟩, by rw [hstack]; simp [storagePosition]⟩
  | @cons j stride st st1 e es ke v vs m m1 n hke hrun _ ih =>
    obtain ⟨i, is, rfl, rfl, rfl⟩ := List.map_eq_cons_iff.mp hvs
    obtain ⟨ke', st2, kr, hke', hkr, rfl⟩ := Expr.positionCode_cons_eq_ok hcode
    obtain ⟨rfl, rfl⟩ := Prod.mk.inj (Except.ok.inj (hke.symm.trans hke'))
    have hj : j < dims.length := by
      rw [List.length_drop, List.length_cons] at hlen
      omega
    have hdrop : dims.drop j = dims[j] :: dims.drop (j + 1) := List.drop_eq_getElem_cons hj
    have hstride : dims[j]?.getD 1 = dims[j] := by rw [List.getElem?_eq_getElem hj, Option.getD_some]
    have hpushed : m1.stack = Int16.ofNat i :: if j = 0 then rest else sum :: rest := by
      rw [hrun.stack, hstack]
      rfl
    have hsum : (if j = 0 then (0 : Cell) else m.stack.headD 0) = if j = 0 then 0 else sum := by
      split
      · rfl
      · rename_i hne
        rw [hstack, if_neg hne, List.headD_cons]
    have hcounting (image : Array Word) (h : W.Stands image base) :
        (plain (Coder.scaling stride) ++ (plain (Coder.adding j) ++ kr)).Stands image m1.pc := by
      rw [hrun.pc]
      exact (hpart image h).right
    have hcounted := Coder.steps_counting c.node (hcounting _ hrun.code) hpushed hroom
    rw [hsum] at ih
    rw [hdrop, List.length_cons, List.length_cons] at hlen
    obtain ⟨hpasses, hend⟩ := ih hkr hrun.code (fun image h => (hcounting image h).right.right)
      (Nat.succ.inj hlen) (.inl (Nat.succ_ne_zero j)) rfl rfl
    refine ⟨⟨(hrun.steps.trans hcounted).trans hpasses.steps, ?_, hpasses.code⟩, ?_⟩
    · rw [hpasses.pc, Code.size_append, Code.size_append, Code.size_append]
      show m1.pc + _ + _ + _ = _
      rw [hrun.pc]
      omega
    · rw [hend, if_neg (Nat.succ_ne_zero j), hdrop, hstride, storagePosition, Nat.mul_add, Int16.ofNat_add,
        Int16.ofNat_mul stride i, Int16.mul_comm (Int16.ofNat i), Nat.mul_assoc, Int16.add_assoc]

/-- The code of all indices pushes the position of the element. -/
theorem Indexed.position {rest : List Cell} {ks : List Nat} {m n : State}
    (h : Indexed c base W dims rest 0 1 st es (ks.map Int16.ofNat) m n)
    (hcode : Expr.positionCode c dims 0 1 es st = .ok (k, st')) (hW : W.Stands m.image base)
    (hpart : ∀ image, W.Stands image base → k.Stands image m.pc) (hlen : ks.length = dims.length)
    (hne : es ≠ []) (hstack : m.stack = rest) (hroom : rest.length + 3 ≤ Machine.stackSize) :
    Passes c.node base W (size k) m n ∧ n.stack = Int16.ofNat (storagePosition dims ks) :: rest := by
  have hfirst : m.stack = if 0 = 0 then rest else (0 : Cell) :: rest := hstack
  obtain ⟨hpasses, hsum⟩ := h.adds hcode hW hpart hlen (.inr hne) hfirst hroom
  rw [if_pos rfl, Int16.zero_add, Nat.one_mul, List.drop_zero] at hsum
  exact ⟨hpasses, hsum⟩

end

/-! ### The code of elements -/

section

variable {c : Coder} {v : Variable} {s : Storage} {es : List Expr} {i : Info} {st st' : Coding.State} {k : Code}

/-- Constant indices become one, the position. -/
theorem Expr.foldIndex_constant {ks : List Nat} (hs : v.storage = some s) (hsize : volume s.dims ≤ 32767)
    (hks : List.Forall₂ (· < ·) ks s.dims) (hes : es.mapM number? = some (ks.map Int16.ofNat)) :
    foldIndex v es i = .ok (.index (.scalar i.span i.ty) v
      [int (Int16.ofNat (storagePosition s.dims ks)) i.span]) := by
  have hbounds : (if (ks.map Int16.ofNat).length = 1 then [max s.size 1] else s.dims) = s.dims := by
    split
    · rename_i hone
      rw [List.length_map, hks.length_eq] at hone
      obtain ⟨d, hd⟩ := List.length_eq_one_iff.mp hone
      have hpos : 0 < volume s.dims := volume_pos hks
      rw [Storage.size_eq (by omega), Nat.max_eq_left hpos, hd]
      exact congrArg (fun n => [n]) (Nat.mul_one d)
    · rfl
  unfold foldIndex
  rw [hs]
  dsimp only
  rw [hes]
  dsimp only
  have hposition := storagePosition_lt hks
  rw [hbounds, flatIndex?_ofNat hks (by omega)]
  rfl

/-- Any others are left as they are. -/
theorem Expr.foldIndex_computed (hs : v.storage = some s) (hes : es.mapM number? = none) :
    foldIndex v es i = .ok (.index (.scalar i.span i.ty) v es) := by
  unfold foldIndex
  rw [hs]
  dsimp only
  rw [hes]
  rfl

theorem Coder.elementPlace_known {reused : Bool} {n : Cell} {position : Coding Code} (hn : 0 ≤ n) :
    c.elementPlace reused s [.number i n] position = pure ([], ⟨s, .known n.toInt.toNat⟩) := by
  unfold elementPlace
  dsimp only
  rw [if_pos hn]

theorem Coder.elementPlace_computed {position : Coding Code} (hes : es.mapM Expr.number? = none) :
    c.elementPlace false s es position = pure ([], ⟨s, .computed position⟩) := by
  unfold elementPlace
  dsimp only
  split
  · rename_i hknown
    split at hknown
    · cases hes
    · cases hknown
  · rfl

theorem ofNat_nonneg {p : Nat} (hp : p ≤ 32767) : 0 ≤ Int16.ofNat p ∧ (Int16.ofNat p).toInt.toNat = p := by
  have hcell : (Int16.ofNat p).toInt = p := Int16.toInt_ofNat_of_lt (by omega)
  rw [Int16.le_iff_toInt_le, hcell]
  exact ⟨Int.natCast_nonneg p, rfl⟩

/-- The value of an element is loaded from its place. -/
theorem Expr.code_index_eq_ok {setup : Code} {place : Place} (hs : v.storage = some s)
    (hplace : c.elementPlace false s es (positionCode c s.dims 0 1 es) = pure (setup, place))
    (h : (Expr.index i v es).code c .value st = .ok (k, st')) :
    ∃ kl, place.load c st = .ok (kl, st') ∧ k = setup ++ kl := by
  unfold Expr.code at h
  obtain ⟨s', st1, hs', h1⟩ := Coding.bind_eq_ok h
  obtain ⟨hstored, rfl⟩ := Variable.stored_eq_ok hs'
  obtain rfl : s = s' := Option.some.inj (hs.symm.trans hstored)
  rw [hplace] at h1
  obtain ⟨_, st2, hpure, h2⟩ := Coding.bind_eq_ok h1
  cases hpure
  obtain ⟨kl, st3, hload, h3⟩ := Coding.bind_eq_ok h2
  cases h3
  exact ⟨kl, hload, rfl⟩

/-- An element at a known position is loaded from there. -/
theorem Expr.code_index_known {p : Nat} {span : Span} (hs : v.storage = some s) (hp : p ≤ 32767)
    (h : (Expr.index i v [int (Int16.ofNat p) span]).code c .value st = .ok (k, st')) :
    Place.load c ⟨s, .known p⟩ st = .ok (k, st') := by
  have hcell := ofNat_nonneg hp
  obtain ⟨kl, hload, rfl⟩ := Expr.code_index_eq_ok hs (Coder.elementPlace_known hcell.1) h
  rwa [hcell.2] at hload

end

/-! ### Reading elements -/

/-- In the code `k` of an element, the machine has come from `m` to the state
behind the indices, which have the values `ks`. For constants it need not run. -/
inductive Locates (c : Coder) (s : Storage) (a : Nat) (k : Code) (st : Coding.State) (m : State) :
    List Expr → List Cell → State → Prop
  | constant {es : List Expr} {ks : List Cell} (h : es.mapM Expr.number? = some ks) :
    Locates c s a k st m es ks m
  | computed {es : List Expr} {ks : List Cell} {n : State} (h : es.mapM Expr.number? = none)
    (hrun : Indexed c m.pc k s.dims (s.below a ++ m.stack) 0 1 st es ks
      { m with stack := s.below a ++ m.stack, pc := m.pc + size (plain (s.front c .load)) } n) :
    Locates c s a k st m es ks n

/-- The code `k` of an element of the variable at `a` with the indices `ks` is run
from `m` on, and indices that must be computed have been by the time of `n`; they
leave the variable where it is. -/
structure ElementRead (c : Coder) (v : Variable) (s : Storage) (a : Nat) (ks : List Nat) (k : Code)
    (m n : State) : Prop where
  code : ∃ es i e st st', Expr.foldIndex v es i = .ok e ∧ e.code c .value st = .ok (k, st') ∧
    Locates c s a k st m es (ks.map Int16.ofNat) n
  stands : k.Stands m.image m.pc
  memory : m.memory.size = c.node.maxVarSize
  lies : a + s.size ≤ m.memory.size
  before : s.Begins c.node m.memory a
  behind : s.Begins c.node n.memory a
  room : m.stack.length + 4 ≤ Machine.stackSize

section

variable {c : Coder} {v : Variable} {s : Storage} {a : Nat} {m n : State} {k : Code}

/-- The element is read, whether its indices are constant or computed. -/
theorem ElementRead.steps {ks : List Nat} (h : ElementRead c v s a ks k m n) (hs : v.storage = some s)
    (hsize : volume s.dims ≤ 32767) (hwords : s.mode ≠ .absolute → c.node.maxVarSize ≤ 4096)
    (hks : List.Forall₂ (· < ·) ks s.dims) :
    Steps c.node m { n with
      stack := n.word (a + storagePosition s.dims ks) :: m.stack, pc := m.pc + size k } := by
  obtain ⟨es, i, e, st, st', hfold, hcode, hlocates⟩ := h.code
  have hcount : s.size = volume s.dims := Storage.size_eq (by omega)
  have hposition : storagePosition s.dims ks < s.size := hcount ▸ storagePosition_lt hks
  have hsmall : s.size < 65536 := by omega
  have hroom := h.room
  cases hlocates with
  | constant hes =>
    rw [Expr.foldIndex_constant hs hsize hks hes] at hfold
    cases hfold
    have hload : Place.use c _ .load st = .ok (k, st') := Expr.code_index_known hs (by omega) hcode
    exact (Place.uses_known hload nofun hwords h.memory h.before hposition h.lies h.stands
      (by split <;> omega)).2.load rfl
  | computed hes hrun =>
    rw [Expr.foldIndex_computed hs hes] at hfold
    cases hfold
    obtain ⟨kl, hload, rfl⟩ := Expr.code_index_eq_ok hs (Coder.elementPlace_computed hes) hcode
    have huse : Use.load ≠ .address := nofun
    have hload : Place.use c _ .load st = .ok (k, st') := hload
    obtain ⟨husable, kp, hkp, rfl⟩ := Place.use_indexed rfl hload
    have hstands := h.stands
    have hbelow := s.length_below a
    obtain ⟨hpasses, hstack⟩ := hrun.position hkp hstands (fun _ h => h.left.right) hks.length_eq
      (by rintro rfl; cases hes) rfl (by rw [List.length_append]; omega)
    obtain ⟨hsteps, huses⟩ := h.before.uses_found huse husable hsmall hwords h.memory h.behind hposition
      h.lies (fun _ h => h) hstands ⟨hpasses, hstack⟩ (by omega)
    exact hsteps.trans (huses.load rfl)

/-- How elements of a variable are found: each has a position of its own in the
variable, to which constant indices are folded, which the code of any others
pushes, and from which the element is read. -/
structure FlatIndexing (c : Coder) (v : Variable) (s : Storage) : Prop where
  lt : ∀ ks, List.Forall₂ (· < ·) ks s.dims → storagePosition s.dims ks < s.size
  inj : ∀ ks ks', List.Forall₂ (· < ·) ks s.dims → List.Forall₂ (· < ·) ks' s.dims →
    storagePosition s.dims ks = storagePosition s.dims ks' → ks = ks'
  constant : ∀ ks es i, List.Forall₂ (· < ·) ks s.dims →
    es.mapM Expr.number? = some (ks.map Int16.ofNat) →
    Expr.foldIndex v es i = .ok (.index (.scalar i.span i.ty) v
      [.int (Int16.ofNat (storagePosition s.dims ks)) i.span])
  computed : ∀ ks es k st st' m n, List.Forall₂ (· < ·) ks s.dims → es ≠ [] →
    Expr.positionCode c s.dims 0 1 es st = .ok (k, st') → k.Stands m.image m.pc →
    Indexed c m.pc k s.dims m.stack 0 1 st es (ks.map Int16.ofNat) m n →
    m.stack.length + 3 ≤ Machine.stackSize →
    Steps c.node m n ∧ n.pc = m.pc + size k ∧
      n.stack = Int16.ofNat (storagePosition s.dims ks) :: m.stack
  read : ∀ ks a k m n, List.Forall₂ (· < ·) ks s.dims → ElementRead c v s a ks k m n →
    Steps c.node m { n with
      stack := n.word (a + storagePosition s.dims ks) :: m.stack, pc := m.pc + size k }

theorem FlatIndexing.of_storage (hs : v.storage = some s) (hsize : volume s.dims ≤ 32767)
    (hwords : s.mode ≠ .absolute → c.node.maxVarSize ≤ 4096) : FlatIndexing c v s where
  lt ks hks := by
    rw [Storage.size_eq (by omega)]
    exact storagePosition_lt hks
  inj ks ks' := storagePosition_inj
  constant ks es i := Expr.foldIndex_constant hs hsize
  computed ks es k st st' m n hks hne hcode hk hrun hroom := by
    obtain ⟨hpasses, hstack⟩ := hrun.position hcode hk (fun _ h => h) hks.length_eq hne rfl hroom
    exact ⟨hpasses.steps, hpasses.pc, hstack⟩
  read ks a k m n hks h := h.steps hs hsize hwords hks

end

end RobotScript
