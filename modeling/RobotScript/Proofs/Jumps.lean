/-
# Jumps, branches and loops

The depth of the stack in code that is put together with jumps. The jumps of a
fork or a loop go to places between its parts, so each part is graded under
the condition that those places admit its jumps, and the condition is settled
when the place is reached. Closing a loop and resolving the jumps to labels
replace single items by others of the same size.

Key definitions: `Code.Rewrites`, `Code.TestBranch`.
Key theorems: `Code.Sound.fork`, `Code.Sound.closed`, `Code.Rewrites.graded`.
-/
import RobotScript.Code.Stmt
import RobotScript.Proofs.Grading
import RobotScript.Proofs.Outcome

namespace RobotScript

open Machine (Instr Binary)

theorem jumpBy?_eq_some {d : Int} {i : Instr} (h : jumpBy? d = some i) :
    ∃ o : Cell, i = .jump o ∧ o.toInt = d ∧ -2048 ≤ d ∧ d < 2048 := by
  simp only [jumpBy?, jumpOffset?, Option.map_eq_some_iff, Option.ite_none_right_eq_some,
    Option.some.injEq] at h
  obtain ⟨o, ⟨hd, rfl⟩, rfl⟩ := h
  exact ⟨_, rfl, Int16.toInt_ofInt_of_le (by omega) (by omega), by omega, by omega⟩

theorem branchBy?_eq_some {op : Binary} {edge : Bool} {d : Int} {i : Instr}
    (h : branchBy? op edge d = some i) : ∃ o : Cell, i = .branch op edge o ∧ o.toInt = d := by
  simp only [branchBy?, branchOffset?, Option.map_eq_some_iff, Option.ite_none_right_eq_some,
    Option.some.injEq] at h
  obtain ⟨o, ⟨hd, rfl⟩, rfl⟩ := h
  exact ⟨_, rfl, Int16.toInt_ofInt_of_le (by omega) (by omega)⟩

namespace Code

variable {G : Ground} {k n m e : Nat} {X X' : Int → Nat → Prop}
variable {i skip back : Instr} {edge : Bool} {test a c c' body : Code} {next stop here : Nat} {Q : Nat → Prop}

theorem size_jump {d : Int} (h : jumpBy? d = some i) : size (plain [i]) = 1 := by
  obtain ⟨o, rfl, -⟩ := jumpBy?_eq_some h
  rfl

theorem size_branch {op : Binary} {d : Int} (h : branchBy? op edge d = some i) : size (plain [i]) = 2 := by
  obtain ⟨o, rfl, -⟩ := branchBy?_eq_some h
  rfl

/-- A jump to an admitted place. Behind it the depth may be any. -/
theorem Sound.jump {d : Int} (h : jumpBy? d = some i) (hX : X d n) : Sound G k X (plain [i]) n e := by
  obtain ⟨o, rfl, rfl, hlo, hhi⟩ := jumpBy?_eq_some h
  refine ⟨fun p => if p = 0 then n else e, rfl, rfl, Graded.single ⟨hlo, hhi, ?_⟩⟩
  rwa [Int.natCast_zero, Int.zero_add]

/-- A branch to an admitted place. -/
theorem Sound.branch {op : Binary} {d : Int} (hop : op.isComparison = true) (h : branchBy? op edge d = some i)
    (hX : X d m) : Sound G k X (plain [i]) (m + 2) m := by
  obtain ⟨o, rfl, rfl⟩ := branchBy?_eq_some h
  refine ⟨fun p => if p = 0 then m + 2 else m, rfl, rfl, Graded.single ⟨hop, rfl, ?_⟩⟩
  rwa [Int.natCast_zero, Int.zero_add]

/-! ### Forks -/

/-- Code that is run only on a test. -/
theorem Sound.guard {op : Binary} {br : Instr} (ht : Sound G k nowhere test n (m + 2))
    (ha : Sound G k nowhere a m m) (hop : op.isComparison = true)
    (hbr : branchBy? op edge (2 + size a) = some br) : Sound G k nowhere (test ++ plain [br] ++ a) n m := by
  have hsize := size_branch hbr
  have h : Sound G k (fun t v => t = size (test ++ plain [br] ++ a) ∧ v = m)
      (test ++ plain [br] ++ a) n m := by
    refine (ht.anywhere.append (.branch hop hbr ?_)).append ha.anywhere
    refine ⟨?_, rfl⟩
    rw [size_append, size_append, hsize]
    push_cast
    omega
  exact h.settle (Nat.le_refl k) fun t v hx => .inr (.inl hx)

/-- Two codes of which a test chooses one. -/
theorem Sound.fork {b : Code} {op : Binary} {br : Instr} (ht : Sound G k nowhere test n (m + 2))
    (ha : Sound G k nowhere a m e) (hb : Sound G k nowhere b m e) (hop : op.isComparison = true)
    (hbr : branchBy? op edge (2 + size a + 1) = some br) (hskip : jumpBy? (1 + size b) = some skip) :
    Sound G k nowhere (test ++ plain [br] ++ a ++ plain [skip] ++ b) n e := by
  have hsize := size_branch hbr
  have hsize' := size_jump hskip
  let front := test ++ plain [br] ++ a ++ plain [skip]
  have hfront : size front = size test + 2 + size a + 1 := by
    simp only [front, size_append, hsize, hsize']
  let stop (t : Int) (v : Nat) : Prop := t = size (front ++ b) ∧ v = e
  have hstop : ((size (front ++ b) : Nat) : Int) = size test + 2 + size a + 1 + size b := by
    rw [size_append, hfront]
    push_cast
    rfl
  have h : Sound G k (fun t v => (t = size front ∧ v = m) ∨ stop t v) front n m := by
    refine ((ht.anywhere.append (.branch hop hbr (.inl ⟨?_, rfl⟩))).append ha.anywhere).append
      (.jump hskip (.inr ⟨?_, rfl⟩))
    · rw [hstop, size_append, size_append, hsize]
      push_cast
      omega
    · rw [hfront]
      push_cast
      omega
  have h' : Sound G k stop front n m := h.settle (Nat.le_refl k) fun t v hx => .inr hx
  exact (h'.append hb.anywhere).settle (Nat.le_refl k) fun t v hx => .inr (.inl hx)

/-- Two codes of which a test chooses one, above other words. -/
theorem Moves.fork {b : Code} {op : Binary} {br : Instr} (ht : Moves G test n (m + 2)) (ha : Moves G a m e)
    (hb : Moves G b m e) (hop : op.isComparison = true) (hbr : branchBy? op edge (2 + size a + 1) = some br)
    (hskip : jumpBy? (1 + size b) = some skip) :
    Moves G (test ++ Code.plain [br] ++ a ++ Code.plain [skip] ++ b) n e := by
  refine ⟨fun d => ?_, ?_⟩
  · have hd := ht.onTop d
    rw [Nat.add_right_comm] at hd
    exact hd.fork (ha.onTop d) (hb.onTop d) hop hbr hskip
  · simp only [List.forall_mem_append]
    exact ⟨⟨⟨⟨ht.bare, bare_plain _⟩, ha.bare⟩, bare_plain _⟩, hb.bare⟩

/-! ### Items replaced by others -/

/-- The second code is the first with each item, from the address `here` on,
replaced by one of the same size that `R` allows at its address. -/
inductive Rewrites (R : Nat → Item → Item → Prop) : Nat → Code → Code → Prop
  | nil {here : Nat} : Rewrites R here [] []
  | cons {here : Nat} {i i' : Item} {c c' : Code} (hi : R here i i') (hsize : i'.size = i.size)
    (hc : Rewrites R (here + i.size) c c') : Rewrites R here (i :: c) (i' :: c')

namespace Rewrites

variable {R : Nat → Item → Item → Prop}

theorem size_eq (h : Rewrites R here c c') : size c' = size c := by
  induction h with
  | nil => rfl
  | cons _ hsize _ ih => rw [size_cons, size_cons, hsize, ih]

theorem boundary (h : Rewrites R here c c') {q : Nat} (hq : Boundary c q) : Boundary c' q := by
  induction h generalizing q with
  | nil => exact hq
  | @cons here i i' c c' _ hsize _ ih =>
    obtain ⟨pre, post, hsplit, rfl⟩ := hq
    cases pre with
    | nil => exact boundary_zero _
    | cons j pre =>
      obtain ⟨rfl, rfl⟩ : i = j ∧ c = pre ++ post := by simpa using hsplit
      rw [size_cons, ← hsize]
      exact (ih ⟨pre, post, rfl, rfl⟩).right (c := [i'])

theorem lands {D : Nat → Nat} (h : Rewrites R here c c') (hX : ∀ t n, X t n → X' t n) {t : Int} {n : Nat}
    (hl : Lands D X c t n) : Lands D X' c' t n := by
  rcases hl with ⟨q, ht, hq, hD⟩ | hx
  · exact .inl ⟨q, ht, h.boundary hq, hD⟩
  · exact .inr (hX t n hx)

/-- The parts of the first code are replaced one by one. -/
theorem parts {a b : Code} (h : Rewrites R here (a ++ b) c') :
    ∃ a' b', Rewrites R here a a' ∧ Rewrites R (here + size a) b b' ∧ c' = a' ++ b' := by
  induction a generalizing here c' with
  | nil => exact ⟨[], c', .nil, h, rfl⟩
  | cons i a ih =>
    cases h with
    | cons hi hsize hc =>
      obtain ⟨a', b', ha, hb, rfl⟩ := ih hc
      rw [size_cons, ← Nat.add_assoc]
      exact ⟨_ :: a', b', .cons hi hsize ha, hb, rfl⟩

/-- Where an item of the new code comes from. -/
theorem origin (h : Rewrites R here c c') {pre post : Code} {i' : Item} (hc : c' = pre ++ i' :: post) :
    ∃ pre0 i post0, c = pre0 ++ i :: post0 ∧ size pre0 = size pre ∧ i'.size = i.size ∧
      R (here + size pre) i i' := by
  induction h generalizing pre with
  | nil => simp at hc
  | @cons here j j' c c' hj hsize _ ih =>
    cases pre with
    | nil =>
      obtain ⟨rfl, rfl⟩ : j' = i' ∧ c' = post := by simpa using hc
      exact ⟨[], j, c, rfl, rfl, hsize, hj⟩
    | cons l pre =>
      obtain ⟨rfl, rfl⟩ : j' = l ∧ c' = pre ++ i' :: post := by simpa using hc
      obtain ⟨pre0, i, post0, rfl, hpre, hi, hR⟩ := ih rfl
      refine ⟨j :: pre0, i, post0, rfl, ?_, hi, ?_⟩
      · rw [size_cons, size_cons, hsize, hpre]
      · rw [size_cons, hsize, ← Nat.add_assoc]
        exact hR

/-- Code of which no item is replaced by another. -/
theorem eq_self (h : Rewrites R here c c') (hR : ∀ p, ∀ i ∈ c, ∀ i', R p i i' → i' = i) : c' = c := by
  induction h with
  | nil => rfl
  | cons hi _ _ ih =>
    rw [hR _ _ List.mem_cons_self _ hi, ih fun p j hj => hR p j (List.mem_cons_of_mem _ hj)]

theorem plain_eq {is : List Instr} (h : Rewrites R here (plain is) c)
    (hR : ∀ p i i', R p (.instr i) i' → i' = .instr i) : c = plain is := by
  refine h.eq_self fun p item hmem i' hi => ?_
  obtain ⟨i, -, rfl⟩ := List.mem_map.mp hmem
  exact hR p i i' hi

/-- Depths that fit the first code fit the second if they do so item by item. -/
theorem graded {G' : Ground} {k' : Nat} {D : Nat → Nat} (h : Rewrites R here c c') (hg : Graded G k X D c)
    (hR : ∀ p i i', R (here + p) i i' → i'.size = i.size → i.Graded G k (Lands D X c) D p →
      i'.Graded G' k' (Lands D X' c') D p) :
    Graded G' k' X' D c' := by
  intro pre i' post hc
  obtain ⟨pre0, i, post0, hc0, hpre, hsize, hi⟩ := h.origin hc
  refine hR _ i i' hi hsize ?_
  rw [← hpre]
  exact hg pre0 i post0 hc0

end Rewrites

/-! ### Loops -/

/-- What closing a loop makes of an item. -/
inductive Closes (next stop here : Nat) : Item → Item → Prop
  | leave {i : Instr} (h : jumpBy? ((stop : Int) - here) = some i) :
    Closes next stop here (.exit .leave 0) (.instr i)
  | again {i : Instr} (h : jumpBy? ((next : Int) - here) = some i) :
    Closes next stop here (.exit .again 0) (.instr i)
  | outer {kind : LoopExit} {d : Nat} : Closes next stop here (.exit kind (d + 1)) (.exit kind d)
  | other {item : Item} (h : ∀ kind d, item ≠ .exit kind d) : Closes next stop here item item

theorem closeLoop_rewrites (h : closeLoop next stop here c = some c') :
    Rewrites (Closes next stop) here c c' := by
  fun_induction closeLoop next stop here c generalizing c' with
  | case1 here => cases h; exact .nil
  | case2 here kind c target =>
    rename_i ih
    simp only [Option.bind_eq_bind, Option.bind_eq_some_iff, Option.pure_def, Option.some.injEq] at h
    obtain ⟨i, hi, c1, hc1, rfl⟩ := h
    refine .cons ?_ (size_jump hi) (ih hc1)
    cases kind with
    | leave => exact .leave hi
    | again => exact .again hi
  | case3 here kind d c ih =>
    simp only [Option.bind_eq_bind, Option.bind_eq_some_iff, Option.pure_def, Option.some.injEq] at h
    obtain ⟨c1, hc1, rfl⟩ := h
    exact .cons .outer rfl (ih hc1)
  | case4 here item c h0 h1 ih =>
    simp only [Option.bind_eq_bind, Option.bind_eq_some_iff, Option.pure_def, Option.some.injEq] at h
    obtain ⟨c1, hc1, rfl⟩ := h
    refine .cons (.other ?_) rfl (ih hc1)
    rintro kind (_ | d) rfl
    · exact h0 kind rfl
    · exact h1 kind d rfl

/-- Nothing leaves code outside of loops. -/
theorem Sound.closes_eq {d : Nat} (h : Sound G 0 X c d e) (hr : Rewrites (Closes next stop) here c c') :
    c' = c := by
  obtain ⟨D, -, -, hg⟩ := h
  have hexit : ∀ kind depth, Item.exit kind depth ∉ c := by
    intro kind depth hmem
    obtain ⟨pre, post, hsplit⟩ := List.append_of_mem hmem
    exact Nat.not_lt_zero _ (hg pre _ post hsplit).2
  refine hr.eq_self fun _ item hmem _ hi => ?_
  cases hi with
  | other _ => rfl
  | _ => exact absurd hmem (hexit _ _)

/-- The jumps out of a part of a loop, once the loop is closed. -/
theorem Sound.closed {d : Nat} (h : Sound G (k + 1) nowhere c d e)
    (hc : Rewrites (Closes next stop) here c c') (hnext : X ((next : Int) - here) 0)
    (hstop : X ((stop : Int) - here) 0) : Sound G k X c' d e := by
  obtain ⟨D, h0, h1, hg⟩ := h
  refine ⟨D, h0, by rw [hc.size_eq, h1], hc.graded hg ?_⟩
  intro p i i' hi _ hgi
  cases hi with
  | leave hj =>
    obtain ⟨o, rfl, ho, hlo, hhi⟩ := jumpBy?_eq_some hj
    refine ⟨by omega, by omega, .inr ?_⟩
    rw [hgi.1, ho, show (p : Int) + (stop - ((here + p : Nat) : Int)) = stop - here by omega]
    exact hstop
  | again hj =>
    obtain ⟨o, rfl, ho, hlo, hhi⟩ := jumpBy?_eq_some hj
    refine ⟨by omega, by omega, .inr ?_⟩
    rw [hgi.1, ho, show (p : Int) + (next - ((here + p : Nat) : Int)) = next - here by omega]
    exact hnext
  | outer => exact ⟨hgi.1, Nat.lt_of_succ_lt_succ hgi.2⟩
  | other hne =>
    cases i with
    | exit kind depth => exact absurd rfl (hne kind depth)
    | instr i =>
      have hgi : (Item.instr i).Graded G k (Lands D nowhere c) D p := hgi
      exact hgi.imp (Nat.le_refl k) rfl rfl fun t n => hc.lands fun _ _ hx => hx.elim
    | call name span => exact hgi
    | goto name span => exact hgi
    | label name => exact hgi
    | mark span => exact hgi

/-- The branch that ends a test, if there is one. -/
inductive TestBranch (distance : Nat) : Option Binary → Code → Prop
  | none : TestBranch distance none []
  | some {op : Binary} {i : Instr} (hop : op.isComparison = true)
    (h : branchBy? op false distance = some i) : TestBranch distance (some op) (plain [i])

/-- The words that a branch compares, if there is one. -/
def testDepth (op : Option Binary) : Nat := if op.isSome then 2 else 0

namespace TestBranch

variable {distance : Nat} {op : Option Binary} {br : Code}

theorem sound (h : TestBranch distance op br) (hX : size br = 2 → X distance 0) :
    Sound G k X br (testDepth op) 0 := by
  cases h with
  | none => exact .nil
  | some hop h => exact .branch hop h (hX (size_branch h))

end TestBranch

/-- The start and the end of a loop of the size `s`, where the stack is empty. -/
def ends (s : Nat) : Int → Nat → Prop := fun t n => (t = 0 ∨ t = s) ∧ n = 0

/-- A loop goes on at its start or behind its body. -/
theorem Sound.loop {head tail : Code} {s : Nat} (hh : Sound G 0 (ends s) head 0 0)
    (hb : Sound G (k + 1) nowhere body 0 0)
    (ht : Sound G 0 (shifted (size head + size body) (ends s)) tail 0 0)
    (hs : s = size head + size body + size tail) (hnext : next = 0 ∨ next = size head + size body)
    (hc : closeLoop next s 0 (head ++ body ++ tail) = some c) : Sound G k nowhere c 0 0 := by
  obtain ⟨front, tail', hfront, htail', rfl⟩ := (closeLoop_rewrites hc).parts
  obtain ⟨head', body', hhead', hbody', rfl⟩ := hfront.parts
  obtain rfl := hh.closes_eq hhead'
  obtain rfl := ht.closes_eq htail'
  have hsize := hbody'.size_eq
  rw [Nat.zero_add] at hbody'
  have hf : Sound G k (fun t n => (t = next ∧ n = 0) ∨ ends s t n) (head' ++ body') 0 0 := by
    refine (hh.mono (Nat.zero_le k) fun t n hx => .inr hx).append (hb.closed hbody' ?_ ?_)
    · exact .inl ⟨by omega, rfl⟩
    · exact .inr ⟨.inr (by omega), rfl⟩
  have hf' : Sound G k (ends s) (head' ++ body') 0 0 := by
    refine hf.settle (Nat.le_refl k) ?_
    rintro t n (⟨rfl, rfl⟩ | hx)
    · rcases hnext with rfl | rfl
      · exact .inl ⟨rfl, rfl⟩
      · exact .inr (.inl ⟨by rw [size_append, hsize], rfl⟩)
    · exact .inr (.inr hx)
  have hall : Sound G k (ends s) (head' ++ body' ++ tail') 0 0 := by
    refine hf'.append ?_
    rw [size_append, hsize]
    exact ht.mono (Nat.zero_le k) fun _ _ hx => hx
  refine hall.settle (Nat.le_refl k) ?_
  rintro t n ⟨rfl | rfl, rfl⟩
  · exact .inl ⟨rfl, rfl⟩
  · exact .inr (.inl ⟨by rw [size_append, size_append, hsize, hs], rfl⟩)

/-- A loop that goes on at its test. -/
theorem Sound.whileLoop {br : Code} {op : Option Binary} (ht : Sound G 0 nowhere test 0 (testDepth op))
    (hbr : TestBranch (2 + size body + 1) op br) (hb : Sound G (k + 1) nowhere body 0 0)
    (hback : jumpBy? (-(size (test ++ br ++ body) : Int)) = some back)
    (hc : closeLoop 0 (size (test ++ br ++ body ++ plain [back])) 0
      (test ++ br ++ body ++ plain [back]) = some c) :
    Sound G k nowhere c 0 0 := by
  refine Sound.loop (ht.anywhere.append (hbr.sound fun h2 => ?_)) hb (.jump hback ?_) ?_ (.inl rfl) hc
  · refine ⟨.inr ?_, rfl⟩
    simp only [size_append, h2, size_jump hback]
    push_cast
    omega
  · refine ⟨.inl ?_, rfl⟩
    simp only [size_append]
    push_cast
    omega
  · simp only [size_append]

/-- A loop that goes on at the test behind its body. -/
theorem Sound.doWhile {op : Binary} (ht : Sound G 0 nowhere test 0 2) (hop : op.isComparison = true)
    (hb : Sound G (k + 1) nowhere body 0 0)
    (hback : jumpBy? (-(size (body ++ test ++ plain [.branch op false 3]) : Int)) = some back)
    (hc : closeLoop (size body) (size (body ++ test ++ plain [.branch op false 3] ++ plain [back])) 0
      (body ++ test ++ plain [.branch op false 3] ++ plain [back]) = some c) :
    Sound G k nowhere c 0 0 := by
  have hbr : branchBy? op false 3 = some (.branch op false 3) := rfl
  have hcode : body ++ test ++ plain [.branch op false 3] ++ plain [back] =
      [] ++ body ++ (test ++ plain [.branch op false 3] ++ plain [back]) := by simp
  rw [hcode] at hc
  refine Sound.loop .nil hb ((ht.anywhere.append (.branch hop hbr ?_)).append (.jump hback ?_)) ?_
    (.inr ?_) hc
  · refine ⟨.inr ?_, rfl⟩
    simp only [size_append, size_branch hbr, size_jump hback, size_nil]
    push_cast
    omega
  · refine ⟨.inl ?_, rfl⟩
    simp only [size_append, size_nil]
    push_cast
    omega
  · simp only [size_append]
  · rw [size_nil, Nat.zero_add]

/-- A loop that goes on at the step behind its body. -/
theorem Sound.stepLoop {br step : Code} {op : Option Binary} (ht : Sound G 0 nowhere test 0 (testDepth op))
    (hbr : TestBranch (2 + size body + size step + 1) op br) (hb : Sound G (k + 1) nowhere body 0 0)
    (hstep : Sound G 0 nowhere step 0 0)
    (hback : jumpBy? (-(size (test ++ br ++ body ++ step) : Int)) = some back)
    (hc : closeLoop (size (test ++ br ++ body))
      (size (test ++ br ++ body ++ step ++ plain [back])) 0
      (test ++ br ++ body ++ step ++ plain [back]) = some c) :
    Sound G k nowhere c 0 0 := by
  rw [List.append_assoc (test ++ br ++ body)] at hc
  refine Sound.loop (ht.anywhere.append (hbr.sound fun h2 => ?_)) hb
    (hstep.anywhere.append (.jump hback ?_)) ?_ (.inr ?_) hc
  · refine ⟨.inr ?_, rfl⟩
    simp only [size_append, h2, size_jump hback]
    push_cast
    omega
  · refine ⟨.inl ?_, rfl⟩
    simp only [size_append]
    push_cast
    omega
  · simp only [size_append]
  · simp only [size_append]

/-! ### Switches -/

/-- The code from the address `here` on starts and ends with an empty stack,
and can be entered at the addresses `Q`. -/
def Enterable (G : Ground) (k here : Nat) (c : Code) (Q : Nat → Prop) : Prop :=
  ∃ D : Nat → Nat, D 0 = 0 ∧ D (size c) = 0 ∧ Graded G k nowhere D c ∧
    ∀ q, Q q → ∃ r, q = here + r ∧ Boundary c r ∧ D r = 0

namespace Enterable

variable {first : Code}

theorem nil : Enterable G k here [] (· = here) :=
  ⟨fun _ => 0, rfl, rfl, Graded.nil, fun _ hq => ⟨0, hq, boundary_zero _, rfl⟩⟩

/-- Code can be entered at its start. -/
theorem start (h : Enterable G k here c Q) : Enterable G k here c fun q => q = here ∨ Q q := by
  obtain ⟨D, h0, h1, hg, hQ⟩ := h
  refine ⟨D, h0, h1, hg, ?_⟩
  rintro q (rfl | hq)
  · exact ⟨0, rfl, boundary_zero c, h0⟩
  · exact hQ q hq

theorem append (hf : Sound G k nowhere first 0 0) (h : Enterable G k (here + size first) c Q) :
    Enterable G k here (first ++ c) Q := by
  obtain ⟨D, h0, h1, hg⟩ := hf
  obtain ⟨E, h0', h1', hg', hQ⟩ := h
  have hmeet : D (size first) = E 0 := h1.trans h0'.symm
  refine ⟨join D (size first) E, ?_, ?_, hg.append hg' hmeet, ?_⟩
  · rw [join_left hmeet (Nat.zero_le _), h0]
  · rw [size_append, join_right, h1']
  · intro q hq
    obtain ⟨r, rfl, hb, hr⟩ := hQ q hq
    exact ⟨size first + r, Nat.add_assoc .., hb.right, by rw [join_right, hr]⟩

end Enterable

/-- Branches that go to addresses `Q` behind given gaps. -/
inductive Aims (Q : Nat → Prop) : List Nat → List Instr → Prop
  | nil : Aims Q [] []
  | cons {gap q : Nat} {gaps : List Nat} {br : Instr} {brs : List Instr} (hq : Q q)
    (h : branchBy? .ne false (gap + q) = some br) (hrest : Aims Q gaps brs) :
    Aims Q (gap :: gaps) (br :: brs)

theorem Aims.mono {Q' : Nat → Prop} {gaps : List Nat} {brs : List Instr} (h : Aims Q gaps brs)
    (hQ : ∀ q, Q q → Q' q) : Aims Q' gaps brs := by
  induction h with
  | nil => exact .nil
  | cons hq h _ ih => exact .cons (hQ _ hq) h ih

theorem Aims.size_eq : ∀ {tests : List Code} {brs : List Instr},
    Aims Q (Coder.testGaps tests) brs →
    size (Coder.joinTests tests brs) = tests.foldr (fun t n => size t + 2 + n) 0
  | [], _, _ => by simp [Coder.joinTests]
  | test :: tests, _, .cons _ h hrest => by
    simp only [Coder.joinTests, size_append, size_branch h, hrest.size_eq, List.foldr_cons]

/-- The tests of a switch go to the code behind them and one jump. -/
theorem Aims.sound : ∀ {tests : List Code} {brs : List Instr},
    Aims Q (Coder.testGaps tests) brs → (∀ t ∈ tests, Sound G k nowhere t 0 2) →
    Sound G k (fun t n => n = 0 ∧ ∃ q, Q q ∧ t = size (Coder.joinTests tests brs) + 1 + q)
      (Coder.joinTests tests brs) 0 0
  | [], _, .nil, _ => .nil
  | test :: tests, _, @Aims.cons _ _ q _ br brs hq h hrest, ht => by
    have hrest' := hrest.sound fun t hmem => ht t (List.mem_cons_of_mem _ hmem)
    have hsize : size (Coder.joinTests (test :: tests) (br :: brs)) =
        size test + 2 + size (Coder.joinTests tests brs) := by
      rw [Coder.joinTests, size_append, size_append, size_branch h]
    rw [hsize]
    refine (((ht test List.mem_cons_self).anywhere).append (.branch rfl h ?_)).append
      (hrest'.mono (Nat.le_refl k) ?_)
    · refine ⟨rfl, q, hq, ?_⟩
      rw [hrest.size_eq]
      push_cast
      omega
    · rintro t n ⟨rfl, q, hq, rfl⟩
      refine ⟨rfl, q, hq, ?_⟩
      rw [size_append, size_branch h]
      push_cast
      omega

/-- A switch: tests that go into its body, and a jump for when none does. -/
theorem Sound.switch {head : Code} {tests : List Code} {brs : List Instr} {q : Nat}
    (hh : Sound G (k + 1) nowhere head 0 0) (ht : ∀ t ∈ tests, Sound G (k + 1) nowhere t 0 2)
    (ha : Aims Q (Coder.testGaps tests) brs) (hb : Enterable G (k + 1) 0 body Q)
    (hskip : jumpBy? (1 + q) = some skip) (hq : Q q ∨ q = size body)
    (hc : closeLoop (size (head ++ Coder.joinTests tests brs ++ plain [skip] ++ body))
      (size (head ++ Coder.joinTests tests brs ++ plain [skip] ++ body)) 0
      (head ++ Coder.joinTests tests brs ++ plain [skip] ++ body) = some c) :
    Sound G k nowhere c 0 0 := by
  let front := head ++ Coder.joinTests tests brs ++ plain [skip]
  have hfront : size front = size head + size (Coder.joinTests tests brs) + 1 := by
    simp only [front, size_append, size_jump hskip]
  let X (t : Int) (n : Nat) : Prop :=
    n = 0 ∧ ∃ q, (Q q ∨ q = size body) ∧ t = size front + q
  have hsound : Sound G (k + 1) X front 0 0 := by
    refine (hh.anywhere.append ((ha.sound ht).mono (Nat.le_refl _) ?_)).append (.jump hskip ?_)
    · rintro t n ⟨rfl, q, hq, rfl⟩
      refine ⟨rfl, q, .inl hq, ?_⟩
      rw [hfront]
      push_cast
      omega
    · refine ⟨rfl, q, hq, ?_⟩
      rw [hfront, size_append]
      push_cast
      omega
  obtain ⟨D, h0, h1, hg⟩ := hsound
  obtain ⟨E, h0', h1', hg', hQ⟩ := hb
  have hmeet : D (size front) = E 0 := h1.trans h0'.symm
  -- the tests land in the body, where the stack is empty
  have hall : Graded G (k + 1) nowhere (join D (size front) E) (front ++ body) := by
    refine (hg.append (hg'.mono (Nat.le_refl _) fun _ _ hx => hx.elim) hmeet).mono (Nat.le_refl _) ?_
    rintro t n ⟨rfl, q, hq | rfl, rfl⟩
    · obtain ⟨r, rfl, hbr, hr⟩ := hQ q hq
      rw [Nat.zero_add]
      exact .inl ⟨size front + r, by push_cast; rfl, hbr.right, by rw [join_right, hr]⟩
    · exact .inl ⟨size front + size body, by push_cast; rfl, (boundary_size body).right,
        by rw [join_right, h1']⟩
  have hwhole : Sound G (k + 1) nowhere (front ++ body) 0 0 :=
    ⟨_, by rw [join_left hmeet (Nat.zero_le _), h0], by rw [size_append front, join_right, h1'], hall⟩
  have hr := closeLoop_rewrites hc
  have hclosed : Sound G k (fun t n => t = size (front ++ body) ∧ n = 0) c 0 0 :=
    hwhole.closed hr ⟨Int.sub_zero _, rfl⟩ ⟨Int.sub_zero _, rfl⟩
  refine hclosed.settle (Nat.le_refl k) fun t n hx => .inr (.inl ?_)
  rw [hr.size_eq]
  exact hx

/-! ### Jumps to labels -/

/-- What resolving the jumps to labels makes of an item. -/
inductive Resolves (labels : String → Option Nat) (here : Nat) : Item → Item → Prop
  | goto {name : String} {span : Span} {target : Nat} {i : Instr} (ht : labels name = some target)
    (h : jumpBy? ((target : Int) - here) = some i) : Resolves labels here (.goto name span) (.instr i)
  | other {item : Item} (h : ∀ name span, item ≠ .goto name span) : Resolves labels here item item

theorem labelAddress?_eq_some {name : String} {q : Nat} (h : labelAddress? name here c = some q) :
    ∃ pre post, c = pre ++ .label name :: post ∧ q = here + size pre := by
  induction c generalizing here with
  | nil => cases h
  | cons item c ih =>
    unfold labelAddress? at h
    split at h
    · rename_i hitem
      cases h
      exact ⟨[], c, by rw [hitem]; rfl, rfl⟩
    · obtain ⟨pre, post, rfl, rfl⟩ := ih h
      exact ⟨item :: pre, post, rfl, by rw [size_cons, Nat.add_assoc]⟩

/-- Plain instructions have no labels. -/
theorem labelAddress?_append_plain {name : String} {is : List Instr} :
    labelAddress? name here (c ++ plain is) = labelAddress? name here c := by
  have hplain : ∀ here, labelAddress? name here (plain is) = none := by
    induction is with
    | nil => exact fun _ => rfl
    | cons i is ih =>
      intro here
      exact (if_neg nofun).trans (ih _)
  induction c generalizing here with
  | nil => exact hplain here
  | cons item c ih =>
    rw [List.cons_append, labelAddress?, labelAddress?, ih]

/-- Jumps to labels go where the stack is empty. -/
theorem Graded.resolved {labels : String → Option Nat} {D : Nat → Nat} (hg : Graded G k nowhere D c)
    (hlabels : ∀ name target, labels name = some target → labelAddress? name 0 c = some target)
    (hr : Rewrites (Resolves labels) 0 c c') : Graded G k nowhere D c' := by
  refine hr.graded hg ?_
  intro p i i' hi _ hgi
  cases hi with
  | @goto name span target i ht hj =>
    obtain ⟨o, rfl, ho, hlo, hhi⟩ := jumpBy?_eq_some hj
    obtain ⟨pre, post, hsplit, htarget⟩ := labelAddress?_eq_some (hlabels name target ht)
    have hD : D target = 0 := by
      rw [htarget, Nat.zero_add]
      exact hg pre _ post hsplit
    have hgi : D p = 0 := hgi.2
    refine ⟨by omega, by omega, .inl ⟨target, by omega, ?_, by rw [hD, hgi]⟩⟩
    exact hr.boundary ⟨pre, _, hsplit, by omega⟩
  | other _ => exact hgi.imp (Nat.le_refl k) rfl rfl fun t n => hr.lands fun _ _ hx => hx

end Code
end RobotScript
