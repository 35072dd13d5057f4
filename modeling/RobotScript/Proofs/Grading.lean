/-
# The depth of the stack in code

Code is graded by saying how many words the stack holds at each address. The
grading fits the code if every instruction finds the words it takes, leaves
the depth that stands behind it, and every jump goes to the start of an item
(or to the end of the code) where the depth is the one it leaves. What a call
of the firmware takes, where routines stand and which places belong to the
script is left open.

Code with jumps to addresses outside of it is graded under a condition `X` on
those addresses, which is dropped once the code around it is complete.

Key definitions: `Ground`, `Code.Graded`, `Code.Sound`, `Code.Moves`.
Key theorems: `Code.Graded.append`, `Code.Sound.settle`, `Code.Moves.plain`.
-/
import RobotScript.Code.Item

namespace RobotScript

open Machine (Instr Binary)

/-- What a grading takes for granted. -/
structure Ground where
  /-- The firmware function `id` takes `k` words. -/
  native (id : Word) (k : Nat) : Prop
  /-- A routine stands at the address. -/
  sub (addr : Word) : Prop
  /-- The places that the items of code may name. -/
  place : Span → Prop

/-- Whether an item may stand in the code of an expression, which has no labels
and no jumps that wait for one. -/
def Item.isBare : Item → Bool
  | .instr _ | .call _ _ => true
  | .goto _ _ | .exit _ _ | .label _ | .mark _ => false

namespace Machine.Instr

/-- The words an instruction takes from the stack. -/
def takes : Instr → Nat
  | store _ | loadIndirect _ _ | unary _ => 1
  | storeIndirect _ _ | binary _ | branch _ _ _ => 2
  | _ => 0

/-- The words an instruction puts on the stack. -/
def leaves : Instr → Nat
  | pushSmall _ | push _ | load _ | loadIndirect _ _ | unary _ | binary _ => 1
  | _ => 0

/-- Whether the instruction always goes on behind itself and takes a fixed
number of words; its operands fit their fields. -/
def isStraight : Instr → Bool
  | pushSmall n => -2048 ≤ n && n < 2048
  | push _ | load _ | store _ | loadIndirect _ _ | storeIndirect _ _ | unary _ | binary _
  | emit _ _ _ => true
  | _ => false

/-- The instruction fits the depths `D` at the address `p`. A jump must go where
`L` admits the depth it leaves. -/
def Graded (G : Ground) (L : Int → Nat → Prop) (D : Nat → Nat) (p : Nat) : Instr → Prop
  | jump o => -2048 ≤ o.toInt ∧ o.toInt < 2048 ∧ L (p + o.toInt) (D p)
  | branch op _ o =>
    op.isComparison = true ∧ D p = D (p + 2) + 2 ∧ L (p + o.toInt) (D (p + 2))
  | callNative id => ∃ k, G.native id k ∧ D p = D (p + 1) + k
  | callSub a => G.sub a ∧ D (p + 1) = D p
  | stop | ret => D p = 0
  | i => i.isStraight = true ∧ ∃ m, D p = m + i.takes ∧ D (p + i.length) = m + i.leaves

end Machine.Instr

/-- The item fits the depths `D` at the address `p`, within `k` loops. What
leaves a statement does so with an empty stack. -/
def Item.Graded (G : Ground) (k : Nat) (L : Int → Nat → Prop) (D : Nat → Nat) (p : Nat) :
    Item → Prop
  | instr i => i.Graded G L D p
  | call _ span => G.place span ∧ D (p + 1) = D p
  | goto _ span | mark span => G.place span ∧ D p = 0
  | label _ => D p = 0
  | exit _ depth => D p = 0 ∧ depth < k

/-- An item at another address fits other depths if those agree before and
behind it and its jumps still land. -/
theorem Item.Graded.imp {G : Ground} {k k' : Nat} {L L' : Int → Nat → Prop} {D D' : Nat → Nat}
    {p p' : Nat} {item : Item} (h : item.Graded G k L D p) (hk : k ≤ k') (h0 : D' p' = D p)
    (h1 : D' (p' + item.size) = D (p + item.size))
    (hL : ∀ t n, L (p + t) n → L' (p' + t) n) : item.Graded G k' L' D' p' := by
  cases item with
  | instr i =>
    cases i with
    | jump o => exact ⟨h.1, h.2.1, h0 ▸ hL _ _ h.2.2⟩
    | branch op edge o =>
      have h2 : D' (p' + 2) = D (p + 2) := h1
      exact ⟨h.1, by rw [h0, h2]; exact h.2.1, h2 ▸ hL _ _ h.2.2⟩
    | callNative id =>
      obtain ⟨n, hn, hD⟩ := h
      have h2 : D' (p' + 1) = D (p + 1) := h1
      exact ⟨n, hn, by rw [h0, h2]; exact hD⟩
    | callSub a =>
      have h2 : D' (p' + 1) = D (p + 1) := h1
      exact ⟨h.1, by rw [h0, h2]; exact h.2⟩
    | stop => exact h0.trans h
    | ret => exact h0.trans h
    | _ =>
      obtain ⟨hi, m, htakes, hleaves⟩ := h
      exact ⟨hi, m, h0.trans htakes, h1.trans hleaves⟩
  | call name span =>
    simp only [Item.Graded, Item.size] at h h1 ⊢
    exact ⟨h.1, by rw [h0, h1, h.2]⟩
  | exit kind depth => exact ⟨h0.trans h.1, Nat.lt_of_lt_of_le h.2 hk⟩
  | goto name span => exact ⟨h.1, h0.trans h.2⟩
  | label name => exact h0.trans h
  | mark span => exact ⟨h.1, h0.trans h.2⟩

theorem Machine.Instr.graded_straight {G : Ground} {L : Int → Nat → Prop} {D : Nat → Nat} {p : Nat}
    {i : Instr} (hi : i.isStraight = true)
    (hD : ∃ m, D p = m + i.takes ∧ D (p + i.length) = m + i.leaves) : i.Graded G L D p := by
  cases i with
  | stop | ret | jump _ | branch _ _ _ | callNative _ | callSub _ => cases hi
  | _ => exact ⟨hi, hD⟩

theorem Machine.Instr.Graded.lands {G : Ground} {L L' : Int → Nat → Prop} {D : Nat → Nat} {p : Nat}
    {i : Instr} (h : i.Graded G L D p) (hL : ∀ t n, L t n → L' t n) : i.Graded G L' D p := by
  have hitem : Item.Graded G 0 L D p (.instr i) := h
  have hitem' : Item.Graded G 0 L' D p (.instr i) :=
    hitem.imp (Nat.le_refl 0) rfl rfl fun _ _ => hL _ _
  exact hitem'

namespace Code

/-- The address `q` is that of an item, or the end of the code. -/
def Boundary (c : Code) (q : Nat) : Prop := ∃ pre post, c = pre ++ post ∧ size pre = q

theorem boundary_zero (c : Code) : Boundary c 0 := ⟨[], c, rfl, rfl⟩

theorem boundary_size (c : Code) : Boundary c (size c) := ⟨c, [], (List.append_nil c).symm, rfl⟩

variable {c d : Code} {q p : Nat} {i : Instr}

theorem Boundary.left (h : Boundary c q) : Boundary (c ++ d) q := by
  obtain ⟨pre, post, rfl, hq⟩ := h
  exact ⟨pre, post ++ d, List.append_assoc .., hq⟩

theorem Boundary.right (h : Boundary d q) : Boundary (c ++ d) (size c + q) := by
  obtain ⟨pre, post, rfl, rfl⟩ := h
  exact ⟨c ++ pre, post, (List.append_assoc ..).symm, size_append c pre⟩

/-- The instruction `i` stands at the address `p` of the code. -/
def At (c : Code) (p : Nat) (i : Instr) : Prop :=
  ∃ pre post, c = pre ++ .instr i :: post ∧ size pre = p

theorem At.right (h : At d p i) : At (c ++ d) (size c + p) i := by
  obtain ⟨pre, post, rfl, rfl⟩ := h
  exact ⟨c ++ pre, post, (List.append_assoc ..).symm, size_append c pre⟩

theorem At.left (h : At c p i) : At (c ++ d) p i := by
  obtain ⟨pre, post, rfl, rfl⟩ := h
  exact ⟨pre, post ++ d, List.append_assoc .., rfl⟩

theorem At.lt_size (h : At c p i) : p < size c := by
  obtain ⟨pre, post, rfl, rfl⟩ := h
  have hpos := i.length_pos
  simp only [size_append, size_cons, Item.size]
  omega

/-- Two instructions of the code do not overlap. -/
theorem At.apart {j : Instr} (hi : At c p i) (hj : At c q j) :
    (p = q ∧ i = j) ∨ p + i.length ≤ q ∨ q + j.length ≤ p := by
  obtain ⟨pre, post, rfl, rfl⟩ := hi
  obtain ⟨pre', post', hc, rfl⟩ := hj
  rcases List.append_eq_append_iff.mp hc with ⟨mid, rfl, hmid⟩ | ⟨mid, rfl, hmid⟩
  · cases mid with
    | nil =>
      have hij : i = j := by simpa using congrArg List.head? hmid
      exact .inl ⟨by rw [List.append_nil], hij⟩
    | cons item mid =>
      obtain ⟨rfl, -⟩ : .instr i = item ∧ post = mid ++ .instr j :: post' := by simpa using hmid
      right; left
      simp only [size_append, size_cons, Item.size]
      omega
  · cases mid with
    | nil =>
      have hij : j = i := by simpa using congrArg List.head? hmid
      exact .inl ⟨by rw [List.append_nil], hij.symm⟩
    | cons item mid =>
      obtain ⟨rfl, -⟩ : .instr j = item ∧ post' = mid ++ .instr i :: post := by simpa using hmid
      right; right
      simp only [size_append, size_cons, Item.size]
      omega

theorem At.of_append (h : At (c ++ d) p i) : At c p i ∨ ∃ q, p = size c + q ∧ At d q i := by
  obtain ⟨pre, post, hc, rfl⟩ := h
  rcases List.append_eq_append_iff.mp hc with ⟨mid, rfl, hmid⟩ | ⟨mid, rfl, hmid⟩
  · exact .inr ⟨size mid, size_append .., mid, post, hmid, rfl⟩
  · cases mid with
    | nil => exact .inr ⟨0, by rw [List.append_nil]; rfl, [], post, hmid.symm, rfl⟩
    | cons item mid =>
      obtain ⟨rfl, -⟩ : .instr i = item ∧ post = mid ++ d := by simpa using hmid
      exact .inl ⟨pre, mid, rfl, rfl⟩

theorem At.append_plain {j : Instr} (h : At (c ++ plain [i]) p j) : At c p j ∨ (p = size c ∧ j = i) := by
  rcases h.of_append with h | ⟨q, rfl, pre, post, hlast, rfl⟩
  · exact .inl h
  · cases pre with
    | nil =>
      obtain ⟨rfl, -⟩ : i = j ∧ [] = post := by simpa [plain] using hlast
      exact .inr ⟨rfl, rfl⟩
    | cons item pre => simp [plain] at hlast

/-- An instruction stands at the address. -/
def Start (c : Code) (p : Nat) : Prop := ∃ i, At c p i

/-- Every word of the code is one of an instruction. -/
def Settled (c : Code) : Prop := ∀ item ∈ c, item.size = 0 ∨ ∃ i, item = .instr i

/-- Code that is followed by an instruction has one at every item. -/
theorem Boundary.start (h : Boundary c q) (hc : Settled c) (i : Instr) : Start (c ++ plain [i]) q := by
  obtain ⟨pre, post, rfl, rfl⟩ := h
  induction post generalizing pre with
  | nil =>
    rw [List.append_nil]
    exact ⟨i, pre, [], rfl, rfl⟩
  | cons item post ih =>
    rcases hc item (by simp) with hsize | ⟨j, rfl⟩
    · have hstart := ih (pre ++ [item]) (by simpa using hc)
      rw [size_append, size_cons, size_nil, hsize] at hstart
      simpa using hstart
    · exact ⟨j, pre, post ++ plain [i], by simp, rfl⟩

/-- A jump that leaves `n` words may go to the address `t`: to an item of the
code where `D` has that depth, or where `X` admits it. -/
def Lands (D : Nat → Nat) (X : Int → Nat → Prop) (c : Code) (t : Int) (n : Nat) : Prop :=
  (∃ q : Nat, t = q ∧ Boundary c q ∧ D q = n) ∨ X t n

/-- The depths `D` fit the code, within `k` loops. -/
def Graded (G : Ground) (k : Nat) (X : Int → Nat → Prop) (D : Nat → Nat) (c : Code) : Prop :=
  ∀ pre item post, c = pre ++ item :: post → item.Graded G k (Lands D X c) D (size pre)

/-- The depths `D` up to the address `s`, the depths `E` from there on. -/
def join (D : Nat → Nat) (s : Nat) (E : Nat → Nat) (p : Nat) : Nat := if p < s then D p else E (p - s)

theorem join_left {D E : Nat → Nat} {s : Nat} (h : D s = E 0) (hp : p ≤ s) : join D s E p = D p := by
  unfold join
  split
  · rfl
  · obtain rfl : p = s := by omega
    rw [Nat.sub_self, h]

@[simp] theorem join_right (D E : Nat → Nat) (s p : Nat) : join D s E (s + p) = E p := by
  unfold join
  rw [if_neg (by omega), Nat.add_sub_cancel_left]

namespace Graded

variable {G : Ground} {k : Nat} {X : Int → Nat → Prop} {D E : Nat → Nat}

theorem nil : Graded G k X D [] := by
  intro pre item post h
  simp at h

/-- Code behind code, if the depths agree where they meet. -/
theorem append (hc : Graded G k X D c) (hd : Graded G k (fun t n => X (size c + t) n) E d)
    (h : D (size c) = E 0) : Graded G k X (join D (size c) E) (c ++ d) := by
  intro pre item post hsplit
  rcases List.append_eq_append_iff.mp hsplit with ⟨mid, rfl, hd'⟩ | ⟨mid, rfl, hc'⟩
  · -- the item stands in the second code
    rw [size_append]
    refine (hd mid item post hd').imp (Nat.le_refl k) (join_right ..) ?_ ?_
    · rw [Nat.add_assoc, join_right]
    · rintro t n (⟨q, hq, hb, rfl⟩ | hX)
      · refine .inl ⟨size c + q, ?_, hb.right, join_right ..⟩
        push_cast at hq ⊢
        omega
      · refine .inr ?_
        rwa [show ((size c + size mid : Nat) : Int) + t = size c + (size mid + t) by push_cast; omega]
  · cases mid with
    | nil =>
      -- the second code starts with the item
      obtain rfl : item :: post = d := by simpa using hc'
      have := hd [] item post rfl
      rw [List.append_nil]
      refine this.imp (Nat.le_refl k) (join_right D E (size pre) 0) ?_ ?_
      · rw [join_right, size_nil, Nat.zero_add]
      rintro t n (⟨q, hq, hb, rfl⟩ | hX)
      · refine .inl ⟨size pre + q, ?_, by simpa using hb.right (c := pre), by simp⟩
        simp only [size_nil] at hq
        push_cast
        omega
      · refine .inr ?_
        simpa using hX
    | cons item' mid =>
      -- the item stands in the first code
      obtain ⟨rfl, rfl⟩ : item = item' ∧ post = mid ++ d := by simpa using hc'
      have hle : size pre + item.size ≤ size (pre ++ item :: mid) := by
        rw [size_append, size_cons]
        omega
      refine (hc pre item mid rfl).imp (Nat.le_refl k) (join_left h (by omega)) (join_left h hle) ?_
      rintro t n (⟨q, hq, hb, rfl⟩ | hX)
      · obtain ⟨a, b, hab, rfl⟩ := hb
        have : size a ≤ size (pre ++ item :: mid) := by rw [hab, size_append]; omega
        exact .inl ⟨size a, hq, Boundary.left ⟨a, b, hab, rfl⟩, join_left h this⟩
      · exact .inr hX

/-- Depths that fit within fewer loops, or with fewer places to jump to. -/
theorem mono {k' : Nat} {X' : Int → Nat → Prop} (h : Graded G k X D c) (hk : k ≤ k')
    (hX : ∀ t n, X t n → Lands D X' c t n) : Graded G k' X' D c := by
  intro pre item post hsplit
  refine (h pre item post hsplit).imp hk rfl rfl ?_
  rintro t n (hb | hx)
  · exact .inl hb
  · exact hX _ _ hx

theorem single {item : Item} (h : item.Graded G k X D 0) : Graded G k X D [item] := by
  intro pre item' post hsplit
  cases pre with
  | nil =>
    obtain ⟨rfl, rfl⟩ : item = item' ∧ [] = post := by simpa using hsplit
    exact h.imp (Nat.le_refl k) rfl rfl fun t n hx => .inr hx
  | cons i pre => simp at hsplit

end Graded

/-- No address outside the code. -/
def nowhere : Int → Nat → Prop := fun _ _ => False

/-- The addresses `X` counted from the address `s` on. -/
def shifted (s : Nat) (X : Int → Nat → Prop) : Int → Nat → Prop := fun t n => X (s + t) n

/-- Some depths fit the code that go from `d` at its start to `e` at its end. -/
def Sound (G : Ground) (k : Nat) (X : Int → Nat → Prop) (c : Code) (d e : Nat) : Prop :=
  ∃ D : Nat → Nat, D 0 = d ∧ D (size c) = e ∧ Graded G k X D c

namespace Sound

variable {G : Ground} {k d e f : Nat} {X X' : Int → Nat → Prop} {c' : Code}

theorem nil : Sound G k X [] d d := ⟨fun _ => d, rfl, rfl, Graded.nil⟩

theorem append (h : Sound G k X c d e) (h' : Sound G k (shifted (size c) X) c' e f) :
    Sound G k X (c ++ c') d f := by
  obtain ⟨D, h0, h1, hg⟩ := h
  obtain ⟨E, h0', h1', hg'⟩ := h'
  have hmeet : D (size c) = E 0 := h1.trans h0'.symm
  refine ⟨join D (size c) E, ?_, ?_, hg.append hg' hmeet⟩
  · rw [join_left hmeet (Nat.zero_le _), h0]
  · rw [size_append, join_right, h1']

/-- Jumps to the start and to the end of the code are settled. -/
theorem settle {k' : Nat} (h : Sound G k X c d e) (hk : k ≤ k')
    (hX : ∀ t n, X t n → (t = 0 ∧ n = d) ∨ (t = size c ∧ n = e) ∨ X' t n) : Sound G k' X' c d e := by
  obtain ⟨D, h0, h1, hg⟩ := h
  refine ⟨D, h0, h1, hg.mono hk fun t n hx => ?_⟩
  rcases hX t n hx with ⟨rfl, rfl⟩ | ⟨rfl, rfl⟩ | hx
  · exact .inl ⟨0, rfl, boundary_zero c, h0⟩
  · exact .inl ⟨size c, rfl, boundary_size c, h1⟩
  · exact .inr hx

theorem mono {k' : Nat} (h : Sound G k X c d e) (hk : k ≤ k') (hX : ∀ t n, X t n → X' t n) :
    Sound G k' X' c d e :=
  h.settle hk fun t n hx => .inr (.inr (hX t n hx))

/-- Code without jumps out of it, wherever those might go. -/
theorem anywhere (h : Sound G k nowhere c d e) : Sound G k X c d e :=
  h.mono (Nat.le_refl k) fun _ _ hx => hx.elim

end Sound

/-- The code takes `a` words from the stack and leaves `b` in their place, and
is that of an expression. -/
structure Moves (G : Ground) (c : Code) (a b : Nat) : Prop where
  onTop : ∀ d, Sound G 0 nowhere c (a + d) (b + d)
  bare : ∀ item ∈ c, item.isBare = true

theorem bare_plain (is : List Instr) : ∀ item ∈ plain is, item.isBare = true := by
  intro item hmem
  obtain ⟨i, -, rfl⟩ := List.mem_map.mp hmem
  rfl

namespace Moves

variable {G : Ground} {a b e : Nat} {c' : Code}

theorem nil : Moves G [] a a := ⟨fun _ => Sound.nil, nofun⟩

theorem append (h : Moves G c a b) (h' : Moves G c' b e) : Moves G (c ++ c') a e :=
  ⟨fun d => (h.onTop d).append (h'.onTop d), fun item hmem =>
    (List.mem_append.mp hmem).elim (h.bare item) (h'.bare item)⟩

/-- More words below those that the code takes. -/
theorem above {a' b' : Nat} (h : Moves G c a b) (n : Nat) (ha : a' = a + n) (hb : b' = b + n) :
    Moves G c a' b' := by
  refine ⟨fun d => ?_, h.bare⟩
  rw [ha, hb, Nat.add_assoc, Nat.add_assoc]
  exact h.onTop (n + d)

/-- A call leaves the stack to the routine it calls. -/
theorem call {name : String} {span : Span} (h : G.place span) : Moves G [.call name span] a a where
  onTop d := ⟨fun _ => a + d, rfl, rfl, Graded.single ⟨h, rfl⟩⟩
  bare _ hmem := List.mem_singleton.mp hmem ▸ rfl

theorem callNative {id : Word} (h : G.native id a) : Moves G (plain [.callNative id]) a 0 := by
  refine ⟨fun d => ?_, bare_plain _⟩
  refine ⟨fun p => if p = 0 then a + d else d, rfl, (Nat.zero_add d).symm, Graded.single ?_⟩
  exact ⟨a, h, Nat.add_comm a d⟩

theorem sound {k : Nat} {X : Int → Nat → Prop} (h : Moves G c a b) : Sound G k X c a b :=
  (h.onTop 0).mono (Nat.zero_le k) fun _ _ hx => hx.elim

end Moves
end Code

namespace Machine.Instr

/-- The depth behind an instruction that goes on there; none if it finds too
few words. -/
def after? (i : Instr) (n : Nat) : Option Nat :=
  if i.isStraight = true ∧ i.takes ≤ n then some (n - i.takes + i.leaves) else none

/-- The depth behind instructions that go on one after another. -/
def afterAll? : List Instr → Nat → Option Nat
  | [], n => some n
  | i :: is, n => (i.after? n).bind (afterAll? is)

@[simp] theorem afterAll?_nil (n : Nat) : afterAll? [] n = some n := rfl

@[simp] theorem afterAll?_cons (i : Instr) (is : List Instr) (n : Nat) :
    afterAll? (i :: is) n = (i.after? n).bind (afterAll? is) := rfl

/-- An instruction that finds the words it takes. -/
theorem after?_eq_some {i : Instr} {n : Nat} (hi : i.isStraight = true) (hn : i.takes ≤ n) :
    i.after? n = some (n - i.takes + i.leaves) :=
  if_pos ⟨hi, hn⟩

@[simp] theorem after?_load (a : Word) (n : Nat) : (load a).after? n = some (n + 1) :=
  after?_eq_some rfl (Nat.zero_le n)

@[simp] theorem after?_store (a : Word) (n : Nat) : (store a).after? (n + 1) = some n :=
  after?_eq_some rfl (Nat.le_add_left 1 n)

@[simp] theorem after?_loadIndirect (a size : Word) (n : Nat) :
    (loadIndirect a size).after? (n + 1) = some (n + 1) :=
  after?_eq_some rfl (Nat.le_add_left 1 n)

@[simp] theorem after?_storeIndirect (a size : Word) (n : Nat) :
    (storeIndirect a size).after? (n + 2) = some n :=
  after?_eq_some rfl (Nat.le_add_left 2 n)

@[simp] theorem after?_unary (op : Machine.Unary) (n : Nat) : (unary op).after? (n + 1) = some (n + 1) :=
  after?_eq_some rfl (Nat.le_add_left 1 n)

@[simp] theorem after?_binary (op : Binary) (n : Nat) : (binary op).after? (n + 2) = some (n + 1) :=
  after?_eq_some rfl (Nat.le_add_left 2 n)

@[simp] theorem after?_emit (id a size : Word) (n : Nat) : (emit id a size).after? n = some n :=
  after?_eq_some rfl (Nat.zero_le n)

@[simp] theorem after?_immediate (v : Cell) (n : Nat) : (immediate v).after? n = some (n + 1) := by
  unfold immediate
  split
  · rename_i h
    simp [after?, isStraight, takes, leaves, h]
  · rfl

end Machine.Instr

namespace Code

variable {G : Ground} {a b : Nat}

theorem Moves.straight {i : Instr} (h : i.after? a = some b) : Moves G [.instr i] a b := by
  refine ⟨fun d => ?_, bare_plain [i]⟩
  simp only [Instr.after?] at h
  split at h
  · rename_i hi
    obtain rfl : a - i.takes + i.leaves = b := by simpa using h
    have hpos := i.length_pos
    have hbehind {n : Nat} (hn : 0 < n) : (if n = 0 then a + d else a - i.takes + i.leaves + d) =
        a - i.takes + i.leaves + d :=
      if_neg (by omega)
    refine ⟨fun p => if p = 0 then a + d else a - i.takes + i.leaves + d, rfl, hbehind hpos, ?_⟩
    refine Graded.single ?_
    have hgraded : i.Graded G nowhere (fun p => if p = 0 then a + d else a - i.takes + i.leaves + d) 0 := by
      refine Instr.graded_straight hi.1 ⟨a - i.takes + d, show a + d = _ by omega, ?_⟩
      rw [Nat.zero_add, hbehind hpos]
      omega
    exact hgraded
  · cases h

/-- Instructions that go on one after another. -/
theorem Moves.plain : ∀ {is : List Instr} {a b : Nat}, Instr.afterAll? is a = some b →
    Moves G (plain is) a b
  | [], a, b, h => by
    obtain rfl : a = b := by simpa using h
    exact Moves.nil
  | i :: is, a, b, h => by
    simp only [Instr.afterAll?_cons, Option.bind_eq_some_iff] at h
    obtain ⟨n, hi, his⟩ := h
    exact (Moves.straight hi).append (Moves.plain his)

end Code
end RobotScript
