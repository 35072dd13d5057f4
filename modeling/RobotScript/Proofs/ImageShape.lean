/-
# The shape of images

Reading an image back gives the instructions it was made of, their operands
cut to their fields, one behind another from the end of the table to the end
of the image. The instructions of a routine follow those of the one before it;
its jumps stay within it and it ends as its entry asks. Calls go to the starts
of routines that can be called, and the places of statements are those of
instructions, in order.

Key definitions: `Instr.cut`, `Code.listing`, `Tiles`, `Image.UnitShape`, `Image.Divides`.
Key theorems: `decode_encode`, `Code.decodeAll_words`, `compiled_image_well_formed`.
-/
import RobotScript.Machine.Listing
import RobotScript.Proofs.Execution
import RobotScript.Proofs.Linking

namespace RobotScript
namespace Machine

/-! ### Decoding -/

namespace Instr

/-- The instruction with its operands cut to their fields. -/
def cut : Instr → Instr
  | load a => load (UInt16.ofNat (a.toNat % 4096))
  | store a => store (UInt16.ofNat (a.toNat % 4096))
  | loadIndirect a size => loadIndirect (UInt16.ofNat (a.toNat % 4096)) size
  | storeIndirect a size => storeIndirect (UInt16.ofNat (a.toNat % 4096)) size
  | emit id a size => emit (UInt16.ofNat (id.toNat % 4096)) a size
  | callNative id => callNative (UInt16.ofNat (id.toNat % 4096))
  | callSub a => callSub (UInt16.ofNat (a.toNat % 4096))
  | i => i

@[simp] theorem length_cut (i : Instr) : i.cut.length = i.length := by
  cases i <;> rfl

theorem word_cut (op : Opcode) (a : Word) :
    op.word (UInt16.ofNat (a.toNat % 4096)).toNat = op.word a.toNat := by
  rw [Opcode.word, Opcode.word, UInt16.toNat_ofNat']
  congr 2
  omega

theorem encode_cut (i : Instr) : i.cut.encode = i.encode := by
  cases i <;> simp only [cut, encode, word_cut]

/-- The signed operand of the instruction fits its field, and a branch makes a
comparison. -/
def Fits : Instr → Prop
  | pushSmall n => -2048 ≤ n.toInt ∧ n.toInt < 2048
  | jump o => -2048 ≤ o.toInt ∧ o.toInt < 2048
  | branch op _ _ => op.isComparison = true
  | _ => True

theorem Graded.fits {G : Ground} {L : Int → Nat → Prop} {D : Nat → Nat} {p : Nat} {i : Instr}
    (h : i.Graded G L D p) : i.Fits := by
  cases i with
  | pushSmall n =>
    have hn : -2048 ≤ n ∧ n < 2048 := by simpa [isStraight] using h.1
    exact ⟨Int16.le_iff_toInt_le.mp hn.1, Int16.lt_iff_toInt_lt.mp hn.2⟩
  | jump o => exact ⟨h.1, h.2.1⟩
  | branch op edge o => exact h.1
  | _ => trivial

end Instr

/-- Decoding the words of an instruction. -/
theorem decode_encode {i : Instr} (h : i.Fits) (addr : Nat) (rest : List Word) :
    ∃ w ws, i.encode = w :: ws ∧ decode addr w (ws ++ rest) = .ok i.cut := by
  cases i with
  | pushSmall n | jump n =>
    refine ⟨_, _, rfl, ?_⟩
    simp only [decode, Opcode.ofWord?_word, signed12_word _ h.1 h.2, Int16.ofInt_toInt, Instr.cut]
  | push n =>
    refine ⟨_, _, rfl, ?_⟩
    simp only [decode, Opcode.ofWord?_word, List.cons_append]
    rfl
  | unary op =>
    have hop : op.code % 4096 = op.code := by cases op <;> rfl
    refine ⟨_, _, rfl, ?_⟩
    simp only [decode, Opcode.ofWord?_word, operand_word, hop, Unary.ofCode?_code, Instr.cut]
  | binary op =>
    have hop : op.code % 4096 = op.code := by cases op <;> rfl
    refine ⟨_, _, rfl, ?_⟩
    simp only [decode, Opcode.ofWord?_word, operand_word, hop, Binary.ofCode?_code, Instr.cut]
  | branch op edge o =>
    have hcode : Binary.ofCode? ((op.code + edge.toNat * 256) % 4096 % 256) = some op := by
      cases edge <;> cases op <;> rfl
    have hedge : isEdge (Opcode.conditionalBranch.word (op.code + edge.toNat * 256)) = edge := by
      cases edge <;> cases op <;> rfl
    have hop : op.isComparison = true := h
    refine ⟨_, _, rfl, ?_⟩
    simp only [decode, Opcode.ofWord?_word, operand_word, hcode, hop, hedge, if_true, List.cons_append]
    rfl
  | _ =>
    refine ⟨_, _, rfl, ?_⟩
    simp only [decode, Opcode.ofWord?_word, operand_word, Instr.cut, List.cons_append]

/-- The instructions stand one behind another from `lo` to `hi`. -/
def Tiles : Nat → List (Nat × Instr) → Nat → Prop
  | lo, [], hi => lo = hi
  | lo, (a, i) :: rest, hi => a = lo ∧ Tiles (lo + i.length) rest hi

end Machine

open Machine (Instr Tiles decodeAll)

/-! ### Listings of code -/

namespace Code

/-- The instructions of code that stands at `base`, as they are read back. -/
def listing (base : Nat) : Code → List (Nat × Instr)
  | [] => []
  | .instr i :: c => (base, i.cut) :: listing (base + i.length) c
  | item :: c => listing (base + item.size) c

theorem listing_append (c d : Code) (base : Nat) :
    listing base (c ++ d) = listing base c ++ listing (base + size c) d := by
  induction c generalizing base with
  | nil => rfl
  | cons item c ih =>
    cases item <;>
      simp only [List.cons_append, listing, ih, size_cons, Nat.add_assoc, Item.size]

variable {c : Code}

theorem mem_listing {base a : Nat} {j : Instr} :
    (a, j) ∈ listing base c ↔ ∃ p i, At c p i ∧ a = base + p ∧ j = i.cut := by
  constructor
  · intro h
    induction c generalizing base with
    | nil => cases h
    | cons item c ih =>
      have hrest (h : (a, j) ∈ listing (base + item.size) c) :
          ∃ p i, At (item :: c) p i ∧ a = base + p ∧ j = i.cut := by
        obtain ⟨p, i, hi, rfl, rfl⟩ := ih h
        refine ⟨item.size + p, i, ?_, Nat.add_assoc .., rfl⟩
        exact At.right (c := [item]) hi
      cases item with
      | instr i =>
        rcases List.mem_cons.mp h with h | h
        · obtain ⟨rfl, rfl⟩ : a = base ∧ j = i.cut := by simpa using h
          exact ⟨0, i, ⟨[], c, rfl, rfl⟩, rfl, rfl⟩
        · exact hrest h
      | _ => exact hrest h
  · rintro ⟨p, i, ⟨pre, post, rfl, rfl⟩, rfl, rfl⟩
    rw [listing_append]
    exact List.mem_append_right _ List.mem_cons_self

theorem Settled.tail {item : Item} (h : Settled (item :: c)) : Settled c :=
  fun i hi => h i (List.mem_cons_of_mem _ hi)

theorem size_eq_zero {item : Item} (h : item.size = 0) :
    (∃ name, item = .label name) ∨ ∃ span, item = .mark span := by
  cases item with
  | instr i => exact absurd h (Nat.ne_of_gt i.length_pos)
  | label name => exact .inl ⟨name, rfl⟩
  | mark span => exact .inr ⟨span, rfl⟩
  | call _ _ | goto _ _ | exit _ _ => cases h

theorem tiles_listing (h : Settled c) (base : Nat) : Tiles base (listing base c) (base + size c) := by
  induction c generalizing base with
  | nil => rfl
  | cons item c ih =>
    have hrest := ih h.tail (base + item.size)
    rw [size_cons, ← Nat.add_assoc]
    rcases h item List.mem_cons_self with hsize | ⟨i, rfl⟩
    · rw [hsize, Nat.add_zero] at hrest ⊢
      rcases size_eq_zero hsize with ⟨_, rfl⟩ | ⟨_, rfl⟩ <;> exact hrest
    · exact ⟨rfl, by rw [Instr.length_cut]; exact hrest⟩

theorem encode_listing (h : Settled c) (base : Nat) :
    (listing base c).flatMap (fun e => e.2.encode) = words c := by
  induction c generalizing base with
  | nil => rfl
  | cons item c ih =>
    have hrest := ih h.tail (base + item.size)
    rcases h item List.mem_cons_self with hsize | ⟨i, rfl⟩
    · rcases size_eq_zero hsize with ⟨_, rfl⟩ | ⟨_, rfl⟩ <;> exact hrest
    · rw [listing, List.flatMap_cons, Instr.encode_cut, words]
      exact congrArg (i.encode ++ ·) hrest

/-- The words of code are read back as its listing. -/
theorem decodeAll_words (h : Settled c) (hf : ∀ p i, At c p i → i.Fits) (base : Nat) :
    decodeAll base (words c) = .ok (listing base c) := by
  induction c generalizing base with
  | nil => rw [words, decodeAll, listing]
  | cons item c ih =>
    have hrest := ih h.tail fun p i hi => hf _ i (At.right (c := [item]) hi)
    rcases h item List.mem_cons_self with hsize | ⟨i, rfl⟩
    · rcases size_eq_zero hsize with ⟨_, rfl⟩ | ⟨_, rfl⟩ <;> exact hrest base
    · obtain ⟨w, ws, hencode, hdecode⟩ :=
        Machine.decode_encode (hf 0 i ⟨[], c, rfl, rfl⟩) base (words c)
      have hlength : ws.length = i.length - 1 := by
        have := i.length_encode
        rw [hencode, List.length_cons] at this
        omega
      rw [words, hencode, List.cons_append, decodeAll, hdecode]
      simp only [bind, Except.bind, Instr.length_cut]
      rw [← hlength, List.drop_left, hrest (base + i.length)]
      rfl

end Code

/-! ### The table -/

namespace Image

open Machine (eventPairs eventTable disassemble)

theorem eventPairs_flatMap {lo hi : Nat} : ∀ {handlers : List (Word × Nat)},
    (∀ h ∈ handlers, lo ≤ h.2 ∧ h.2 < hi ∧ h.2 < 65536) →
      eventPairs lo hi (handlers.flatMap fun h => [h.1, UInt16.ofNat h.2]) = some handlers
  | [], _ => rfl
  | handler :: handlers, h => by
    obtain ⟨hlo, hhi, hword⟩ := h handler List.mem_cons_self
    have haddr : (UInt16.ofNat handler.2).toNat = handler.2 := by
      rw [UInt16.toNat_ofNat']
      omega
    have hrest := eventPairs_flatMap fun h' hh' => h h' (List.mem_cons_of_mem _ hh')
    rw [List.flatMap_cons, List.cons_append, List.cons_append, List.nil_append, eventPairs, haddr,
      if_pos ⟨hlo, hhi⟩, hrest]
    rfl

/-- The table of an image is read back as it was written. -/
theorem eventTable_header {handlers : List (Word × Nat)} {size : Nat} {ws : List Word}
    (hsize : size = 1 + 2 * handlers.length) (hlength : (header size handlers).length = size)
    (hlt : size < 65536) (hh : ∀ h ∈ handlers, size ≤ h.2 ∧ h.2 < size + ws.length ∧ h.2 < 65536) :
    eventTable (header size handlers ++ ws) = .ok handlers := by
  have hfirst : (UInt16.ofNat size).toNat = size := by
    rw [UInt16.toNat_ofNat']
    omega
  have hflat : (handlers.flatMap fun h => [h.1, UInt16.ofNat h.2]).length = size - 1 := by
    rw [header, List.length_cons] at hlength
    omega
  unfold header at hlength ⊢
  rw [List.cons_append, eventTable, hfirst]
  rw [if_neg (by simp only [List.length_cons, List.length_append]; omega), ← hflat, List.take_left]
  simp only [List.length_cons, List.length_append, hflat]
  rw [show size - 1 + ws.length + 1 = size + ws.length by omega, eventPairs_flatMap hh]

/-- An image is read back by reading what stands behind its table. -/
theorem disassemble_header {handlers : List (Word × Nat)} {size : Nat} {ws : List Word}
    (hsize : size = 1 + 2 * handlers.length) (hlength : (header size handlers).length = size)
    (hlt : size < 65536) (hh : ∀ h ∈ handlers, size ≤ h.2 ∧ h.2 < size + ws.length ∧ h.2 < 65536) :
    disassemble (header size handlers ++ ws) = decodeAll size ws := by
  have hfirst : (UInt16.ofNat size).toNat = size := by
    rw [UInt16.toNat_ofNat']
    omega
  have hdrop : (header size handlers ++ ws).drop size = ws := List.drop_left' hlength
  unfold disassemble
  rw [eventTable_header hsize hlength hlt hh]
  simp only [bind, Except.bind]
  unfold header at hdrop ⊢
  rw [List.cons_append] at hdrop ⊢
  dsimp only
  rw [hfirst, hdrop]

/-! ### Routines -/

/-- Where the instruction at `p` may go on besides behind itself. -/
def target? (p : Nat) : Instr → Option Int
  | .jump o | .branch _ _ o => some (p + o.toInt)
  | _ => none

theorem target?_cut (p : Nat) (i : Instr) : target? p i.cut = target? p i := by
  cases i <;> rfl

/-- The listing of a routine at `base`: its instructions lie one behind another,
jumps stay among them, and the last one is that of its entry. -/
structure UnitShape (base : Nat) (u : ObjectCode) (piece : List (Nat × Instr)) : Prop where
  tiles : Tiles base piece (base + u.words.length)
  closed : ∀ p i, (p, i) ∈ piece → ∀ t, target? p i = some t →
    ∃ (q : Nat) (j : Instr), t = q ∧ (q, j) ∈ piece
  ends : ∃ front p, piece = front ++ [(p, u.entry.ending)]

/-- The listing is that of one routine behind another, from `base` on. -/
inductive Divides : Nat → List ObjectCode → List (Nat × Instr) → Prop
  | nil {base : Nat} : Divides base [] []
  | cons {base : Nat} {u : ObjectCode} {us : List ObjectCode} {piece rest : List (Nat × Instr)}
    (hu : UnitShape base u piece) (hrest : Divides (base + u.words.length) us rest) :
    Divides base (u :: us) (piece ++ rest)

open Code (Rewrites Graded Lands Start nowhere plain)

variable {G : Ground} {callable : List (String × Nat)} {units : List ObjectCode} {parts : List Code}

/-- A jump of graded code goes where the grading lets it go. -/
theorem target?_graded {L : Int → Nat → Prop} {D : Nat → Nat} {base p : Nat} {i : Instr} {t : Int}
    (h : i.Graded G L D p) (ht : target? (base + p) i = some t) : ∃ n, L (t - base) n := by
  cases i with
  | jump o =>
    obtain rfl := Option.some.inj ht
    refine ⟨D p, ?_⟩
    have htarget : ((base + p : Nat) : Int) + o.toInt - base = p + o.toInt := by push_cast; omega
    rw [htarget]
    exact h.2.2
  | branch op edge o =>
    obtain rfl := Option.some.inj ht
    refine ⟨D (p + 2), ?_⟩
    have htarget : ((base + p : Nat) : Int) + o.toInt - base = p + o.toInt := by push_cast; omega
    rw [htarget]
    exact h.2.2
  | _ => cases ht

section Routine

variable {u : ObjectCode} {block linked : Code}

/-- The depths that fit a linked routine. -/
theorem Links.routine (hsub : ∀ a, ¬ G.sub a) (hu : u.Assembled G block)
    (hl : Rewrites (Links callable) 0 block linked) :
    ∃ D, Graded (grounded G callable) 0 nowhere D linked := by
  obtain ⟨D, -, -, hg⟩ := hu.sound
  exact ⟨D, Links.graded hsub hg hl⟩

theorem Links.shape (hsub : ∀ a, ¬ G.sub a) (hu : u.Assembled G block)
    (hl : Rewrites (Links callable) 0 block linked) (base : Nat) :
    UnitShape base u (Code.listing base (linked ++ plain [u.entry.ending])) := by
  have hsettled := Links.settled hu hl
  obtain ⟨D, hg⟩ := Links.routine hsub hu hl
  refine ⟨?_, ?_, ?_⟩
  · rw [length_linked hu hl]
    refine Code.tiles_listing (fun item hmem => ?_) base
    rcases List.mem_append.mp hmem with hmem | hmem
    · exact hsettled item hmem
    · exact .inr ⟨_, List.mem_singleton.mp hmem⟩
  · intro p j hmem t ht
    obtain ⟨q, i, hat, rfl, rfl⟩ := Code.mem_listing.mp hmem
    rw [target?_cut] at ht
    rcases hat.append_plain with ⟨pre, post, hsplit, rfl⟩ | ⟨-, rfl⟩
    · have hi : i.Graded (grounded G callable) _ D (Code.size pre) := hg pre _ post hsplit
      obtain ⟨n, ⟨r, hr, hb, -⟩ | hnowhere⟩ := target?_graded hi ht
      · obtain ⟨j, hj⟩ := hb.start hsettled u.entry.ending
        refine ⟨base + r, j.cut, ?_, Code.mem_listing.mpr ⟨r, j, hj, rfl, rfl⟩⟩
        push_cast
        omega
      · exact hnowhere.elim
    · rcases u.entry.ending_cases with h | h <;> rw [h] at ht <;> cases ht
  · refine ⟨Code.listing base linked, base + Code.size linked, ?_⟩
    rw [Code.listing_append]
    rcases u.entry.ending_cases with h | h <;> rw [h] <;> rfl

end Routine

namespace Laid

variable (h : Laid G callable units parts) (hsub : ∀ a, ¬ G.sub a)

include h hsub

theorem divides (base : Nat) : Divides base units (Code.listing base parts.flatten) := by
  induction h generalizing base with
  | nil => exact .nil
  | cons hu hl _ ih =>
    rw [List.flatten_cons, Code.listing_append, ← length_linked hu hl]
    exact .cons (Links.shape hsub hu hl base) (ih _)

/-- An instruction of the program ends a routine or is graded. -/
theorem instr {p : Nat} {i : Instr} (hi : Code.At parts.flatten p i) :
    (i = .ret ∨ i = .stop) ∨ ∃ L D q, i.Graded (grounded G callable) L D q := by
  induction h generalizing p with
  | nil => obtain ⟨pre, post, hsplit, -⟩ := hi; simp at hsplit
  | @cons u us block linked parts hu hl _ ih =>
    rw [List.flatten_cons] at hi
    rcases hi.of_append with hi | ⟨q, -, hi⟩
    · rcases hi.append_plain with ⟨pre, post, hsplit, -⟩ | ⟨-, rfl⟩
      · obtain ⟨D, hg⟩ := Links.routine hsub hu hl
        exact .inr ⟨_, D, _, hg pre _ post hsplit⟩
      · exact .inl u.entry.ending_cases
    · exact ih hi

theorem fits {p : Nat} {i : Instr} (hi : Code.At parts.flatten p i) : i.Fits := by
  rcases h.instr hsub hi with (rfl | rfl) | ⟨L, D, q, hg⟩
  · trivial
  · trivial
  · exact hg.fits

theorem calls {p : Nat} {a : Word} (hi : Code.At parts.flatten p (.callSub a)) :
    ∃ name addr, callable.lookup name = some addr ∧ a = UInt16.ofNat addr := by
  rcases h.instr hsub hi with (h | h) | ⟨L, D, q, hg⟩
  · cases h
  · cases h
  · exact hg.1

end Laid

/-! ### The places of statements -/

theorem addressed_append (c d : Code) (here : Nat) :
    Code.addressed here (c ++ d) = Code.addressed here c ++ Code.addressed (here + Code.size c) d := by
  induction c generalizing here with
  | nil => rfl
  | cons item c ih => rw [List.cons_append, Code.addressed, ih, Code.size_cons, Nat.add_assoc]; rfl

/-- The addresses of the statements of code from `here` on. -/
def statements (here : Nat) (c : Code) : List Nat :=
  ((Code.addressed here c).filterMap Item.statement?).map (·.2)

theorem mem_statements {c : Code} {here a : Nat} (h : a ∈ statements here c) :
    ∃ q, Code.Boundary c q ∧ a = here + q := by
  induction c generalizing here with
  | nil => cases h
  | cons item c ih =>
    have hrest (h : a ∈ statements (here + item.size) c) :
        ∃ q, Code.Boundary (item :: c) q ∧ a = here + q := by
      obtain ⟨q, hq, rfl⟩ := ih h
      exact ⟨item.size + q, hq.right (c := [item]), Nat.add_assoc ..⟩
    cases item with
    | mark span =>
      rcases List.mem_cons.mp h with rfl | h
      · exact ⟨0, Code.boundary_zero _, rfl⟩
      · exact hrest h
    | _ => exact hrest h

theorem statements_sorted (c : Code) (here : Nat) : (statements here c).Pairwise (· ≤ ·) := by
  induction c generalizing here with
  | nil => exact .nil
  | cons item c ih =>
    cases item with
    | mark span =>
      refine List.Pairwise.cons (fun a ha => ?_) (ih _)
      obtain ⟨q, -, rfl⟩ := mem_statements ha
      exact Nat.le_trans (Nat.le_add_right here _) (Nat.le_add_right _ q)
    | _ => exact ih _

/-- The addresses of the statements of routines from `base` on. -/
def places : Nat → List ObjectCode → List Nat
  | _, [] => []
  | base, u :: us => u.map.map (base + ·.2) ++ places (base + u.words.length) us

theorem mapFrom_addrs (base : Nat) (units : List ObjectCode) :
    (mapFrom base units).map (·.2) = (places base units).map UInt16.ofNat := by
  induction units generalizing base with
  | nil => rfl
  | cons u us ih => simp [mapFrom, places, ih]

theorem places_unit {u : ObjectCode} {block : Code} (hu : u.Assembled G block) (base : Nat) :
    u.map.map (base + ·.2) = (statements 0 block).map (base + ·) := by
  have hmap : u.map = (Code.addressed 0 block).filterMap Item.statement? := by
    rw [hu.map, addressed_append, List.filterMap_append]
    exact List.append_nil _
  rw [hmap, statements, List.map_map]
  rfl

namespace Laid

theorem mem_places (h : Laid G callable units parts) {base a : Nat} (ha : a ∈ places base units) :
    ∃ q, a = base + q ∧ Start parts.flatten q := by
  induction h generalizing base with
  | nil => cases ha
  | @cons u us block linked parts hu hl _ ih =>
    rw [List.flatten_cons]
    rcases List.mem_append.mp ha with ha | ha
    · rw [places_unit hu] at ha
      obtain ⟨b, hb, rfl⟩ := List.mem_map.mp ha
      obtain ⟨q, hq, rfl⟩ := mem_statements hb
      obtain ⟨i, hi⟩ := (hl.boundary hq).start (Links.settled hu hl) u.entry.ending
      exact ⟨q, by rw [Nat.zero_add], i, hi.left⟩
    · obtain ⟨q, rfl, i, hi⟩ := ih ha
      refine ⟨u.words.length + q, Nat.add_assoc .., i, ?_⟩
      rw [length_linked hu hl]
      exact hi.right

theorem places_sorted (h : Laid G callable units parts) (base : Nat) :
    (places base units).Pairwise (· ≤ ·) := by
  induction h generalizing base with
  | nil => exact .nil
  | @cons u us block linked parts hu hl hrest ih =>
    rw [places, places_unit hu]
    refine List.pairwise_append.mpr ⟨?_, ih _, fun a ha b hb => ?_⟩
    · rw [List.pairwise_map]
      exact (statements_sorted block 0).imp fun h => Nat.add_le_add_left h base
    · obtain ⟨d, hd, rfl⟩ := List.mem_map.mp ha
      obtain ⟨q, ⟨pre, post, rfl, rfl⟩, rfl⟩ := mem_statements hd
      obtain ⟨r, rfl, -⟩ := hrest.mem_places hb
      rw [hu.words, Code.length_words, Code.size_append, Code.size_append]
      omega

end Laid

/-- The image of a program with some routines, and the addresses of its
statements. -/
structure WellFormed (units : List ObjectCode) (compiled : Compiled)
    (listing : List (Nat × Instr)) : Prop where
  size : compiled.image.length ≤ 4096
  length : compiled.image.length = headerSize units + extent units
  disassembled : disassemble compiled.image = .ok listing
  words : listing.flatMap (fun e => e.2.encode) = compiled.image.drop (headerSize units)
  divided : Divides (headerSize units) units listing
  calls : ∀ p a, (p, .callSub a) ∈ listing →
    Starts (headerSize units) units (fun entry => ∃ name, entry = .call name) a.toNat
  sorted : (compiled.sourceMap.map (·.addr)).Pairwise (· ≤ ·)
  mapped : ∀ entry ∈ compiled.sourceMap, ∃ i, (entry.addr.toNat, i) ∈ listing

/-- A linked program is well formed. -/
theorem Linked.wellFormed {image : Image} {table : List (Word × Nat)} (source : Source)
    (h : Linked G units image table callable parts) (hsub : ∀ a, ¬ G.sub a) :
    WellFormed units ⟨image.words, image.map.map (SourceMapEntry.ofPlace source)⟩
      (Code.listing (headerSize units) parts.flatten) := by
  have hlength : (header (headerSize units) table ++ Code.words parts.flatten).length =
      headerSize units + extent units := by
    rw [List.length_append, h.length_header, Code.length_words, h.laid.extent_eq]
  have hfits : headerSize units + extent units ≤ 4096 := h.fits
  have haddr {a : Nat} (ha : a < headerSize units + extent units) : (UInt16.ofNat a).toNat = a := by
    rw [UInt16.toNat_ofNat']
    omega
  -- the places of statements before they are cut to words
  have hplaces {a : Nat} (ha : a ∈ places (headerSize units) units) :
      (UInt16.ofNat a).toNat = a ∧
        ∃ i, (a, i) ∈ Code.listing (headerSize units) parts.flatten := by
    obtain ⟨q, rfl, i, hi⟩ := h.laid.mem_places ha
    refine ⟨haddr ?_, i.cut, Code.mem_listing.mpr ⟨q, i, hi, rfl, rfl⟩⟩
    rw [h.laid.extent_eq]
    exact Nat.add_lt_add_left hi.lt_size _
  have hmap : (image.map.map (SourceMapEntry.ofPlace source)).map (·.addr) =
      (places (headerSize units) units).map UInt16.ofNat := by
    rw [List.map_map, ← mapFrom_addrs, h.map]
    rfl
  refine ⟨?_, ?_, ?_, ?_, ?_, ?_, ?_, ?_⟩
  · rw [h.words, hlength]
    exact hfits
  · rw [h.words, hlength]
  · rw [h.words, disassemble_header (by rw [h.count]; rfl) h.length_header (by omega) ?_]
    · exact Code.decodeAll_words h.laid.settled (fun p i hi => h.laid.fits hsub hi) _
    · intro handler hmem
      have hbounds := h.start_bounds (h.handlers handler hmem)
      rw [Code.length_words, ← h.laid.extent_eq]
      omega
  · rw [Code.encode_listing h.laid.settled, h.words, List.drop_left' h.length_header]
  · exact h.laid.divides hsub _
  · intro p a hmem
    obtain ⟨q, i, hi, rfl, hcut⟩ := Code.mem_listing.mp hmem
    cases i with
    | callSub b =>
      obtain rfl : a = UInt16.ofNat (b.toNat % 4096) := by simpa [Instr.cut] using hcut
      obtain ⟨name, addr, hlookup, rfl⟩ := h.laid.calls hsub hi
      have hstarts := h.calls name addr hlookup
      have hlt := (h.start_bounds hstarts).2
      rw [haddr hlt, Nat.mod_eq_of_lt (by omega), haddr hlt]
      obtain ⟨before, u, after, hunits, hentry, hbase⟩ := hstarts
      exact ⟨before, u, after, hunits, ⟨name, hentry⟩, hbase⟩
    | _ => cases hcut
  · rw [hmap, List.pairwise_map]
    refine List.Pairwise.imp_of_mem ?_ (h.laid.places_sorted _)
    intro a b ha hb hab
    rw [UInt16.le_iff_toNat_le, (hplaces ha).1, (hplaces hb).1]
    exact hab
  · intro entry hmem
    have haddrs : entry.addr ∈ (places (headerSize units) units).map UInt16.ofNat := by
      rw [← hmap]
      exact List.mem_map_of_mem hmem
    obtain ⟨a, ha, heq⟩ := List.mem_map.mp haddrs
    rw [← heq, (hplaces ha).1]
    exact (hplaces ha).2

end Image

/-- Every compiled image is well formed. -/
theorem compiled_image_well_formed (node : Node) (settings : Settings) (source : Source)
    (compiled : Compiled) (h : compile node settings source = .ok compiled) :
    ∃ lines program units listing, readLines settings source = .ok lines ∧
      Program.ofLines node settings lines = .ok program ∧
      program.assemble node settings = .ok units ∧ Image.WellFormed units compiled listing := by
  let G : Ground := ⟨fun _ _ => True, fun _ => False, fun _ => True⟩
  have hG : node.Provides G := fun _ _ _ _ => trivial
  obtain ⟨lines, program, units, image, table, callable, parts, hlines, hprogram, hunits, -,
    hlinked, rfl⟩ := compile_linked hG (fun _ => trivial) h
  exact ⟨lines, program, units, _, hlines, hprogram, hunits,
    hlinked.wellFormed source fun _ => not_false⟩

/-- A subroutine with a loop, and a call of it. -/
theorem compiled_image_well_formed_call :
    ∃ (node : Node) (settings : Settings) (source : Source) (compiled : Compiled),
      compile node settings source = .ok compiled ∧ compiled.image.length = 15 ∧
      compiled.sourceMap.map (·.addr) = [3, 5, 9] ∧
      ∃ lines program units listing, readLines settings source = .ok lines ∧
        Program.ofLines node settings lines = .ok program ∧
        program.assemble node settings = .ok units ∧ Image.WellFormed units compiled listing := by
  have hcompile : (compile ⟨"", 8, [⟨"a", 1⟩], [], []⟩ ⟨.simple, 1, []⟩
      ⟨"callsub s\nsub s\nwhile a < 3 do\na++\nend", none⟩).toOption =
      some ⟨[3, 65535, 3, 53253, 0, 12288, 4099, 40974, 7, 12288, 4097, 32770, 16384, 40952, 57344],
        [⟨0, 1, 1, 3⟩, ⟨16, 3, 1, 5⟩, ⟨31, 4, 1, 9⟩]⟩ := by
    decide +kernel
  have hok := eq_ok_of_toOption hcompile
  exact ⟨_, _, _, _, hok, rfl, rfl, compiled_image_well_formed _ _ _ _ hok⟩

end RobotScript
