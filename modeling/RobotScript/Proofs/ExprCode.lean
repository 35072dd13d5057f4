/-
# The code of expressions and the stack

The code of an expression leaves one word on the stack, or none, or the two
words of a test, and takes none; the value of an update takes the old word.
Wherever making the code fails, the failure is the script's doing and stands
at a place of the script, if anywhere.

Key definitions: `Coding.Makes`, `Place.Reached`, `Goal.words`.
Key theorems: `Expr.Ready.makes`.
-/
import RobotScript.Proofs.Jumps
import RobotScript.Proofs.Shapes

namespace RobotScript

open Machine (Instr Binary Unary)
open Code (Moves plain)

/-- A fair failure to make code, which is not that a label is missing: labels
are looked up only in the code of a whole routine. -/
structure CompileError.Coded (P : Span → Prop) (e : CompileError) : Prop extends Fair P e where
  known : ∀ name, e.cause ≠ .semantic (.unknownLabel name)

theorem semantic_coded {α : Type} {good : α → Prop} {P : Span → Prop} {fault : SemanticFault}
    {span : Span} (h : P span) (hf : ∀ name, fault ≠ .unknownLabel name) :
    Ends (CompileError.Coded P) good (semantic fault span : Result α) where
  toFair := (@semantic_placed P α good fault span h).toFair
  known name heq := hf name (Fault.semantic.inj heq)

/-- A step of generating code, begun at a place of the script, makes something `good`; a
failure is fair. -/
structure Coding.Makes {α : Type} (G : Ground) (good : α → Prop) (x : Coding α) : Prop where
  yields : Yields (CompileError.Coded G.place) (fun s => G.place s.span) good x

/-- The words that a firmware function takes from the stack. -/
def NativeFunction.words (f : NativeFunction) : Nat :=
  f.args.length + f.args.countP (· == 0) + (Machine.groupsOf f.args).length

/-- The firmware functions of a node take the words that they are granted. -/
def Node.Provides (node : Node) (G : Ground) : Prop :=
  ∀ name id f, node.native? name = some (id, f) → G.native id f.words

variable {G : Ground}

namespace Coding.Makes

variable {α β : Type} {good : α → Prop} {good' : β → Prop} {x : Coding α}

theorem pure {a : α} (h : good a) : Makes G good (pure a) := ⟨.pure h⟩

theorem bind {f : α → Coding β} (h : Makes G good x) (hf : ∀ a, good a → Makes G good' (f a)) :
    Makes G good' (x >>= f) := ⟨h.yields.bind fun a ha => (hf a ha).yields⟩

theorem mono {good' : α → Prop} (h : Makes G good x) (hg : ∀ a, good a → good' a) :
    Makes G good' x := ⟨h.yields.mono hg⟩

theorem get : Makes G (fun s : Coding.State => G.place s.span) MonadState.get := ⟨.get⟩

theorem set {s : Coding.State} (h : G.place s.span) :
    Makes G (fun _ => True) (MonadStateOf.set s : Coding PUnit) := ⟨.set h⟩

theorem lift {r : Result α} (h : Ends (CompileError.Coded G.place) good r) : Makes G good (liftM r) :=
  ⟨.lift h⟩

theorem semantic (fault : SemanticFault) {span : Span} (h : G.place span)
    (hf : ∀ name, fault ≠ .unknownLabel name := by nofun) :
    Makes G good (liftM (semantic fault span : Result α)) := lift (semantic_coded h hf)

theorem inReach {o : Option α} (h : ∀ a, o = some a → good a) : Makes G good (Coding.inReach o) := by
  cases o with
  | none => exact ⟨fun s _ => ⟨⟨nofun, nofun, rfl⟩, nofun⟩⟩
  | some a => exact pure (h a rfl)

/-- What is done with a jump that is in reach. -/
theorem reach {o : Option α} {f : α → Coding β} (hf : ∀ a, o = some a → Makes G good' (f a)) :
    Makes G good' (Coding.inReach o >>= f) :=
  bind (inReach fun _ h => h) hf

theorem mapM {f : α → Coding β} {xs : List α} (h : ∀ a ∈ xs, Makes G good' (f a)) :
    Makes G (fun ys => ys.length = xs.length ∧ ∀ b ∈ ys, good' b) (xs.mapM f) :=
  ⟨.mapM xs fun a ha => (h a ha).yields⟩

end Coding.Makes

open Coding (Makes)

namespace Coder

variable {c : Coder}

@[simp] theorem after?_pushNat (n m : Nat) : (pushNat n).after? m = some (m + 1) :=
  Instr.after?_immediate _ m

theorem temps_makes (n : Nat) : Makes G (fun _ => True) (c.temps n) := by
  unfold temps
  refine Makes.get.bind fun s hs => ?_
  split
  · exact .semantic _ hs
  · exact Makes.bind (.set hs) fun _ _ => .pure trivial

theorem address_makes (addr : Nat) : Makes G (fun _ => True) (c.address addr) := by
  unfold address
  split
  · exact Makes.get.bind fun s hs => .semantic _ hs
  · exact .pure trivial

theorem popInto_makes (base : Nat) : ∀ n, Makes G (Moves G · n 0) (c.popInto base n)
  | 0 => .pure .nil
  | n + 1 => by
    unfold popInto
    refine (address_makes _).bind fun last _ => (popInto_makes base n).bind fun code hcode => .pure ?_
    have hstore : Moves G (plain [.store last]) 1 0 := .plain (by simp)
    exact (hstore.above n (Nat.add_comm n 1) (Nat.zero_add n).symm).append hcode

theorem popToTemps_makes (n : Nat) : Makes G (fun r => Moves G r.1 n 0) (c.popToTemps n) := by
  unfold popToTemps
  refine (temps_makes n).bind fun base _ => ?_
  exact (popInto_makes base n).bind fun code hcode => .pure hcode

theorem drop_makes : Makes G (Moves G · 1 0) c.drop := by
  unfold drop
  refine (temps_makes 1).bind fun temp _ => (address_makes temp).bind fun scratch _ => .pure ?_
  exact .plain (by simp)

theorem liveTemps_makes : Makes G (fun _ => True) c.liveTemps := by
  unfold liveTemps
  exact Makes.get.bind fun s _ => .pure trivial

/-- Codes that each take `a` words and leave `b`, one after another. -/
theorem flatten_moves {a b : Nat} : ∀ {cs : List Code}, (∀ code ∈ cs, Moves G code a b) →
    Moves G cs.flatten (cs.length * a) (cs.length * b)
  | [], _ => by simpa using Moves.nil
  | code :: cs, h => by
    have hrest := flatten_moves fun code' hmem => h code' (List.mem_cons_of_mem _ hmem)
    rw [List.flatten_cons, List.length_cons, Nat.succ_mul, Nat.succ_mul]
    exact ((h code List.mem_cons_self).above (cs.length * a) (Nat.add_comm _ _) rfl).append
      (hrest.above b (Nat.add_comm _ _) rfl)

theorem concat_makes {α : Type} {xs : List α} {f : α → Coding Code} {a b : Nat}
    (h : ∀ x ∈ xs, Makes G (Moves G · a b) (f x)) :
    Makes G (Moves G · (xs.length * a) (xs.length * b)) (concat xs f) := by
  unfold concat
  refine (Makes.mapM h).bind fun cs hcs => .pure ?_
  rw [← hcs.1]
  exact flatten_moves hcs.2

theorem lastFirst_makes : ∀ {xs : List (Coding Code)}, (∀ x ∈ xs, Makes G (Moves G · 0 1) x) →
    Makes G (Moves G · 0 xs.length) (lastFirst xs)
  | [], _ => .pure .nil
  | x :: xs, h => by
    unfold lastFirst
    refine (lastFirst_makes fun y hy => h y (List.mem_cons_of_mem _ hy)).bind fun rest hrest => ?_
    refine (h x List.mem_cons_self).bind fun first hfirst => .pure ?_
    exact hrest.append (hfirst.above xs.length (Nat.zero_add _).symm (Nat.add_comm _ _))

end Coder

/-! ### Places -/

/-- Push the word of a place several times. -/
def Place.loads (c : Coder) (p : Place) : Nat → Coding Code
  | 0 => return []
  | n + 1 => return (← p.load c) ++ (← p.loads c n)

namespace Op

/-- How often an assignment reads its target before its value is computed. -/
def readsBefore (used : Bool) : Op → Nat
  | assign => 0
  | postIncrement | postDecrement => if used then 2 else 1
  | _ => 1

/-- How often it does behind that. -/
def readsBehind (used : Bool) : Op → Nat
  | postIncrement | postDecrement => 0
  | _ => if used then 1 else 0

/-- The words that the code of the value takes from the stack: the old value, if
that is needed. -/
def takes : Op → Nat
  | assign => 0
  | _ => 1

/-- What it leaves on the stack if its value is used: the value before, of a postfix
operator, and else the value stored. -/
def result (old new : Cell) : Op → Cell
  | postIncrement | postDecrement => old
  | _ => new

/-- An assignment overwrites its target, or updates it and gives the new value, or the
one before. -/
theorem forms (o : Op) (used : Bool) :
    o.readsBefore used = 0 ∧ o.takes = 0 ∧ o.readsBehind used = used.toNat ∧ (∀ x y, o.result x y = y) ∨
    o.readsBefore used = 1 ∧ o.takes = 1 ∧ o.readsBehind used = used.toNat ∧ (∀ x y, o.result x y = y) ∨
    o.readsBefore used = used.toNat + 1 ∧ o.takes = 1 ∧ o.readsBehind used = 0 ∧ ∀ x y, o.result x y = x := by
  cases used <;> cases o with
  | assign => exact .inl ⟨rfl, rfl, rfl, fun _ _ => rfl⟩
  | postIncrement | postDecrement => exact .inr (.inr ⟨rfl, rfl, rfl, fun _ _ => rfl⟩)
  | _ => exact .inr (.inl ⟨rfl, rfl, rfl, fun _ _ => rfl⟩)

theorem reads_le (o : Op) (used : Bool) : o.readsBefore used ≤ 2 ∧ o.readsBehind used ≤ 1 := by
  obtain ⟨hb, -, hg, -⟩ | ⟨hb, -, hg, -⟩ | ⟨hb, -, hg, -⟩ := o.forms used <;> cases used <;> simp [hb, hg]

end Op

theorem Coder.assign_eq (c : Coder) (o : Op) (used : Bool) (p : Place) (value : Coding Code) :
    c.assign o used p value = do
      let before ← p.loads c (o.readsBefore used)
      let value ← value
      let store ← p.store c
      return before ++ value ++ store ++ (← p.loads c (o.readsBehind used)) := by
  unfold assign
  split <;> cases used <;> simp [Place.loads, Op.readsBefore, Op.readsBehind]

namespace Place

variable {c : Coder} {p : Place}

/-- A place whose element, if it is computed, is one word. -/
def Reached (G : Ground) (p : Place) : Prop :=
  ∀ x, p.element = .computed x → Makes G (Moves G · 0 1) x

theorem Reached.position (h : p.Reached G) : Makes G (Moves G · 0 1) p.position := by
  unfold Place.position
  split
  · exact .pure (.plain (by simp))
  · exact h _ ‹_›
  · exact .pure (.plain (by simp))

theorem Reached.referenced (h : p.Reached G) : Makes G (Moves G · 0 1) (p.referenced c) := by
  unfold Place.referenced
  refine (Coder.address_makes _).bind fun slot _ => ?_
  have hbase : Moves G (plain [.load c.frameSlot, .loadIndirect slot c.memorySize]) 0 1 := .plain (by simp)
  dsimp only
  split
  · exact .pure hbase
  · refine h.position.bind fun position hposition => .pure ?_
    exact (hbase.append (hposition.above 1 rfl rfl)).append (.plain (by simp))

/-- The code of an access pushes an index, if there is one. -/
def Access.Indexes (G : Ground) : Access → Prop
  | .direct _ => True
  | .indexed index _ _ => Moves G index 0 1

theorem Reached.access (h : p.Reached G) : Makes G (Access.Indexes G) (p.access c) := by
  unfold Place.access
  split
  · exact (Coder.address_makes _).bind fun addr _ => .pure trivial
  · exact (Coder.address_makes _).bind fun addr _ => h.position.bind fun code hcode => .pure hcode
  · exact (Coder.address_makes _).bind fun addr _ => .pure (.plain (by simp))
  · refine (Coder.address_makes _).bind fun addr _ => h.position.bind fun code hcode => .pure ?_
    exact hcode.append (.plain (by simp))
  · exact h.referenced.bind fun code hcode => .pure hcode

theorem Reached.load (h : p.Reached G) : Makes G (Moves G · 0 1) (p.load c) := by
  unfold Place.load
  refine h.access.bind fun access haccess => ?_
  cases access with
  | direct addr => exact .pure (.plain (by simp))
  | indexed index addr size => exact .pure (haccess.append (.plain (by simp)))

theorem Reached.loads (hp : p.Reached G) : ∀ n, Makes G (Moves G · 0 n) (p.loads c n)
  | 0 => .pure .nil
  | n + 1 => hp.load.bind fun _ hload => (hp.loads n).bind fun _ hrest =>
    .pure (hload.append (hrest.above 1 rfl rfl))

theorem Reached.store (h : p.Reached G) : Makes G (Moves G · 1 0) (p.store c) := by
  unfold Place.store
  refine h.access.bind fun access haccess => ?_
  cases access with
  | direct addr => exact .pure (.plain (by simp))
  | indexed index addr size =>
    have hindex : Moves G index 1 2 := haccess.above 1 rfl rfl
    exact .pure (hindex.append (.plain (by simp)))

theorem Reached.push (h : p.Reached G) : Makes G (Moves G · 0 1) (p.push c) := by
  unfold Place.push
  have hadd : Moves G (plain [.binary .add]) 2 1 := .plain (by simp)
  have hframe : Moves G (plain [.load c.frameSlot, Coder.pushNat p.storage.offset, .binary .add]) 0 1 :=
    .plain (by simp)
  split
  · exact .pure (.plain (by simp))
  · refine h.position.bind fun code hcode => .pure ?_
    exact Moves.append (.append (.plain (by simp))
      (hcode.above 1 rfl rfl)) hadd
  · exact .pure hframe
  · exact h.position.bind fun code hcode => .pure ((hframe.append (hcode.above 1 rfl rfl)).append hadd)
  · exact h.referenced

end Place

/-! ### Calls -/

namespace Coder

variable {c : Coder}

theorem pushNats_moves : ∀ ns : List Nat, Moves G (plain (ns.map pushNat)) 0 ns.length
  | [] => .nil
  | n :: ns => by
    have hfirst : Moves G (plain [pushNat n]) 0 1 := .plain (by simp)
    exact hfirst.append ((pushNats_moves ns).above 1 rfl rfl)

/-- A native call pushes one word for each group and one for each argument
with a size of its own. -/
theorem nativeSizes?_length {codes : List Int32} {sizes groups free : List Nat}
    (h : nativeSizes? codes sizes = some (groups, free)) (hlen : codes.length = sizes.length) :
    groups.length = (Machine.groupsOf codes).length ∧ free.length = codes.countP (· == 0) := by
  unfold nativeSizes? at h
  dsimp only at h
  split at h
  · cases h
    refine ⟨List.length_map .., ?_⟩
    have hcodes : ((codes.zip sizes).map (·.1)) = codes := by
      rw [List.map_fst_zip (Nat.le_of_eq hlen)]
    rw [List.length_map, ← List.countP_eq_length_filter, ← hcodes, List.countP_map]
    simp [Function.comp_def, hcodes]
  · cases h

variable {span : Span}

theorem callNative_makes {name : String} {args : List (Coding Code)} {sizes : List Nat}
    (hN : c.node.Provides G) (hspan : G.place span) (hlen : args.length = sizes.length)
    (hargs : ∀ x ∈ args, Makes G (Moves G · 0 1) x) :
    Makes G (Moves G · 0 0) (c.callNative name args sizes span) := by
  unfold callNative
  split
  · exact .semantic _ hspan
  · rename_i id f hnative
    split
    · exact .semantic _ hspan
    · rename_i hcount
      split
      · exact .semantic _ hspan
      · rename_i groups free hsizes
        refine (lastFirst_makes hargs).bind fun addresses haddresses => .pure ?_
        have hcount : f.args.length = sizes.length := by simpa using hcount
        obtain ⟨hgroups, hfree⟩ := nativeSizes?_length hsizes hcount
        have hsizes : Moves G (plain (groups.map pushNat ++ free.reverse.map pushNat)) 0
            (groups.length + free.length) := by
          rw [← List.map_append]
          have := pushNats_moves (G := G) (groups ++ free.reverse)
          rwa [List.length_append, List.length_reverse] at this
        have hcall : Moves G (plain [.callNative id]) f.words 0 := .callNative (hN name id f hnative)
        refine (hsizes.append (haddresses.above (groups.length + free.length) ?_ rfl)).append ?_
        · rw [Nat.zero_add]
        · refine hcall.above 0 ?_ rfl
          simp only [NativeFunction.words]
          omega

/-- The words that are left if a value is used. -/
def usedWords (used : Bool) : Nat := if used then 1 else 0

theorem callOnValues_makes {name : String} {n : Nat} {used : Bool} (hN : c.node.Provides G)
    (hspan : G.place span) : Makes G (Moves G · n (usedWords used)) (c.callOnValues name n used span) := by
  unfold callOnValues
  refine (temps_makes _).bind fun base _ => (popInto_makes (G := G) base n).bind fun pops hpops => ?_
  dsimp only
  refine (callNative_makes hN hspan (by simp) ?_).bind fun call hcall => ?_
  · intro x hx
    obtain ⟨addr, -, rfl⟩ := List.mem_map.mp hx
    exact .pure (.plain (by simp))
  · cases used with
    | true =>
      refine (address_makes _).bind fun addr _ => .pure ?_
      exact (hpops.append hcall).append (.plain (by simp [usedWords]))
    | false => exact .pure (hpops.append hcall)

theorem operands_makes {a b : Nat} {g : Word → Word → List Instr} (h : ∀ x y, Moves G (plain (g x y)) 0 0) :
    Makes G (Moves G · 0 0) (do
      let x ← c.address a
      let y ← c.address b
      return plain (g x y)) :=
  (address_makes _).bind fun x _ => (address_makes _).bind fun y _ => .pure (h x y)

theorem callFromFunction_makes {frame : Nat} {s : Signature} (hspan : G.place span) :
    Makes G (Moves G · s.params.length 0) (c.callFromFunction frame s span) := by
  unfold callFromFunction
  refine liveTemps_makes.bind fun live _ => ?_
  dsimp only
  refine (concat_makes (a := 1) (b := 0) fun p _ => (address_makes _).bind fun slot _ =>
    .pure (.plain (by simp))).bind fun params hparams => ?_
  refine (concat_makes fun t _ => operands_makes fun _ _ => .plain (by simp)).bind fun save hsave => ?_
  refine (concat_makes fun t _ => operands_makes fun _ _ => .plain (by simp)).bind
    fun restore hrestore => .pure ?_
  have hframe (op : Binary) : Moves G
      (plain [.load c.frameSlot, pushNat (frame + live.length), .binary op, .store c.frameSlot]) 0 0 :=
    .plain (by simp)
  rw [List.length_reverse, Nat.mul_one, Nat.mul_zero] at hparams
  exact ((((hparams.append hsave).append (hframe .add)).append (.call hspan)).append (hframe .sub)).append
    hrestore

theorem callFromModule_makes {s : Signature} (hspan : G.place span) :
    Makes G (Moves G · s.params.length 0) (c.callFromModule s span) := by
  unfold callFromModule
  refine liveTemps_makes.bind fun live _ => ?_
  dsimp only
  refine (concat_makes (a := 1) (b := 0) fun p _ => (address_makes _).bind fun slot _ =>
    .pure (.plain (by simp))).bind fun params hparams => ?_
  refine (concat_makes fun t _ => operands_makes fun _ _ => .plain (by simp)).bind fun save hsave => ?_
  refine (concat_makes fun t _ => operands_makes fun _ _ => .plain (by simp)).bind
    fun restore hrestore => .pure ?_
  rw [List.length_reverse, Nat.mul_one, Nat.mul_zero] at hparams
  exact (((hparams.append hsave).append (.plain (by simp))).append (.call hspan)).append hrestore

theorem callFunction_makes {s : Signature} {used : Bool} (hspan : G.place span) :
    Makes G (Moves G · s.params.length (usedWords used)) (c.callFunction s used span) := by
  have hresult : ∀ call, Moves G call s.params.length 0 →
      Moves G (if used = true then call ++ plain [.load c.returnSlot] else call) s.params.length
        (usedWords used) := by
    intro call hcall
    cases used with
    | true => exact hcall.append (.plain (by simp [usedWords]))
    | false => exact hcall
  unfold callFunction
  dsimp only
  split
  · exact (callFromFunction_makes hspan).bind fun call hcall => .pure (hresult call hcall)
  · exact (callFromModule_makes hspan).bind fun call hcall => .pure (hresult call hcall)

end Coder
/-! ### Expressions -/

/-- The words that code made for a goal leaves. -/
def Goal.words : Goal → Nat
  | value => 1
  | effect => 0
  | test => 2

namespace Coder

variable {c : Coder} {k : Nat} {code : Code}

theorem reach_makes (goal : Goal) (h : Moves G code k 1) :
    Makes G (Moves G · k goal.words) (c.reach goal code) := by
  cases goal with
  | value => exact .pure h
  | effect => exact drop_makes.bind fun drop hdrop => .pure (h.append hdrop)
  | test => exact .pure (h.append (.plain (by simp [Goal.words])))

theorem reachPure_moves (goal : Goal) (h : Moves G code 0 1) :
    Moves G (reachPure goal code) 0 goal.words := by
  cases goal with
  | value => exact h
  | effect => exact .nil
  | test => exact h.append (.plain (by simp [Goal.words]))

theorem reachUsed_moves (goal : Goal) (h : Moves G code k (usedWords (goal ≠ .effect))) :
    Moves G (reachUsed goal code) k goal.words := by
  cases goal with
  | value => exact h
  | effect => exact h
  | test => exact h.append (.plain (by simp [Goal.words, usedWords]))

theorem convert_moves (source target : Ty) : Moves G (plain (c.convert source target)) 1 1 := by
  unfold convert
  split
  all_goals exact .plain (by simp)

theorem arithmetic_makes (b : Binary) (xTy yTy : Ty) {x y : Code} {span : Span}
    (hN : c.node.Provides G) (hspan : G.place span) (hx : Moves G x k 1) (hy : Moves G y 0 1) :
    Makes G (Moves G · k 1) (c.arithmetic b xTy yTy x y span) := by
  have hmuldiv : ∀ operands, Moves G operands k 3 →
      Makes G (Moves G · k 1) (do
        return operands ++ (← c.callOnValues "math.muldiv" 3 true span)) := by
    intro operands hoperands
    exact (callOnValues_makes hN hspan).bind fun call hcall => .pure (hoperands.append hcall)
  have hfactor (v : Cell) (n : Nat) : Moves G (plain [.immediate v]) n (n + 1) := .plain (by simp)
  unfold arithmetic
  dsimp only
  split
  · exact hmuldiv _ ((hx.append (hy.above 1 rfl rfl)).append (hfactor _ 2))
  · exact hmuldiv _ ((hx.append (hfactor _ 1)).append (hy.above 2 rfl rfl))
  · exact hmuldiv _ ((hx.append (hfactor _ 1)).append (hy.above 2 rfl rfl))
  · exact .pure ((hx.append (hy.above 1 rfl rfl)).append (.plain (by simp)))

theorem elementPlace_makes {reused : Bool} {s : Storage} {indices : List Expr} {position : Coding Code}
    (h : Makes G (Moves G · 0 1) position) :
    Makes G (fun r => Moves G r.1 0 0 ∧ r.2.Reached G) (c.elementPlace reused s indices position) := by
  unfold elementPlace
  dsimp only
  split
  · exact .pure ⟨.nil, nofun⟩
  · split
    · refine h.bind fun code hcode => (temps_makes 1).bind fun t _ => ?_
      refine (address_makes t).bind fun temp _ => .pure ⟨hcode.append (.plain (by simp)), nofun⟩
    · refine .pure ⟨.nil, fun x hx => ?_⟩
      cases hx
      exact h

theorem assign_makes {o : Op} {used : Bool} {place : Place} {value : Coding Code} (hp : place.Reached G)
    (hv : Makes G (Moves G · o.takes 1) value) :
    Makes G (Moves G · 0 (usedWords used)) (c.assign o used place value) := by
  obtain ⟨kept, hb, hg⟩ : ∃ kept, o.readsBefore used = o.takes + kept ∧
      o.readsBehind used + kept = usedWords used := by
    obtain ⟨hb, ht, hg, -⟩ | ⟨hb, ht, hg, -⟩ | ⟨hb, ht, hg, -⟩ := o.forms used
    · exact ⟨0, by rw [hb, ht], by rw [hg]; cases used <;> rfl⟩
    · exact ⟨0, by rw [hb, ht], by rw [hg]; cases used <;> rfl⟩
    · exact ⟨used.toNat, by rw [hb, ht, Nat.add_comm], by rw [hg]; cases used <;> rfl⟩
  rw [assign_eq, hb, ← hg]
  refine (hp.loads _).bind fun before hbefore => hv.bind fun value hvalue => hp.store.bind
    fun store hstore => (hp.loads _).bind fun behind hbehind => .pure ?_
  exact ((hbefore.append (hvalue.above kept rfl rfl)).append (hstore.above kept rfl rfl)).append
    (hbehind.above kept rfl rfl)

theorem logic_makes (op : Op) {x y : Coding Code} (hx : Makes G (Moves G · 0 1) x)
    (hy : Makes G (Moves G · 0 1) y) : Makes G (Moves G · 0 1) (c.logic op x y) := by
  unfold logic
  refine hx.bind fun x hx => hy.bind fun y hy => .reach fun skip hskip => .pure ?_
  generalize hdecided : (if op = .logicAnd then Binary.eq else .ne) = decided
  have hop : decided.isComparison = true := by
    rw [← hdecided]
    split <;> rfl
  have htest : Moves G (x ++ plain [.store c.returnSlot, .load c.returnSlot, .immediate 0]) 0 2 :=
    hx.append (.plain (by simp))
  have hload : Moves G (plain [.load c.returnSlot]) 0 1 := .plain (by simp)
  have hbr : branchBy? decided false (2 + Code.size (plain [.load c.returnSlot]) + 1) =
      some (.branch decided false 4) := by
    rw [show Code.size (plain [.load c.returnSlot]) = 1 from rfl]
    rfl
  have hfork := Moves.fork htest hload hy hop hbr hskip
  simpa [plain, List.append_assoc] using hfork

theorem choice_makes {test a b : Coding Code} {op : Binary} (hop : op.isComparison = true)
    (ht : Makes G (Moves G · 0 2) test) (ha : Makes G (Moves G · 0 1) a)
    (hb : Makes G (Moves G · 0 1) b) : Makes G (Moves G · 0 1) (choice test op a b) := by
  unfold choice
  refine ht.bind fun test ht => ha.bind fun a ha => .reach fun br hbr => ?_
  refine hb.bind fun b hb => .reach fun skip hskip => .pure ?_
  exact Moves.fork ht ha hb hop hbr hskip

end Coder
namespace Expr

variable {c : Coder}

theorem isComparison_testOp (e : Expr) : e.testOp.isComparison = true := by
  unfold testOp
  split
  · split
    · assumption
    · rfl
  · rfl
  · rfl

theorem positionCode_makes_next (dims : List Nat) : ∀ (k stride : Nat) {es : List Expr},
    (∀ e ∈ es, Makes G (Moves G · 0 1) (e.code c .value)) →
    Makes G (Moves G · 1 1) (positionCode c dims (k + 1) stride es)
  | _, _, [], _ => .pure .nil
  | k, stride, e :: es, h => by
    have hrest := positionCode_makes_next dims (k + 1) (stride * dims[k + 1]?.getD 1) fun a ha =>
      h a (List.mem_cons_of_mem _ ha)
    unfold positionCode
    refine (h e List.mem_cons_self).bind fun index hindex => hrest.bind fun rest hrest => .pure ?_
    have hscale : Moves G (plain ((if stride = 1 then [] else [Coder.pushNat stride, .binary .mult]) ++
        [.binary .add])) 2 1 := by
      split <;> exact .plain (by simp)
    exact ((hindex.above 1 rfl rfl).append hscale).append hrest

/-- The position of an element is one word. -/
theorem positionCode_makes {dims : List Nat} {stride : Nat} {es : List Expr}
    (h : ∀ e ∈ es, Makes G (Moves G · 0 1) (e.code c .value)) (hne : es ≠ []) :
    Makes G (Moves G · 0 1) (positionCode c dims 0 stride es) := by
  cases es with
  | nil => exact absurd rfl hne
  | cons e es =>
    unfold positionCode
    refine (h e List.mem_cons_self).bind fun index hindex => ?_
    refine (positionCode_makes_next dims 0 _ fun a ha => h a (List.mem_cons_of_mem _ ha)).bind
      fun rest hrest => .pure ?_
    have hscale : Moves G (plain ((if stride = 1 then [] else [Coder.pushNat stride, .binary .mult]) ++
        [])) 1 1 := by
      split <;> exact .plain (by simp)
    exact (hindex.append hscale).append hrest

theorem valuesCode_makes : ∀ {es : List Expr}, (∀ e ∈ es, Makes G (Moves G · 0 1) (e.code c .value)) →
    Makes G (Moves G · 0 es.length) (valuesCode c es)
  | [], _ => .pure .nil
  | e :: es, h => by
    unfold valuesCode
    refine (h e List.mem_cons_self).bind fun first hfirst => ?_
    refine (valuesCode_makes fun a ha => h a (List.mem_cons_of_mem _ ha)).bind fun rest hrest => .pure ?_
    exact hfirst.append (hrest.above 1 rfl rfl)

theorem argumentsCode_makes : ∀ {ps : List Param} {es : List Expr}, es.length = ps.length →
    (∀ e ∈ es, Makes G (Moves G · 0 1) (e.code c .value) ∧
      Makes G (fun r => Moves G r.1 0 0 ∧ r.2.Reached G) (e.placeOf c false)) →
    Makes G (Moves G · 0 ps.length) (argumentsCode c ps es)
  | [], [], _, _ => .pure .nil
  | p :: ps, e :: es, hlen, h => by
    have hlen' : es.length = ps.length := by simpa using hlen
    have hrest : ∀ first, Moves G first 0 1 → Makes G (Moves G · 0 (p :: ps).length) (do
        return first ++ (← argumentsCode c ps es)) := by
      intro first hfirst
      refine (argumentsCode_makes hlen' fun a ha => h a (List.mem_cons_of_mem _ ha)).bind
        fun rest hrest => .pure ?_
      exact hfirst.append (hrest.above 1 rfl rfl)
    obtain ⟨hvalue, hplace⟩ := h e List.mem_cons_self
    unfold argumentsCode
    dsimp only
    split
    · refine hplace.bind fun r hr => ?_
      obtain ⟨setup, place⟩ := r
      exact hr.2.push.bind fun push hpush => hrest _ (hr.1.append hpush)
    · exact hvalue.bind hrest

theorem stored_makes {v : Variable} (h : v.Stored) :
    Makes G (fun _ => True) (liftM v.stored : Coding Storage) := by
  obtain ⟨s, hs⟩ := Option.isSome_iff_exists.mp h
  simp only [Variable.stored, hs]
  exact .pure trivial

theorem assignment_makes {goal : Goal} {o : Op} {target value : Expr}
    (ht : ∀ reused, Makes G (fun r => Moves G r.1 0 0 ∧ r.2.Reached G) (target.placeOf c reused))
    (hv : Makes G (Moves G · o.takes 1) (value.code c .value)) : Makes G (Moves G · 0 goal.words) (do
      let reached ← placeOf c (goal ≠ .effect || o ≠ .assign) target
      let assigned ← c.assign o (goal ≠ .effect) reached.2 (code c .value value)
      return Coder.reachUsed goal (reached.1 ++ assigned)) := by
  refine (ht _).bind fun reached hr => (Coder.assign_makes hr.2 hv).bind fun assigned hassigned => .pure ?_
  exact Coder.reachUsed_moves goal (hr.1.append hassigned)

/-- The code of an expression takes and leaves the words it should, and a place
is reached by one word at most. -/
theorem Ready.makes {k : Nat} {e : Expr} (hN : c.node.Provides G) (h : Ready G.place k e) :
    (∀ goal, k = 0 ∨ goal = .value → Makes G (Moves G · k goal.words) (e.code c goal)) ∧
    (k = 0 → ∀ reused,
      Makes G (fun r => Moves G r.1 0 0 ∧ r.2.Reached G) (e.placeOf c reused)) := by
  induction h with
  | number hi =>
    refine ⟨fun goal _ => ?_, fun _ _ => .semantic _ hi⟩
    exact .pure (Coder.reachPure_moves goal (.plain (by simp)))
  | fixed hi =>
    refine ⟨fun goal _ => ?_, fun _ _ => .semantic _ hi⟩
    exact .pure (Coder.reachPure_moves goal (.plain (by simp)))
  | var hi hv =>
    refine ⟨fun goal _ => ?_, fun _ _ => ?_⟩
    · unfold code
      split
      · rename_i hgoal
        rw [hgoal]
        exact .pure .nil
      · rename_i hgoal
        refine (stored_makes hv).bind fun s _ => ?_
        split
        · exact .semantic _ hi
        · have hp : Place.Reached G ⟨s, .known 0⟩ := by rintro _ ⟨⟩
          refine hp.load.bind fun load hload => .pure (Coder.reachUsed_moves goal ?_)
          simpa [Coder.usedWords, hgoal] using hload
    · unfold placeOf
      exact (stored_makes hv).bind fun s _ => .pure ⟨.nil, by rintro _ ⟨⟩⟩
  | index hi hv _ hne ih =>
    have hposition : ∀ s : Storage, Makes G (Moves G · 0 1) (positionCode c s.dims 0 1 _) :=
      fun s => positionCode_makes (fun a ha => (ih a ha).1 .value (.inl rfl)) hne
    refine ⟨fun goal _ => ?_, fun _ reused => ?_⟩
    · unfold code
      refine (stored_makes hv).bind fun s _ => ?_
      refine (Coder.elementPlace_makes (hposition s)).bind fun r hr => ?_
      obtain ⟨setup, place⟩ := r
      exact hr.2.load.bind fun load hload => Coder.reach_makes goal (hr.1.append hload)
    · unfold placeOf
      exact (stored_makes hv).bind fun s _ => Coder.elementPlace_makes (hposition s)
  | array hi _ _ => exact ⟨fun goal _ => .semantic _ hi, fun _ _ => .semantic _ hi⟩
  | placeholder hi =>
    refine ⟨fun goal hgoal => ?_, by rintro ⟨⟩⟩
    obtain rfl : goal = .value := by simpa using hgoal
    exact .pure .nil
  | binary hi _ _ ihx ihy =>
    refine ⟨fun goal hgoal => ?_, fun _ _ => .semantic _ hi⟩
    unfold code
    refine (ihx.1 .value (.inr rfl)).bind fun first hfirst => ?_
    refine (ihy.1 .value (.inl rfl)).bind fun second hsecond => ?_
    split
    · rename_i htest
      rw [htest.1]
      exact .pure (hfirst.append (hsecond.above 1 rfl rfl))
    · refine (Coder.arithmetic_makes _ _ _ hN hi hfirst hsecond).bind fun value hvalue => ?_
      exact Coder.reach_makes goal hvalue
  | cast hi _ ih =>
    refine ⟨fun goal hgoal => ?_, fun _ _ => .semantic _ hi⟩
    unfold code
    refine (ih.1 .value (.inr rfl)).bind fun value hvalue => ?_
    exact Coder.reach_makes goal (hvalue.append (Coder.convert_moves _ _))
  | unary hi ho _ ih =>
    refine ⟨fun goal _ => ?_, fun _ _ => .semantic _ hi⟩
    have hvalue : Makes G (Moves G · 0 1) _ := ih.1 .value (.inl rfl)
    rcases ho with rfl | rfl | rfl | rfl
    all_goals
      unfold code
      refine hvalue.bind fun value hvalue => ?_
    · exact Coder.reach_makes goal (hvalue.append (.plain (by simp)))
    · exact Coder.reach_makes goal (hvalue.append (.plain (by simp)))
    · exact Coder.reach_makes goal (hvalue.append (.plain (by simp)))
    · split
      · rename_i htest
        rw [htest]
        exact .pure (hvalue.append (.plain (by simp [Goal.words])))
      · exact Coder.reach_makes goal (hvalue.append (.plain (by simp)))
  | sequence hi ho _ _ ihx ihy =>
    refine ⟨fun goal _ => ?_, fun _ _ => .semantic _ hi⟩
    rcases ho with rfl | rfl | rfl
    all_goals unfold code
    · refine (Coder.logic_makes _ (ihx.1 .value (.inl rfl)) (ihy.1 .value (.inl rfl))).bind
        fun value hvalue => Coder.reach_makes goal hvalue
    · refine (Coder.logic_makes _ (ihx.1 .value (.inl rfl)) (ihy.1 .value (.inl rfl))).bind
        fun value hvalue => Coder.reach_makes goal hvalue
    · refine (ihx.1 .effect (.inl rfl)).bind fun first hfirst => ?_
      refine (ihy.1 _ (.inl rfl)).bind fun second hsecond => .pure (Coder.reachUsed_moves goal ?_)
      refine hfirst.append ?_
      by_cases hgoal : goal = .effect
      · simpa [hgoal, Coder.usedWords, Goal.words] using hsecond
      · simpa [hgoal, Coder.usedWords, Goal.words] using hsecond
  | choice hi hj _ _ _ ihc iha ihb =>
    refine ⟨fun goal _ => ?_, fun _ _ => .semantic _ hi⟩
    unfold code
    refine (Coder.choice_makes (isComparison_testOp _) (ihc.1 .test (.inl rfl))
      (iha.1 .value (.inl rfl)) (ihb.1 .value (.inl rfl))).bind fun value hvalue => ?_
    exact Coder.reach_makes goal hvalue
  | assign hi _ _ iht ihv =>
    refine ⟨fun goal _ => ?_, fun _ _ => .semantic _ hi⟩
    unfold code
    exact assignment_makes (o := .assign) (iht.2 rfl) (ihv.1 .value (.inl rfl))
  | update hi ho _ _ iht ihv =>
    refine ⟨fun goal _ => ?_, fun _ _ => .semantic _ hi⟩
    have hvalue : Makes G (Moves G · 1 1) _ := ihv.1 .value (.inr rfl)
    rcases ho with ⟨b, rfl⟩ | rfl | rfl
    all_goals
      unfold code
      exact assignment_makes (iht.2 rfl) hvalue
  | function hi _ hs ih =>
    refine ⟨fun goal _ => ?_, fun _ _ => .semantic _ hi⟩
    unfold code
    dsimp only
    rw [if_neg (by simp [hs])]
    refine (argumentsCode_makes hs fun a ha =>
      ⟨(ih a ha).1 .value (.inl rfl), (ih a ha).2 rfl false⟩).bind fun args hargs => ?_
    refine (Coder.callFunction_makes hi).bind fun call hcall => .pure ?_
    exact Coder.reachUsed_moves goal (hargs.append hcall)
  | @builtin es i name b hi _ hb ih =>
    refine ⟨fun goal _ => ?_, fun _ _ => .semantic _ hi⟩
    have hvalues : ∀ a ∈ es, Makes G (Moves G · 0 1) (a.code c .value) :=
      fun a ha => (ih a ha).1 .value (.inl rfl)
    unfold code
    dsimp only
    split
    · refine (valuesCode_makes hvalues).bind fun values hvalues => ?_
      refine (Coder.callOnValues_makes hN hi).bind fun call hcall => .pure ?_
      exact Coder.reachUsed_moves goal (hvalues.append hcall)
    · rename_i hnative
      obtain rfl : b = .abs := by
        cases b with
        | abs => rfl
        | _ => cases hnative
      obtain ⟨x, rfl⟩ := List.length_eq_one_iff.mp hb
      refine (hvalues x (by simp)).bind fun value hvalue => ?_
      exact Coder.reach_makes goal (hvalue.append (.plain (by simp)))

end Expr
end RobotScript
