/-
# The code of statements and the stack

The code of a statement begins and ends with an empty stack, and so does every
jump in it: to the end of a loop, to its next round, to a label. A failure on
the way stands at a place of the script, since each statement lends its own
place to the failures in it that have none.

Key definitions: `Coding.Places`, `Coder.argWords`.
Key theorems: `Stmt.code_places`, `Stmt.blockCode_places`.
-/
import RobotScript.Proofs.ExprCode
import RobotScript.Proofs.StmtShapes

namespace RobotScript

open Machine (Instr Binary)
open Code (Moves Sound plain nowhere TestBranch Enterable Aims)
open Coding (Makes)

variable {G : Ground}

/-- A failure to make code that has a place. -/
structure CompileError.CodedAt (P : Span → Prop) (e : CompileError) : Prop extends Coded P e where
  placed : e.span.isSome = true

theorem CompileError.CodedAt.toPlaced {P : Span → Prop} {e : CompileError} (h : e.CodedAt P) : e.Placed P :=
  ⟨h.toFair, h.placed⟩

/-- A step of generating code, begun at a place of the script, makes something
`good`; a failure has a place. -/
structure Coding.Places {α : Type} (G : Ground) (good : α → Prop) (x : Coding α) : Prop where
  yields : Yields (CompileError.CodedAt G.place) (fun s => G.place s.span) good x

namespace Coding.Places

variable {α β : Type} {good : α → Prop} {good' : β → Prop} {x : Coding α}

theorem pure {a : α} (h : good a) : Places G good (pure a) := ⟨.pure h⟩

theorem bind {f : α → Coding β} (h : Places G good x) (hf : ∀ a, good a → Places G good' (f a)) :
    Places G good' (x >>= f) := ⟨h.yields.bind fun a ha => (hf a ha).yields⟩

theorem makes (h : Places G good x) : Makes G good x :=
  ⟨fun s hs => (h.yields s hs).weaken fun _ he => he.toCoded⟩

/-- A place lent to the failures that have none. -/
theorem lent {span : Span} (hspan : G.place span) (h : Makes G good x) : Places G good (placedAt span x) := by
  refine ⟨fun s hs => (h.yields s hs).mapError fun e he => ?_⟩
  unfold Diagnostic.placedAt
  cases hplace : e.span with
  | some s' =>
    exact {
      cause := he.cause, span := fun t ht => he.span t (hplace.trans ht)
      snippet := he.snippet, known := he.known, placed := rfl }
  | none =>
    refine {
      cause := he.cause, span := fun s' hs' => ?_, snippet := he.snippet, known := he.known
      placed := rfl }
    cases hs'
    exact hspan

end Coding.Places

open Coding (Places)

theorem Code.Sound.item {k : Nat} {X : Int → Nat → Prop} {item : Item}
    (h : item.Graded G k X (fun _ => 0) 0) : Sound G k X [item] 0 0 :=
  ⟨fun _ => 0, rfl, rfl, .single h⟩

/-- The end of a routine. -/
theorem Code.Sound.finish {k : Nat} {X : Int → Nat → Prop} {i : Instr} (h : i = .ret ∨ i = .stop) :
    Sound G k X (plain [i]) 0 0 := by
  rcases h with rfl | rfl
  · exact .item rfl
  · exact .item rfl

theorem Flow.depth_ends {flows : List Flow} {kind : LoopExit} {tag : Option String} {span : Span}
    (hspan : G.place span) :
    Ends (CompileError.Coded G.place) (· < flows.length) (Flow.depth flows kind tag span) := by
  unfold Flow.depth
  split
  · rename_i d hd
    exact (List.findIdx?_eq_some_iff_findIdx_eq.mp hd).1
  · rename_i d name hd
    split
    · exact semantic_coded hspan nofun
    · exact (List.findIdx?_eq_some_iff_findIdx_eq.mp hd).1
  · exact semantic_coded hspan nofun
  · exact semantic_coded hspan nofun

namespace Coder

variable {c : Coder}

/-! ### Native calls and events -/

theorem pushWords_makes {e : Expr} (hN : c.node.Provides G) (h : Expr.Ready G.place 0 e) :
    Makes G (fun r => Moves G r.1 0 r.2) (c.pushWords e) := by
  have hvalue : Makes G (fun r => Moves G r.1 0 r.2) (do return (← e.code c .value, 1)) :=
    ((h.makes hN).1 .value (.inl rfl)).bind fun code hcode => .pure hcode
  cases h with
  | array hi hes =>
    refine (Expr.valuesCode_makes fun a ha => ?_).bind fun code hcode => .pure hcode
    exact ((hes a ha).makes hN).1 .value (.inl rfl)
  | var hi hv =>
    unfold pushWords
    dsimp only
    split
    · exact hvalue
    · refine (Expr.stored_makes hv).bind fun s _ => ?_
      have hload : ∀ k ∈ List.range s.size, Makes G (Moves G · 0 1) (Place.load c ⟨s, .known k⟩) :=
        fun k _ => Place.Reached.load nofun
      exact (concat_makes hload).bind fun code hcode => .pure (by simpa using hcode)
  | _ => exact hvalue

/-- The words on the stack that arguments of a native call have. -/
def argWords : List NativeArg → Nat
  | [] => 0
  | .place _ :: args => argWords args
  | .words n :: args => argWords args + n

theorem pushNativeArgs_makes (hN : c.node.Provides G) : ∀ {es : List Expr},
    (∀ e ∈ es, Expr.Ready G.place 0 e) →
    Makes G (fun r => Moves G r.1 0 (argWords r.2) ∧ r.2.length = es.length ∧
      ∀ p, .place p ∈ r.2 → p.Reached G) (c.pushNativeArgs es)
  | [], _ => .pure ⟨.nil, rfl, nofun⟩
  | e :: es, h => by
    have hrest := pushNativeArgs_makes hN fun a ha => h a (List.mem_cons_of_mem _ ha)
    have he := h e List.mem_cons_self
    unfold pushNativeArgs
    split
    · refine ((he.makes hN).2 rfl false).bind fun ⟨setup, place⟩ hr => ?_
      refine hrest.bind fun ⟨code, args⟩ ⟨hcode, hlen, hargs⟩ => .pure ⟨hr.1.append hcode, ?_, ?_⟩
      · exact congrArg (· + 1) hlen
      · intro p hp
        rcases List.mem_cons.mp hp with hp | hp
        · cases hp
          exact hr.2
        · exact hargs p hp
    · refine (pushWords_makes hN he).bind fun ⟨first, n⟩ hfirst => ?_
      refine hrest.bind fun ⟨code, args⟩ ⟨hcode, hlen, hargs⟩ => .pure ⟨?_, ?_, ?_⟩
      · exact hfirst.append (hcode.above n (Nat.zero_add n).symm rfl)
      · exact congrArg (· + 1) hlen
      · intro p hp
        rcases List.mem_cons.mp hp with hp | hp
        · cases hp
        · exact hargs p hp

theorem popNativeArgs_makes : ∀ {args : List NativeArg}, (∀ p, .place p ∈ args → p.Reached G) →
    Makes G (fun r => Moves G r.1 (argWords args) 0 ∧ r.2.length = args.length ∧
      ∀ x ∈ r.2, Makes G (Moves G · 0 1) x) (c.popNativeArgs args)
  | [], _ => .pure ⟨.nil, rfl, nofun⟩
  | a :: args, h => by
    unfold popNativeArgs
    refine (popNativeArgs_makes fun p hp => h p (List.mem_cons_of_mem _ hp)).bind
      fun ⟨code, addresses⟩ ⟨hcode, hlen, haddresses⟩ => ?_
    cases a with
    | place p =>
      refine .pure ⟨hcode, congrArg (· + 1) hlen, ?_⟩
      intro x hx
      rcases List.mem_cons.mp hx with rfl | hx
      · exact (h p List.mem_cons_self).push
      · exact haddresses x hx
    | words n =>
      refine (popToTemps_makes (G := G) n).bind fun ⟨pops, base⟩ hpops =>
        .pure ⟨?_, congrArg (· + 1) hlen, ?_⟩
      · exact (hcode.above n rfl (Nat.zero_add n).symm).append hpops
      · intro x hx
        rcases List.mem_cons.mp hx with rfl | hx
        · exact .pure (.plain (by simp))
        · exact haddresses x hx

theorem nativeStatement_makes {name : String} {args : List Expr} {span : Span}
    (hN : c.node.Provides G) (hspan : G.place span) (h : ∀ e ∈ args, Expr.Ready G.place 0 e) :
    Makes G (Moves G · 0 0) (c.nativeStatement name args span) := by
  unfold nativeStatement
  refine (pushNativeArgs_makes hN h).bind fun ⟨pushes, places⟩ ⟨hpushes, hplaces, hreached⟩ => ?_
  refine (popNativeArgs_makes hreached).bind fun ⟨pops, addresses⟩ ⟨hpops, haddresses, hcodes⟩ => ?_
  have hlen : addresses.length = (args.map (·.size)).length := by
    rw [List.length_map]
    exact haddresses.trans hplaces
  refine (callNative_makes hN hspan hlen hcodes).bind fun call hcall => .pure ?_
  exact (hpushes.append hpops).append hcall

theorem emitFrom_makes {e : Expr} (hN : c.node.Provides G) (h : Expr.Ready G.place 0 e) :
    Makes G (fun r => Moves G r.1 0 0) (c.emitFrom e) := by
  have hwords : Makes G (fun r => Moves G r.1 0 0) (do
      let pushed ← c.pushWords e
      let popped ← c.popToTemps pushed.2
      return (pushed.1 ++ popped.1, popped.2) : Coding (Code × Nat)) := by
    refine (pushWords_makes hN h).bind fun pushed hpushed => ?_
    exact (popToTemps_makes pushed.2).bind fun popped hpopped => .pure (hpushed.append hpopped)
  unfold emitFrom
  cases h with
  | var hi hv =>
    refine (Expr.stored_makes hv).bind fun s _ => ?_
    by_cases hs : s.mode = .absolute
    · rw [if_pos hs]
      exact .pure .nil
    · rw [if_neg hs]
      exact hwords
  | _ => exact hwords

theorem emit_makes {event : String} {value : Option Expr} {span : Span} (hN : c.node.Provides G)
    (hspan : G.place span) (h : ∀ e, value = some e → Expr.Ready G.place 0 e) :
    Makes G (Moves G · 0 0) (c.emit event value span) := by
  have hsend : ∀ (id : Word) (size : Nat) (r : Code × Nat), Moves G r.1 0 0 →
      Makes G (Moves G · 0 0) (do
        return r.1 ++ plain [.emit id (← c.address r.2) (UInt16.ofNat size)]) := by
    intro id size r hr
    exact (address_makes r.2).bind fun addr _ => .pure (hr.append (.plain (by simp)))
  unfold emit
  split
  · exact .semantic _ hspan
  · dsimp only
    split
    · exact .semantic _ hspan
    · cases value with
      | none => exact hsend _ _ ([], 0) .nil
      | some e => exact (emitFrom_makes hN (h e rfl)).bind fun r hr => hsend _ _ r hr

/-! ### Loops and switches -/

variable {k : Nat} {test body : Code}

theorem testBranch_makes {op : Option Binary} (hop : ∀ b, op = some b → b.isComparison = true)
    (distance : Nat) : Makes G (TestBranch distance op) (testBranch op distance) := by
  cases op with
  | none => exact .pure .none
  | some b => exact .reach fun br hbr => .pure (.some (hop b rfl) hbr)

theorem jumpBack_makes (code : Code) :
    Makes G (fun r => ∃ i, r = plain [i] ∧ jumpBy? (-(Code.size code : Int)) = some i) (jumpBack code) :=
  .reach fun i hi => .pure ⟨i, rfl, hi⟩

theorem whileLoop_makes {op : Option Binary} (hop : ∀ b, op = some b → b.isComparison = true)
    (ht : Sound G 0 nowhere test 0 (Code.testDepth op)) (hb : Sound G (k + 1) nowhere body 0 0) :
    Makes G (Sound G k nowhere · 0 0) (whileLoop test op body) := by
  unfold whileLoop
  refine (testBranch_makes hop _).bind fun br hbr => ?_
  refine (jumpBack_makes _).bind ?_
  rintro _ ⟨back, rfl, hback⟩
  exact .inReach fun c hc => .whileLoop ht hbr hb hback hc

theorem doWhile_makes {op : Binary} (hop : op.isComparison = true) (ht : Sound G 0 nowhere test 0 2)
    (hb : Sound G (k + 1) nowhere body 0 0) : Makes G (Sound G k nowhere · 0 0) (doWhile body test op) := by
  unfold doWhile
  refine (jumpBack_makes _).bind ?_
  rintro _ ⟨back, rfl, hback⟩
  exact .inReach fun c hc => .doWhile ht hop hb hback hc

theorem stepLoop_makes {op : Option Binary} {step : Code} (hop : ∀ b, op = some b → b.isComparison = true)
    (ht : Sound G 0 nowhere test 0 (Code.testDepth op)) (hb : Sound G (k + 1) nowhere body 0 0)
    (hs : Sound G 0 nowhere step 0 0) : Makes G (Sound G k nowhere · 0 0) (stepLoop test op body step) := by
  unfold stepLoop
  refine (testBranch_makes hop _).bind fun br hbr => ?_
  refine (jumpBack_makes _).bind ?_
  rintro _ ⟨back, rfl, hback⟩
  exact .inReach fun c hc => .stepLoop ht hbr hb hs hback hc

end Coder

/-- The words that a test leaves, if there is one. -/
theorem Expr.test_makes {c : Coder} {cond : Option Expr} (hN : c.node.Provides G)
    (h : ∀ e, cond = some e → Expr.Ready G.place 0 e) :
    Makes G (Moves G · 0 (Code.testDepth (cond.map (·.testOp)))) (match cond with
      | some e => e.code c .test
      | none => pure []) := by
  cases cond with
  | none => exact .pure .nil
  | some e => exact ((h e rfl).makes hN).1 .test (.inl rfl)

theorem Expr.testOp_comparison {cond : Option Expr} :
    ∀ b, cond.map (·.testOp) = some b → b.isComparison = true := by
  intro b hb
  obtain ⟨e, -, rfl⟩ := Option.map_eq_some_iff.mp hb
  exact e.isComparison_testOp

/-- A counter is a place, or no place of the script's. -/
theorem Expr.Counter.placeOf_makes {c : Coder} {e : Expr} (h : e.Counter G.place Variable.Stored) :
    Makes G (fun r => Moves G r.1 0 0 ∧ r.2.Reached G) (e.placeOf c false) := by
  cases e with
  | var i v => exact (Expr.stored_makes h.2).bind fun s _ => .pure ⟨.nil, nofun⟩
  | number i n => exact .semantic _ h.1
  | _ => exact h.elim

namespace Stmt

def isCase : Stmt → Bool
  | case _ _ => true
  | _ => false

variable {c : Coder}

theorem switchTests_makes (hN : c.node.Provides G) : ∀ {ss : List Stmt}, AllKeep (.ready G.place) ss →
    Makes G (fun tests => tests.length = ss.countP isCase ∧ ∀ t ∈ tests, Moves G t 0 2)
      (c.switchTests ss)
  | [], _ => .pure ⟨rfl, nofun⟩
  | s :: ss, h => by
    have hrest := switchTests_makes hN h.2
    cases s with
    | case span value =>
      unfold Coder.switchTests
      refine ((h.1.2.makes hN).1 .value (.inl rfl)).bind fun value hvalue => ?_
      refine hrest.bind fun tests ⟨hlen, htests⟩ => .pure ⟨?_, ?_⟩
      · rw [List.length_cons, hlen, List.countP_cons_of_pos rfl]
      · intro t ht
        rcases List.mem_cons.mp ht with rfl | ht
        · have hload : Moves G (plain [.load c.returnSlot]) 0 1 := .plain (by simp)
          exact hload.append (hvalue.above 1 rfl rfl)
        · exact htests t ht
    | _ => exact hrest

theorem testGaps_length : ∀ tests : List Code, (Coder.testGaps tests).length = tests.length
  | [] => rfl
  | _ :: tests => congrArg (· + 1) (testGaps_length tests)

theorem statement_places {span : Span} {marked : Bool} {k : Nat} {code : Coding Code} (hspan : G.place span)
    (h : Makes G (Sound G k nowhere · 0 0) code) :
    Places G (Sound G k nowhere · 0 0) (c.statement span marked code) := by
  refine .lent hspan ?_
  refine Makes.bind (.set hspan) fun _ _ => h.bind fun code hcode => .pure ?_
  cases marked with
  | true =>
    have hmark : Sound G k nowhere [.mark span] 0 0 := .item ⟨hspan, rfl⟩
    exact hmark.append hcode.anywhere
  | false => exact hcode

mutual

/-- The code of a statement begins, ends and is left with an empty stack. -/
theorem code_places (hN : c.node.Provides G) (hexit : c.exit = .ret ∨ c.exit = .stop) :
    ∀ (s : Stmt) (flows : List Flow), s.Keeps (.ready G.place) →
    Places G (Sound G flows.length nowhere · 0 0) (code c flows s)
  | .expr span e, flows, h => by
    unfold code
    refine statement_places h.1 ?_
    exact ((h.2.makes hN).1 .effect (.inl rfl)).mono fun _ hcode => hcode.sound
  | .branch span arms, flows, h => by
    unfold code
    exact statement_places h.1 (armsCode_makes hN hexit arms flows h.2)
  | .whenever span cond body, flows, h => by
    unfold code
    refine statement_places h.1 ?_
    refine ((h.2.1.makes hN).1 .test (.inl rfl)).bind fun test htest => ?_
    refine (blockCode_places hN hexit body flows h.2.2).makes.bind fun body hbody => ?_
    refine .reach fun branch hbranch => .pure ?_
    exact .guard htest.sound hbody cond.isComparison_testOp hbranch
  | .whileLoop span tag cond body, flows, h => by
    unfold code
    refine statement_places h.1 ?_
    have hbody := (blockCode_places hN hexit body (⟨tag, false⟩ :: flows) h.2.2).makes
    have hloop : ∀ test, Moves G test 0 (Code.testDepth (cond.map (·.testOp))) →
        Makes G (Sound G flows.length nowhere · 0 0) (do
          let body ← blockCode c (⟨tag, false⟩ :: flows) body
          Coder.whileLoop test (cond.map (·.testOp)) body) := fun test htest =>
      hbody.bind fun body hbody => Coder.whileLoop_makes Expr.testOp_comparison htest.sound hbody
    have htest := Expr.test_makes hN h.2.1
    cases cond with
    | none => exact hloop [] .nil
    | some e => exact htest.bind hloop
  | .doWhile span tag body cond, flows, h => by
    unfold code
    refine statement_places h.1 ?_
    refine (blockCode_places hN hexit body (⟨tag, false⟩ :: flows) h.2.2).makes.bind fun body hbody => ?_
    refine ((h.2.1.makes hN).1 .test (.inl rfl)).bind fun test htest => ?_
    exact Coder.doWhile_makes cond.isComparison_testOp htest.sound hbody
  | .rangeFor span tag var first last step body, flows, h => by
    obtain ⟨hspan, hvar, hfirst, hlast, hstep, hbody⟩ := h
    have hbody := (blockCode_places hN hexit body (⟨tag, false⟩ :: flows) hbody).makes
    unfold code
    refine statement_places hspan ?_
    dsimp only
    generalize (step.bind Expr.number?).getD 1 = step
    refine (hvar.placeOf_makes (G := G)).bind fun ⟨setup, counter⟩ ⟨hsetup, hcounter⟩ => ?_
    refine ((hfirst.makes hN).1 .value (.inl rfl)).bind fun first hfirst => ?_
    refine hcounter.store.bind fun start hstart => hcounter.load.bind fun count hcount => ?_
    refine ((hlast.makes hN).1 .value (.inl rfl)).bind fun last hlast => ?_
    refine hbody.bind fun body hbody => hcounter.load.bind fun old hold => ?_
    refine hcounter.store.bind fun new hnew => ?_
    have hop : ∀ b, some (if 0 ≤ step then Binary.le else .ge) = some b → b.isComparison = true := by
      rintro b ⟨⟩
      split <;> rfl
    have htest : Moves G (count ++ last) 0 2 := hcount.append (hlast.above 1 rfl rfl)
    have hupdate : Moves G (old ++ plain [.immediate step, .binary .add] ++ new) 0 0 :=
      (hold.append (.plain (by simp))).append hnew
    refine (Coder.stepLoop_makes hop htest.sound hbody hupdate.sound).bind fun loop hloop => .pure ?_
    exact ((hsetup.append hfirst).append hstart).sound.append hloop.anywhere
  | .forLoop span tag init cond step body, flows, h => by
    obtain ⟨hspan, hinit, hcond, hstep, hbody⟩ := h
    have hbody := (blockCode_places hN hexit body (⟨tag, false⟩ :: flows) hbody).makes
    unfold code
    refine statement_places hspan ?_
    refine (blockCode_places hN hexit init flows hinit).makes.bind fun init hinit => ?_
    have hloop : ∀ test body step, Moves G test 0 (Code.testDepth (cond.map (·.testOp))) →
        Sound G (flows.length + 1) nowhere body 0 0 → Moves G step 0 0 →
        Makes G (Sound G flows.length nowhere · 0 0) (do
          return init ++ (← Coder.stepLoop test (cond.map (·.testOp)) body step)) :=
      fun test body step htest hbody hstep =>
        (Coder.stepLoop_makes Expr.testOp_comparison htest.sound hbody hstep.sound).bind
          fun loop hloop => .pure (hinit.append hloop.anywhere)
    have hrounds : ∀ test, Moves G test 0 (Code.testDepth (cond.map (·.testOp))) →
        Makes G (Sound G flows.length nowhere · 0 0) (do
          let body ← blockCode c (⟨tag, false⟩ :: flows) body
          let step ← match step with
            | some e => do c.freeTemps; e.code c .effect
            | none => pure []
          return init ++ (← Coder.stepLoop test (cond.map (·.testOp)) body step)) := by
      intro test htest
      refine hbody.bind fun body hbody => ?_
      cases step with
      | none => exact hloop test body [] htest hbody .nil
      | some e =>
        have hfree : Makes G (fun _ => True) c.freeTemps := ⟨.modify fun s hs => hs⟩
        refine hfree.bind fun _ _ => ?_
        exact (((hstep e rfl).makes hN).1 .effect (.inl rfl)).bind
          fun step hstep => hloop test body step htest hbody hstep
    have htest := Expr.test_makes hN hcond
    cases cond with
    | none => exact hrounds [] .nil
    | some e => exact htest.bind hrounds
  | .switch span tag subject body, flows, h => by
    unfold code
    refine statement_places h.1 ?_
    refine ((h.2.1.makes hN).1 .value (.inl rfl)).bind fun subject hsubject => ?_
    refine (switchTests_makes hN h.2.2).bind fun tests ⟨hlen, htests⟩ => ?_
    refine (switchCode_makes hN hexit body (⟨tag, true⟩ :: flows) (Coder.testGaps tests) 0 h.2.2
      ((testGaps_length tests).trans hlen)).bind fun ⟨body, branches, start⟩ ⟨Q, hbody, haims, hstart⟩ => ?_
    refine .reach fun skip hskip => .inReach fun code hcode => ?_
    have hhead : Moves G (subject ++ plain [.store c.returnSlot]) 0 0 :=
      hsubject.append (.plain (by simp [Goal.words]))
    refine .switch hhead.sound (fun t ht => (htests t ht).sound) haims hbody hskip ?_ hcode
    cases start with
    | none => exact .inr rfl
    | some q => exact .inl (hstart q rfl)
  | .block span body, flows, h => by
    unfold code
    exact statement_places h.1 (blockCode_places hN hexit body flows h.2).makes
  | .exit span kind tag, flows, h => by
    unfold code
    refine statement_places h ?_
    refine Makes.bind (.lift (Flow.depth_ends h)) fun depth hdepth => .pure ?_
    exact .item ⟨rfl, hdepth⟩
  | .native span name args, flows, h => by
    unfold code
    refine statement_places h.1 ?_
    exact (Coder.nativeStatement_makes hN h.1 h.2).mono fun _ hcode => hcode.sound
  | .emit span event value, flows, h => by
    unfold code
    refine statement_places h.1 ?_
    exact (Coder.emit_makes hN h.1 h.2).mono fun _ hcode => hcode.sound
  | .ret span value, flows, h => by
    unfold code
    refine statement_places h.1 ?_
    cases value with
    | none => exact .pure (.finish hexit)
    | some e =>
      refine (((h.2 e rfl).makes hN).1 .value (.inl rfl)).bind fun value hvalue => .pure ?_
      have hstore : Moves G (plain [.store c.returnSlot]) 1 0 := .plain (by simp)
      have hall := ((hvalue.append hstore).sound (k := flows.length) (X := nowhere)).append (.finish hexit)
      simpa [plain] using hall
  | .case span value, flows, h => statement_places h.1 (.pure .nil)
  | .varDecl span decl, flows, h => statement_places h.1 (.pure .nil)
  | .constDecl span name value, flows, h => statement_places h.1 (.pure .nil)
  | .default span, flows, h | .empty span, flows, h => statement_places h (.pure .nil)
  | .label span name, flows, h => statement_places h (.pure (.item rfl))
  | .goto span name, flows, h => statement_places h (.pure (.item ⟨h, rfl⟩))
  | .callSub span name, flows, h => statement_places h.1 (.pure (Moves.call h.1).sound)

theorem armsCode_makes (hN : c.node.Provides G) (hexit : c.exit = .ret ∨ c.exit = .stop) :
    ∀ (arms : Arms) (flows : List Flow), arms.Keeps (.ready G.place) →
    Makes G (Sound G flows.length nowhere · 0 0) (armsCode c flows arms)
  | .done, flows, _ => .pure .nil
  | .otherwise body, flows, h => (blockCode_places hN hexit body flows h).makes
  | .arm span cond body rest, flows, h => by
    have hrest := armsCode_makes hN hexit rest flows h.2.2.2
    unfold armsCode
    refine ((h.2.1.makes hN).1 .test (.inl rfl)).bind fun test htest => ?_
    refine (blockCode_places hN hexit body flows h.2.2.1).makes.bind fun body hbody => ?_
    dsimp only
    refine .reach fun branch hbranch => ?_
    have hop := cond.isComparison_testOp
    by_cases hdone : rest.isDone = true
    · obtain rfl : rest = .done := by
        cases rest with
        | done => rfl
        | otherwise _ | arm _ _ _ _ => cases hdone
      refine .pure ?_
      have hall := Sound.guard htest.sound hbody hop hbranch
      simpa [plain, List.append_assoc] using hall
    · rw [if_neg hdone] at hbranch
      refine hrest.bind fun others hothers => ?_
      rw [if_neg hdone]
      refine .reach fun skip hskip => .pure ?_
      exact .fork htest.sound hbody hothers hop hbranch hskip

theorem blockCode_places (hN : c.node.Provides G) (hexit : c.exit = .ret ∨ c.exit = .stop) :
    ∀ (ss : List Stmt) (flows : List Flow), AllKeep (.ready G.place) ss →
    Places G (Sound G flows.length nowhere · 0 0) (blockCode c flows ss)
  | [], flows, _ => .pure .nil
  | s :: ss, flows, h => by
    unfold blockCode
    refine (code_places hN hexit s flows h.1).bind fun first hfirst => ?_
    refine (blockCode_places hN hexit ss flows h.2).bind fun rest hrest => .pure ?_
    exact hfirst.append hrest.anywhere

theorem switchCode_makes (hN : c.node.Provides G) (hexit : c.exit = .ret ∨ c.exit = .stop) :
    ∀ (ss : List Stmt) (flows : List Flow) (gaps : List Nat) (here : Nat),
    AllKeep (.ready G.place) ss →
    gaps.length = ss.countP isCase →
    Makes G (fun r => ∃ Q, Enterable G flows.length here r.1 Q ∧ Aims Q gaps r.2.1 ∧
      ∀ q, r.2.2 = some q → Q q) (switchCode c flows gaps here ss)
  | [], flows, gaps, here, _, hgaps => by
    obtain rfl := List.length_eq_zero_iff.mp hgaps
    exact .pure ⟨_, .nil, .nil, nofun⟩
  | s :: ss, flows, gaps, here, h, hgaps => by
    have hother : isCase s = false → Makes G (fun r => ∃ Q, Enterable G flows.length here r.1 Q ∧
        Aims Q gaps r.2.1 ∧ ∀ q, r.2.2 = some q → Q q) (do
          let first ← code c flows s
          let (rest, branches, start) ← switchCode c flows gaps (here + Code.size first) ss
          return (first ++ rest, branches, start)) := by
      intro hs
      rw [List.countP_cons_of_neg (by simp [hs])] at hgaps
      refine (code_places hN hexit s flows h.1).makes.bind fun first hfirst => ?_
      refine (switchCode_makes hN hexit ss flows gaps _ h.2 hgaps).bind
        fun ⟨rest, branches, start⟩ ⟨Q, hrest, haims, hstart⟩ => ?_
      exact .pure ⟨Q, .append hfirst hrest, haims, hstart⟩
    cases s with
    | case span value =>
      rw [List.countP_cons_of_pos rfl] at hgaps
      cases gaps with
      | nil => cases hgaps
      | cons gap gaps =>
        unfold switchCode
        refine .reach fun branch hbranch => ?_
        refine (switchCode_makes hN hexit ss flows gaps here h.2 (Nat.succ.inj hgaps)).bind
          fun ⟨rest, branches, start⟩ ⟨Q, hrest, haims, hstart⟩ => ?_
        refine .pure ⟨_, hrest.start, .cons (.inl rfl) hbranch ?_, fun q hq => .inr (hstart q hq)⟩
        exact haims.mono fun q hq => .inr hq
    | default span =>
      rw [List.countP_cons_of_neg (by simp [isCase])] at hgaps
      unfold switchCode
      refine (switchCode_makes hN hexit ss flows gaps here h.2 hgaps).bind
        fun ⟨rest, branches, start⟩ ⟨Q, hrest, haims, hstart⟩ => ?_
      refine .pure ⟨_, hrest.start, haims.mono fun q hq => .inr hq, ?_⟩
      rintro q ⟨⟩
      cases start with
      | none => exact .inl rfl
      | some q => exact .inr (hstart q rfl)
    | _ => exact hother rfl

end

end Stmt
end RobotScript
