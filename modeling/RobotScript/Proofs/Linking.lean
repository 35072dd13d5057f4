/-
# The code of a whole program

The object code of a routine is its code followed by what ends it. Linking
puts the routines one behind another and replaces each call by one of the
address of a routine, which takes as many words, so the code of the whole
program is graded as that of its routines is, and the stack is empty where a
routine starts.

Key definitions: `ObjectCode.Assembled`, `Image.Laid`, `Image.Linked`.
Key theorems: `Routine.assemble_ends`, `Image.link_ends`, `Image.Laid.graded`.
-/
import Mathlib.Algebra.Ring.Nat
import RobotScript.Compile
import RobotScript.Proofs.Laying
import RobotScript.Proofs.StmtCode

namespace RobotScript

open Machine (Instr)
open Code (Graded Sound Rewrites Boundary plain nowhere)

variable {G : Ground}

/-! ### Object code -/

/-- What ends a routine that is entered so. -/
def Entry.ending : Entry → Instr
  | .call _ => .ret
  | .init | .event _ => .stop

theorem Entry.ending_cases (e : Entry) : e.ending = .ret ∨ e.ending = .stop := by
  cases e with
  | call _ => exact .inl rfl
  | init => exact .inr rfl
  | event _ => exact .inr rfl

/-- The object code of a routine whose code, up to what ends it, is `block`. -/
structure ObjectCode.Assembled (G : Ground) (u : ObjectCode) (block : Code) : Prop where
  words : u.words = Code.words (block ++ plain [u.entry.ending])
  calls : u.calls = (Code.addressed 0 (block ++ plain [u.entry.ending])).filterMap Item.callSite?
  map : u.map = (Code.addressed 0 (block ++ plain [u.entry.ending])).filterMap Item.statement?
  span : G.place u.span
  sound : Sound G 0 nowhere block 0 0
  resolved : ∀ name span, .goto name span ∉ block

namespace Code

/-- Resolving fails where a label is missing or too far. -/
theorem resolveGotos_ends {fair : CompileError → Prop} {labels : String → Option Nat} {here : Nat} {c : Code}
    (hlost : ∀ name span, .goto name span ∈ c → labels name = none →
      ∀ lost, fair ((Diagnostic.ofCause (.semantic (.unknownLabel lost))).placedAt span))
    (hfar : ∀ name span, .goto name span ∈ c →
      fair ((Diagnostic.ofCause (.semantic .codeTooLarge)).placedAt span)) :
    Ends fair (Rewrites (Resolves labels) here c) (resolveGotos labels here c) := by
  fun_induction resolveGotos labels here c with
  | case1 here => exact .nil
  | case2 here name span c hlabel => exact hlost name span List.mem_cons_self hlabel _
  | case3 here name span c target hlabel hj => exact hfar name span List.mem_cons_self
  | case4 here name span c target hlabel i hj ih =>
    refine (ih (fun name' span' hmem => hlost name' span' (List.mem_cons_of_mem _ hmem))
      fun name' span' hmem => hfar name' span' (List.mem_cons_of_mem _ hmem)).bind ?_
    exact fun c' hc' => Ends.pure (.cons (.goto hlabel hj) (size_jump hj) hc')
  | case5 here item c hne ih =>
    refine (ih (fun name' span' hmem => hlost name' span' (List.mem_cons_of_mem _ hmem))
      fun name' span' hmem => hfar name' span' (List.mem_cons_of_mem _ hmem)).bind ?_
    exact fun c' hc' => Ends.pure (.cons (.other hne) rfl hc')

theorem Resolves.no_goto {labels : String → Option Nat} {here : Nat} {c c' : Code}
    (h : Rewrites (Resolves labels) here c c') (name : String) (span : Span) : .goto name span ∉ c' := by
  intro hmem
  obtain ⟨pre, post, hsplit⟩ := List.append_of_mem hmem
  obtain ⟨-, i, -, -, -, -, hi⟩ := h.origin hsplit
  cases hi with
  | other hne => exact hne name span rfl

/-- The place of a jump to a label, of code that is graded. -/
theorem Sound.goto_place {d e : Nat} {c : Code} (h : Sound G 0 nowhere c d e) {name : String} {span : Span}
    (hmem : .goto name span ∈ c) : G.place span := by
  obtain ⟨D, -, -, hg⟩ := h
  obtain ⟨pre, post, hsplit⟩ := List.append_of_mem hmem
  exact (hg pre _ post hsplit).1

/-- The place of a call, of code that is graded. -/
theorem Sound.call_place {d e : Nat} {c : Code} (h : Sound G 0 nowhere c d e) {name : String} {span : Span}
    (hmem : .call name span ∈ c) : G.place span := by
  obtain ⟨D, -, -, hg⟩ := h
  obtain ⟨pre, post, hsplit⟩ := List.append_of_mem hmem
  exact (hg pre _ post hsplit).1

end Code

theorem Routine.coder_exit (node : Node) (settings : Settings) (moduleSize : Nat) (r : Routine) :
    (r.coder node settings moduleSize).exit = r.kind.entry.ending := by
  unfold Routine.coder
  cases r.kind <;> rfl

/-- The code of a routine that is ready. -/
theorem Routine.code_ends {c : Coder} {r : Routine} (hG : c.node.Provides G)
    (hexit : c.exit = .ret ∨ c.exit = .stop) (h : r.Keeps (.ready G.place)) :
    Ends (CompileError.Placed G.place)
      (fun code => ∃ block, code = block ++ plain [c.exit] ∧ Sound G 0 nowhere block 0 0) (r.code c) := by
  have hblock := (Stmt.blockCode_places hG hexit r.body [] h.body).yields ⟨c.tempTop, r.span⟩ h.span
  exact (hblock.weaken fun _ he => he.toPlaced).bind fun ⟨block, _⟩ hblock => Ends.pure ⟨block, rfl, hblock.1⟩

variable {settings : Settings}

/-- The object code of a routine that is ready. -/
theorem Routine.assemble_ends {node : Node} {moduleSize : Nat} {r : Routine} (hG : node.Provides G)
    (h : r.Keeps (.ready G.place)) :
    Ends (CompileError.Placed G.place) (fun u => ∃ block, u.Assembled G block)
      (r.assemble node settings moduleSize) := by
  have hending := Routine.coder_exit node settings moduleSize r
  have hexit := r.kind.entry.ending_cases
  rw [← hending] at hexit
  unfold Routine.assemble
  refine (Routine.code_ends hG hexit h).bind ?_
  rintro _ ⟨block, rfl, hsound⟩
  have hgotos : ∀ name span, .goto name span ∈
      block ++ plain [(r.coder node settings moduleSize).exit] → G.place span := by
    intro name span hmem
    rcases List.mem_append.mp hmem with hmem | hmem
    · exact hsound.goto_place hmem
    · simp [plain] at hmem
  have hplaced : ∀ fault name span, .goto name span ∈
      block ++ plain [(r.coder node settings moduleSize).exit] →
      CompileError.Placed G.place ((Diagnostic.ofCause (.semantic fault)).placedAt span) :=
    fun fault name span hmem => @semantic_placed _ Code (fun _ => True) fault span (hgotos name span hmem)
  refine (Code.resolveGotos_ends (fun name span hmem _ _ => hplaced _ name span hmem)
    (hplaced _)).bind fun code hcode => Ends.pure ?_
  obtain ⟨block', last, hblock', hlast, rfl⟩ := hcode.parts
  obtain rfl := hlast.plain_eq fun _ _ _ hi => by cases hi; rfl
  obtain ⟨D, h0, h1, hg⟩ := hsound
  rw [hending]
  refine ⟨block', rfl, rfl, rfl, h.span, ⟨D, h0, by rw [hblock'.size_eq, h1], ?_⟩, ?_⟩
  · refine hg.resolved (fun name target ht => ?_) hblock'
    rwa [Code.labelAddress?_append_plain] at ht
  · exact Code.Resolves.no_goto hblock'

theorem Program.assemble_ends {node : Node} {program : Program} (hG : node.Provides G)
    (hne : program.routines ≠ []) (h : ∀ r ∈ program.routines, r.Keeps (.ready G.place)) :
    Ends (CompileError.Placed G.place)
      (fun units => units ≠ [] ∧ ∀ u ∈ units, ∃ block, u.Assembled G block)
      (program.assemble node settings) := by
  refine (Ends.mapM program.routines fun r hr => Routine.assemble_ends hG (h r hr)).mono ?_
  rintro units ⟨hlength, hunits⟩
  refine ⟨?_, hunits⟩
  rw [← List.length_pos_iff, hlength, List.length_pos_iff]
  exact hne

/-! ### Calls -/

namespace Image

/-- What linking makes of an item, given the addresses of routines. -/
inductive Links (callable : List (String × Nat)) (_here : Nat) : Item → Item → Prop
  | call {name : String} {span : Span} {addr : Nat} (h : callable.lookup name = some addr) :
    Links callable _here (.call name span) (.instr (.callSub (UInt16.ofNat addr)))
  | other {item : Item} (h : ∀ name span, item ≠ .call name span) : Links callable _here item item

variable {callable : List (String × Nat)}

theorem encode_callSub (addr : Nat) :
    (Instr.callSub (UInt16.ofNat addr)).encode = [Machine.Opcode.subCall.word addr] := by
  simp only [Instr.encode, Machine.Opcode.word, UInt16.toNat_ofNat', List.cons.injEq, and_true]
  congr 1
  omega

/-- Filling in the calls behind some code replaces each by one of its routine. -/
theorem resolveCalls_ends : ∀ {c : Code} (pre : Code), (∀ name span, .call name span ∈ c → G.place span) →
    Ends (CompileError.Placed G.place)
      (fun ws => ∃ c', Rewrites (Links callable) (Code.size pre) c c' ∧ ws = Code.words (pre ++ c'))
      (resolveCalls callable ((Code.addressed (Code.size pre) c).filterMap Item.callSite?)
        (Code.words (pre ++ c)))
  | [], pre, _ => ⟨[], .nil, rfl⟩
  | item :: c, pre, h => by
    have hrest := fun name span hmem => h name span (List.mem_cons_of_mem item hmem)
    by_cases hcall : ∃ name span, item = .call name span
    · obtain ⟨name, span, rfl⟩ := hcall
      simp only [Code.addressed, List.filterMap_cons, Item.callSite?, resolveCalls]
      split
      · exact semantic_placed _ (h name span List.mem_cons_self)
      · rename_i addr haddr
        have hset : (Code.words (pre ++ .call name span :: c)).set (Code.size pre)
            (Machine.Opcode.subCall.word addr) =
            Code.words (pre ++ [.instr (.callSub (UInt16.ofNat addr))] ++ c) := by
          rw [Code.words_append, Code.words_append, Code.words_append, ← Code.length_words pre,
            List.set_append_right _ _ (Nat.le_refl _), Nat.sub_self]
          simp only [Code.words, encode_callSub]
          simp [Instr.encode]
        have hsize : Code.size (pre ++ [.instr (.callSub (UInt16.ofNat addr))]) =
            Code.size pre + Item.size (.call name span) := by
          rw [Code.size_append]
          rfl
        rw [hset, ← hsize]
        refine (resolveCalls_ends _ hrest).mono ?_
        rintro ws ⟨c', hc', rfl⟩
        rw [hsize] at hc'
        exact ⟨_ :: c', .cons (.call haddr) rfl hc', by simp⟩
    · have hother : ∀ name span, item ≠ .call name span := fun name span heq => hcall ⟨name, span, heq⟩
      have hsite : Item.callSite? (Code.size pre, item) = none := by
        cases item with
        | call name span => exact absurd rfl (hother name span)
        | _ => rfl
      have hsize : Code.size (pre ++ [item]) = Code.size pre + item.size := by
        rw [Code.size_append, Code.size_cons, Code.size_nil, Nat.add_zero]
      have hcode : pre ++ item :: c = pre ++ [item] ++ c := by simp
      rw [Code.addressed, List.filterMap_cons_none hsite, hcode, ← hsize]
      refine (resolveCalls_ends _ hrest).mono ?_
      rintro ws ⟨c', hc', rfl⟩
      rw [hsize] at hc'
      exact ⟨_ :: c', .cons (.other hother) rfl hc', by simp⟩

/-- The ground on which code stands whose calls are filled in. -/
def grounded (G : Ground) (callable : List (String × Nat)) : Ground :=
  { G with sub := fun a => ∃ name addr, callable.lookup name = some addr ∧ a = UInt16.ofNat addr }

/-- Code without calls that are filled in already. -/
theorem Links.graded {here k : Nat} {D : Nat → Nat} {c c' : Code} (hsub : ∀ a, ¬ G.sub a)
    (hg : Graded G k nowhere D c) (h : Rewrites (Links callable) here c c') :
    Graded (grounded G callable) k nowhere D c' := by
  refine h.graded hg ?_
  intro p i i' hi _ hgi
  cases hi with
  | call hname => exact ⟨⟨_, _, hname, rfl⟩, hgi.2⟩
  | other _ =>
    have hgi := hgi.imp (Nat.le_refl k) rfl rfl fun t n => h.lands fun _ _ hx => hx
    cases i with
    | instr i =>
      cases i with
      | callSub a => exact absurd hgi.1 (hsub a)
      | _ => exact hgi
    | _ => exact hgi

/-! ### Routines one behind another -/

/-- The words of routines. -/
def extent (units : List ObjectCode) : Nat := (units.map (·.words.length)).sum

@[simp] theorem extent_nil : extent [] = 0 := rfl

@[simp] theorem extent_cons (u : ObjectCode) (us : List ObjectCode) :
    extent (u :: us) = u.words.length + extent us := rfl

/-- The code of each routine with its calls filled in. -/
inductive Laid (G : Ground) (callable : List (String × Nat)) : List ObjectCode → List Code → Prop
  | nil : Laid G callable [] []
  | cons {u : ObjectCode} {us : List ObjectCode} {block linked : Code} {parts : List Code}
    (hu : u.Assembled G block) (hl : Rewrites (Links callable) 0 block linked)
    (rest : Laid G callable us parts) :
    Laid G callable (u :: us) ((linked ++ plain [u.entry.ending]) :: parts)

/-- The places of statements and the addresses of their code, from an address
on. -/
def mapFrom : Nat → List ObjectCode → List (Span × Word)
  | _, [] => []
  | base, u :: us =>
    u.map.map (fun m => (m.1, UInt16.ofNat (base + m.2))) ++ mapFrom (base + u.words.length) us

theorem layOut_ends : ∀ {units : List ObjectCode} (base : Nat),
    (∀ u ∈ units, ∃ block, u.Assembled G block) →
    Ends (CompileError.Placed G.place)
      (fun image => image.map = mapFrom base units ∧
        ∃ parts, Laid G callable units parts ∧ image.words = Code.words parts.flatten)
      (layOut callable base units)
  | [], _, _ => ⟨rfl, [], .nil, rfl⟩
  | u :: us, base, h => by
    obtain ⟨block, hu⟩ := h u List.mem_cons_self
    have hcalls : ∀ name span, .call name span ∈ block ++ plain [u.entry.ending] → G.place span := by
      intro name span hmem
      rcases List.mem_append.mp hmem with hmem | hmem
      · exact hu.sound.call_place hmem
      · simp [plain] at hmem
    unfold layOut
    rw [hu.calls, hu.words]
    refine (resolveCalls_ends [] hcalls).bind ?_
    rintro _ ⟨code, hcode, rfl⟩
    obtain ⟨linked, last, hlinked, hlast, rfl⟩ := hcode.parts
    obtain rfl := hlast.plain_eq fun _ _ _ hi => by cases hi; rfl
    refine (layOut_ends _ fun v hv => h v (List.mem_cons_of_mem _ hv)).bind fun rest hrest => ?_
    obtain ⟨hmap, parts, hparts, hwords⟩ := hrest
    refine Ends.pure ⟨?_, _, .cons hu hlinked hparts, ?_⟩
    · rw [mapFrom, hmap, hu.words]
    · rw [List.flatten_cons, Code.words_append _ parts.flatten, ← hwords]
      rfl

variable {u : ObjectCode}

/-- Every word of a linked routine is one of an instruction. -/
theorem Links.settled {block linked : Code} (hu : u.Assembled G block)
    (hl : Rewrites (Links callable) 0 block linked) : Code.Settled linked := by
  intro item hmem
  obtain ⟨pre, post, hsplit⟩ := List.append_of_mem hmem
  obtain ⟨pre0, item0, post0, hblock, -, -, hlink⟩ := hl.origin hsplit
  have hmem0 : item0 ∈ block := by
    rw [hblock]
    exact List.mem_append_right _ List.mem_cons_self
  cases hlink with
  | call _ => exact .inr ⟨_, rfl⟩
  | other hcall =>
    cases item with
    | instr i => exact .inr ⟨i, rfl⟩
    | call name span => exact absurd rfl (hcall name span)
    | goto name span => exact absurd hmem0 (hu.resolved name span)
    | exit kind depth =>
      obtain ⟨D, -, -, hg⟩ := hu.sound
      exact absurd (hg _ _ _ hblock).2 (Nat.not_lt_zero _)
    | label name => exact .inl rfl
    | mark span => exact .inl rfl

theorem length_linked {block linked : Code} (hu : u.Assembled G block)
    (hl : Rewrites (Links callable) 0 block linked) :
    u.words.length = Code.size (linked ++ plain [u.entry.ending]) := by
  rw [hu.words, Code.length_words, Code.size_append, Code.size_append, hl.size_eq]

namespace Laid

variable {units : List ObjectCode} {parts : List Code}

theorem extent_eq (h : Laid G callable units parts) : extent units = Code.size parts.flatten := by
  induction h with
  | nil => rfl
  | cons hu hl _ ih =>
    rw [extent_cons, ih, List.flatten_cons, Code.size_append, length_linked hu hl]

theorem settled (h : Laid G callable units parts) : Code.Settled parts.flatten := by
  induction h with
  | nil => simp [Code.Settled]
  | cons hu hl _ ih =>
    intro item hmem
    rw [List.flatten_cons, List.append_assoc] at hmem
    rcases List.mem_append.mp hmem with hmem | hmem
    · exact Links.settled hu hl item hmem
    · rcases List.mem_append.mp hmem with hmem | hmem
      · exact .inr ⟨_, List.mem_singleton.mp hmem⟩
      · exact ih item hmem

/-- The code of one of the routines. -/
theorem split (h : Laid G callable units parts) {before after : List ObjectCode} {u : ObjectCode}
    (hunits : units = before ++ u :: after) :
    ∃ parts1 parts2 block linked, parts = parts1 ++ (linked ++ plain [u.entry.ending]) :: parts2 ∧
      Code.size parts1.flatten = extent before ∧ u.Assembled G block ∧
      Rewrites (Links callable) 0 block linked := by
  induction h generalizing before with
  | nil => simp at hunits
  | @cons v us block linked parts hv hl hrest ih =>
    cases before with
    | nil =>
      obtain ⟨rfl, rfl⟩ : v = u ∧ us = after := by simpa using hunits
      exact ⟨[], parts, block, linked, rfl, rfl, hv, hl⟩
    | cons w before =>
      obtain ⟨rfl, rfl⟩ : v = w ∧ us = before ++ u :: after := by simpa using hunits
      obtain ⟨parts1, parts2, block', linked', rfl, hsize, hu, hl'⟩ := ih rfl
      refine ⟨_ :: parts1, parts2, block', linked', rfl, ?_, hu, hl'⟩
      rw [List.flatten_cons, Code.size_append, hsize, extent_cons, length_linked hv hl]

/-- The code of the program up to its last instruction is graded, and the stack
is empty where a routine starts. -/
theorem graded (h : Laid G callable units parts) (hsub : ∀ a, ¬ G.sub a) (hne : units ≠ []) :
    ∃ (c : Code) (i : Instr) (D : Nat → Nat), parts.flatten = c ++ plain [i] ∧ (i = .ret ∨ i = .stop) ∧
      Graded (grounded G callable) 0 nowhere D c ∧ D (Code.size c) = 0 ∧
      ∀ before u after, units = before ++ u :: after → D (extent before) = 0 := by
  induction h with
  | nil => exact absurd rfl hne
  | @cons u us block linked parts hu hl hrest ih =>
    obtain ⟨D, h0, h1, hg⟩ := hu.sound
    have hlinked := Links.graded hsub hg hl
    rw [← hl.size_eq] at h1
    by_cases hlast : us = []
    · subst hlast
      cases hrest
      refine ⟨linked, u.entry.ending, D, by simp, u.entry.ending_cases, hlinked, h1, ?_⟩
      intro before v after hsplit
      cases before with
      | nil => exact h0
      | cons w before => simp at hsplit
    · obtain ⟨c, i, E, hc, hi, hE, hend, hstarts⟩ := ih hlast
      have hfirst : Sound (grounded G callable) 0 nowhere (linked ++ plain [u.entry.ending]) 0 0 :=
        Sound.append ⟨D, h0, h1, hlinked⟩ (.finish u.entry.ending_cases)
      have hlength := length_linked hu hl
      generalize linked ++ plain [u.entry.ending] = first at hfirst hlength
      obtain ⟨F, hF0, hF1, hF⟩ := hfirst
      have hE0 : E 0 = 0 := by
        obtain ⟨v, vs, rfl⟩ := List.exists_cons_of_ne_nil hlast
        exact hstarts [] v vs rfl
      have hmeet := hF1.trans hE0.symm
      refine ⟨first ++ c, i, Code.join F (Code.size first) E, ?_, hi, ?_, ?_, ?_⟩
      · rw [List.flatten_cons, hc, List.append_assoc]
      · exact hF.append (hE.mono (Nat.le_refl 0) fun _ _ hx => hx.elim) hmeet
      · rw [Code.size_append, Code.join_right, hend]
      · intro before v after hsplit
        cases before with
        | nil => rw [extent_nil, Code.join_left hmeet (Nat.zero_le _), hF0]
        | cons w before =>
          obtain ⟨rfl, rfl⟩ : u = w ∧ us = before ++ v :: after := by simpa using hsplit
          rw [extent_cons, hlength, Code.join_right]
          exact hstarts before v after rfl

end Laid

/-! ### Addresses -/

/-- The address `addr` is that of a routine with the entry `entry`, if the first
one stands at `base`. -/
def Starts (base : Nat) (units : List ObjectCode) (entry : Entry → Prop) (addr : Nat) : Prop :=
  ∃ before u after, units = before ++ u :: after ∧ entry u.entry ∧ addr = base + extent before

theorem Starts.cons {base addr : Nat} {us : List ObjectCode} {entry : Entry → Prop}
    (h : Starts (base + u.words.length) us entry addr) : Starts base (u :: us) entry addr := by
  obtain ⟨before, v, after, rfl, hv, rfl⟩ := h
  exact ⟨u :: before, v, after, rfl, hv, by rw [extent_cons, Nat.add_assoc]⟩

theorem Starts.head {base : Nat} {us : List ObjectCode} {entry : Entry → Prop} (h : entry u.entry) :
    Starts base (u :: us) entry base :=
  ⟨[], u, us, rfl, h, rfl⟩

theorem isHandler_iff : isHandler u = true ↔ u.entry.ending = .stop := by
  unfold isHandler
  cases u.entry <;> simp [Entry.ending]

/-- Routines placed behind those of `p`. -/
structure Placed (units : List ObjectCode) (p q : Placing) : Prop where
  next : q.next = p.next + extent units
  fits : units ≠ [] → q.next ≤ maxSize
  callable : ∀ name addr, q.callable.lookup name = some addr →
    p.callable.lookup name = some addr ∨ Starts p.next units (· = .call name) addr
  handlers : ∀ h ∈ q.handlers, h ∈ p.handlers ∨ Starts p.next units (·.ending = .stop) h.2
  count : q.handlers.length = p.handlers.length + units.countP isHandler

theorem handler_ends {p : Placing} {next : Nat} {id : Word} {name : String} {span : Span}
    (hspan : G.place span) :
    Ends (CompileError.Placed G.place) (fun q => q = ⟨next, p.callable, p.handlers ++ [(id, p.next)]⟩)
      (p.handler next id name span) := by
  unfold Placing.handler
  split
  · exact semantic_placed _ hspan
  · exact Ends.pure rfl

/-- What placing one routine does. -/
theorem unit_ends {node : Node} {p : Placing} (hspan : G.place u.span) :
    Ends (CompileError.Placed G.place) (fun q => p.next + u.words.length ≤ maxSize ∧
      ((∃ id, u.entry.ending = .stop ∧
          q = ⟨p.next + u.words.length, p.callable, p.handlers ++ [(id, p.next)]⟩) ∨
        ∃ name, u.entry = .call name ∧
          q = ⟨p.next + u.words.length, p.callable ++ [(name, p.next)], p.handlers⟩))
      (Placing.unit node p u) := by
  unfold Placing.unit
  dsimp only
  split
  · exact semantic_placed _ hspan
  · rename_i hfits
    have hfits := Nat.le_of_not_lt hfits
    split
    · rename_i hentry
      refine (handler_ends hspan).mono fun q hq => ⟨hfits, .inl ⟨_, ?_, hq⟩⟩
      rw [hentry]
      rfl
    · rename_i name hentry
      split
      · exact semantic_placed _ hspan
      · refine (handler_ends hspan).mono fun q hq => ⟨hfits, .inl ⟨_, ?_, hq⟩⟩
        rw [hentry]
        rfl
    · rename_i name hentry
      split
      · exact semantic_placed _ hspan
      · exact Ends.pure ⟨hfits, .inr ⟨name, hentry, rfl⟩⟩

theorem place_ends {node : Node} : ∀ {units : List ObjectCode} {p : Placing},
    (∀ u ∈ units, G.place u.span) →
    Ends (CompileError.Placed G.place) (Placed units p) (units.foldlM (Placing.unit node) p)
  | [], p, _ => by
    rw [List.foldlM_nil]
    exact Ends.pure ⟨rfl, fun h => absurd rfl h, fun _ _ h => .inl h, fun _ h => .inl h, rfl⟩
  | u :: us, p, h => by
    rw [List.foldlM_cons]
    refine (unit_ends (h u List.mem_cons_self)).bind fun p' hp' => ?_
    refine (place_ends fun v hv => h v (List.mem_cons_of_mem _ hv)).mono fun q hq => ?_
    obtain ⟨hfits, hp'⟩ := hp'
    have hnext' : p'.next = p.next + u.words.length := by
      rcases hp' with ⟨id, -, rfl⟩ | ⟨name, -, rfl⟩ <;> rfl
    have hnext := hq.next
    refine ⟨?_, fun _ => ?_, fun name addr haddr => ?_, fun handler hmem => ?_, ?_⟩
    · rw [hnext, hnext', extent_cons, Nat.add_assoc]
    · cases us with
      | nil => rw [hnext, hnext', extent_nil]; exact hfits
      | cons v vs => exact hq.fits (by simp)
    · rcases hq.callable name addr haddr with hold | hnew
      · rcases hp' with ⟨id, -, rfl⟩ | ⟨name', hentry, rfl⟩
        · exact .inl hold
        · rw [List.lookup_append] at hold
          rcases Option.or_eq_some_iff.mp hold with hold | ⟨-, hlast⟩
          · exact .inl hold
          · by_cases hname : name = name'
            · subst hname
              obtain rfl : p.next = addr := by simpa [List.lookup_cons] using hlast
              exact .inr (.head hentry)
            · simp [List.lookup_cons, beq_eq_false_iff_ne.mpr hname] at hlast
      · rw [hnext'] at hnew
        exact .inr hnew.cons
    · rcases hq.handlers handler hmem with hold | hnew
      · rcases hp' with ⟨id, hentry, rfl⟩ | ⟨name', -, rfl⟩
        · rcases List.mem_append.mp hold with hold | hlast
          · exact .inl hold
          · obtain rfl := List.mem_singleton.mp hlast
            exact .inr (.head hentry)
        · exact .inl hold
      · rw [hnext'] at hnew
        exact .inr hnew.cons
    · rw [hq.count]
      rcases hp' with ⟨id, hentry, rfl⟩ | ⟨name', hentry, rfl⟩
      · rw [List.countP_cons_of_pos (isHandler_iff.mpr hentry), List.length_append]
        simp only [List.length_singleton]
        omega
      · have : ¬ isHandler u = true := by
          rw [isHandler_iff, hentry]
          nofun
        rw [List.countP_cons_of_neg this]

/-- The image of a program: the table of its handlers, then the code of its
routines. -/
structure Linked (G : Ground) (units : List ObjectCode) (image : Image) (table : List (Word × Nat))
    (callable : List (String × Nat)) (parts : List Code) : Prop where
  laid : Laid G callable units parts
  words : image.words = header (headerSize units) table ++ Code.words parts.flatten
  map : image.map = mapFrom (headerSize units) units
  fits : headerSize units + extent units ≤ maxSize
  calls : ∀ name addr, callable.lookup name = some addr →
    Starts (headerSize units) units (· = .call name) addr
  handlers : ∀ h ∈ table, Starts (headerSize units) units (·.ending = .stop) h.2
  count : table.length = units.countP isHandler

theorem extent_append (us vs : List ObjectCode) : extent (us ++ vs) = extent us + extent vs := by
  simp [extent]

theorem header_length (size : Nat) (handlers : List (Word × Nat)) :
    (header size handlers).length = 1 + 2 * handlers.length := by
  rw [header, List.length_cons, List.length_flatMap]
  simp only [List.length_cons, List.length_nil, List.map_const', List.sum_replicate_nat]
  omega

namespace Linked

variable {units : List ObjectCode} {image : Image} {table : List (Word × Nat)} {parts : List Code}

/-- A routine starts behind the table and within the image. -/
theorem start_bounds (h : Linked G units image table callable parts) {entry : Entry → Prop}
    {addr : Nat} (hs : Starts (headerSize units) units entry addr) :
    headerSize units ≤ addr ∧ addr < headerSize units + extent units := by
  obtain ⟨before, u, after, hunits, -, rfl⟩ := hs
  obtain ⟨_, _, block, linked, -, -, hu, hl⟩ := h.laid.split hunits
  have hlength : 0 < u.words.length := by
    rw [length_linked hu hl, Code.size_append]
    have := u.entry.ending.length_pos
    simp only [plain, List.map_cons, Code.size_cons, Item.size]
    omega
  have hextent : extent units = extent before + (u.words.length + extent after) := by
    rw [hunits, extent_append, extent_cons]
  omega

theorem length_header (h : Linked G units image table callable parts) :
    (header (headerSize units) table).length = headerSize units := by
  rw [header_length, h.count, headerSize]

end Linked

/-- Linking the routines of a program. -/
theorem link_ends {node : Node} {units : List ObjectCode} (hne : units ≠ [])
    (h : ∀ u ∈ units, ∃ block, u.Assembled G block) :
    Ends (CompileError.Placed G.place)
      (fun image => ∃ table callable parts, Linked G units image table callable parts)
      (link node units) := by
  have hspans : ∀ u ∈ units, G.place u.span := fun u hu => (h u hu).elim fun _ hb => hb.span
  unfold link
  refine (place_ends hspans).bind fun placed hplaced => ?_
  refine (layOut_ends _ h).bind fun code hcode => Ends.pure ?_
  obtain ⟨hmap, parts, hlaid, hwords⟩ := hcode
  refine ⟨placed.handlers, placed.callable, parts, hlaid, by rw [← hwords], hmap, ?_, ?_, ?_, ?_⟩
  · rw [← hplaced.next]
    exact hplaced.fits hne
  · intro name addr haddr
    rcases hplaced.callable name addr haddr with hold | hnew
    · simp at hold
    · exact hnew
  · intro handler hmem
    rcases hplaced.handlers handler hmem with hold | hnew
    · simp at hold
    · exact hnew
  · rw [hplaced.count, List.length_nil, Nat.zero_add]

end Image

/-- The lines of a source stand at places that are all allowed. -/
theorem readLines_written {P : Span → Prop} {source : Source} {lines : List Line} (hplace : ∀ span, P span)
    (h : readLines settings source = .ok lines) : ∀ l ∈ lines, l.Written P := by
  have hread : (do
      Line.ofTokens (Line.reading settings source) (← Line.tokens settings.language source)) =
      .ok lines := mapError_eq_ok.mp (mapError_eq_ok.mp h)
  obtain ⟨toks, -, htoks⟩ := bind_eq_ok.mp hread
  exact (Line.ofTokens_ends (hplace _) toks fun t _ => hplace t.span).of_ok htoks

/-- A source that compiles is the program of some object code, linked. -/
theorem compile_linked {node : Node} {source : Source} {compiled : Compiled} (hG : node.Provides G)
    (hplace : ∀ span, G.place span) (h : compile node settings source = .ok compiled) :
    ∃ lines program units image table callable parts,
      readLines settings source = .ok lines ∧ Program.ofLines node settings lines = .ok program ∧
      program.assemble node settings = .ok units ∧ units ≠ [] ∧
      Image.Linked G units image table callable parts ∧
      compiled = ⟨image.words, image.map.map (SourceMapEntry.ofPlace source)⟩ := by
  unfold compile at h
  split at h
  · cases h
  · rename_i image himage
    cases h
    obtain ⟨lines, hlines, himage⟩ := bind_eq_ok.mp himage
    obtain ⟨program, hprogram, himage⟩ := bind_eq_ok.mp himage
    obtain ⟨units, hunits, himage⟩ := bind_eq_ok.mp himage
    have hwritten := readLines_written hplace hlines
    have hready := (Program.ofLines_ends node settings (hplace _) hwritten).of_ok hprogram
    have hassembled := (Program.assemble_ends hG hready.1 hready.2).of_ok hunits
    obtain ⟨table, callable, parts, hlinked⟩ :=
      (Image.link_ends hassembled.1 hassembled.2).of_ok himage
    exact ⟨lines, program, units, image, table, callable, parts, hlines, hprogram, hunits,
      hassembled.1, hlinked, rfl⟩

end RobotScript
