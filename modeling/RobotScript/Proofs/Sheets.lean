/-
# Drafts in an image

Each routine of a program that compiles has a draft, and its code lies in the
image from the address of the routine on: the instructions as they are, the
jumps to labels with their distances, the calls with the addresses of the
routines they are of. No two routines have a word in common.

Key definitions: `Sheet`, `Filed`, `Plan`.
Key theorem: `compile_plan`.
-/
import RobotScript.Proofs.ImageLayout
import RobotScript.Proofs.Placing
import RobotScript.Proofs.StmtDrafting

namespace RobotScript

open Machine (Instr)
open Code (Rewrites Resolves Sound nowhere)
open Image (Links resolveCalls extent headerSize addresses)

/-- A routine with the draft of its code and the address of that. -/
structure Sheet where
  routine : Routine
  coder : Coder
  draft : Draft
  base : Nat

namespace Sheet

/-- The code of the routine as it was generated. -/
def code (x : Sheet) : Code := x.draft.code ++ .plain [x.coder.exit]

def size (x : Sheet) : Nat := Code.size x.code

end Sheet

/-- In the image of a program the item stands at the address `p` of the code of
a routine: a call goes to the routine with its name and a jump to a label to
the address of that. -/
def Item.Lies (image : Array Word) (sheets : List Sheet) (x : Sheet) (p : Nat) : Item → Prop
  | instr i => ∃ held, i.Stands held image (x.base + p)
  | call name _ => ∃ y ∈ sheets, y.routine.kind.entry = .call name ∧
      (Instr.callSub (UInt16.ofNat y.base)).Stands false image (x.base + p)
  | goto name _ => ∃ (q : Nat) (i : Instr), Code.labelAddress? name 0 x.code = some q ∧
      jumpBy? ((q : Int) - p) = some i ∧ i.Stands false image (x.base + p)
  | exit _ _ | label _ | mark _ => True

/-- The words of a table and the items of drafts are in the image, up to the
marks of edge branches. -/
structure Filed (table : List Word) (sheets : List Sheet) (image : Array Word) : Prop where
  front : ∀ (j : Nat) (w : Word), table[j]? = some w → image[j]? = some w
  lies : ∀ x ∈ sheets, ∀ p item, x.code.Has p item → item.Lies image sheets x p

/-- The drafts of the routines of a program, as they lie in its image behind the
table of its handlers. -/
structure Plan (node : Node) (settings : Settings) (program : Program) (image : List Word) where
  sheets : List Sheet
  handlers : List (Word × Nat)
  /-- The words of the table. -/
  size : Nat
  routines : sheets.map (·.routine) = program.routines
  coders : ∀ x ∈ sheets, x.coder = x.routine.coder node settings program.moduleSize
  drafted : ∀ x ∈ sheets, ∃ t, Stmt.Emits x.coder (.block [] x.routine.body) x.coder.tempTop x.draft t
  sound : ∀ G : Ground, node.Provides G → (∀ span, G.place span) →
    ∀ x ∈ sheets, Sound G 0 nowhere x.draft.code 0 0
  length : (Image.header size handlers).length = size
  starts : ∀ h ∈ handlers, ∃ x ∈ sheets, h.2 = x.base ∧ ∀ name, x.routine.kind.entry ≠ .call name
  filed : Filed (Image.header size handlers) sheets image.toArray
  behind : ∀ x ∈ sheets, size ≤ x.base
  distinct : ∀ x ∈ sheets, ∀ y ∈ sheets, ∀ name, x.routine.kind.entry = .call name →
    y.routine.kind.entry = .call name → x = y
  apart : sheets.Pairwise fun x y => x.base + x.size ≤ y.base
  fits : ∀ x ∈ sheets, x.base + x.size ≤ Image.maxSize

namespace Sheet

/-- The object code of a routine is made of its draft. -/
structure Assembled (x : Sheet) (u : ObjectCode) : Prop where
  drafted : ∃ t, Stmt.Emits x.coder (.block [] x.routine.body) x.coder.tempTop x.draft t
  sound : ∀ G : Ground, x.coder.node.Provides G → x.routine.Keeps (.ready G.place) →
    Sound G 0 nowhere x.draft.code 0 0
  entry : u.entry = x.routine.kind.entry
  code : ∃ k, Rewrites (Resolves fun name => Code.labelAddress? name 0 x.code) 0 x.code k ∧
    u.words = Code.words k ∧ u.calls = (Code.addressed 0 k).filterMap Item.callSite?

theorem Assembled.length_words {x : Sheet} {u : ObjectCode} (h : x.Assembled u) :
    u.words.length = x.size := by
  obtain ⟨k, hk, hwords, -⟩ := h.code
  rw [hwords, Code.length_words, hk.size_eq]
  rfl

end Sheet

variable {u : ObjectCode} {settings : Settings}

/-- Assembling a routine makes its draft object code. -/
theorem Routine.assembled {node : Node} {moduleSize : Nat} {r : Routine}
    (h : r.assemble node settings moduleSize = .ok u) (base : Nat) :
    ∃ draft, Sheet.Assembled ⟨r, r.coder node settings moduleSize, draft, base⟩ u := by
  obtain ⟨code, hcode, h⟩ := bind_eq_ok.mp h
  obtain ⟨k, hk, h⟩ := bind_eq_ok.mp h
  obtain rfl := Except.ok.inj h
  obtain ⟨⟨block, s⟩, hblock, hplain⟩ := bind_eq_ok.mp hcode
  obtain rfl := Except.ok.inj hplain
  obtain ⟨-, draft, rfl, hdraft⟩ := Stmt.blockCode_brings r.body [] _ _ _ _ rfl hblock
  have hexit : (r.coder node settings moduleSize).exit = .ret ∨
      (r.coder node settings moduleSize).exit = .stop := by
    rw [Routine.coder_exit]
    exact r.kind.entry.ending_cases
  refine ⟨draft, ⟨_, hdraft⟩, fun G hG hready => ?_, rfl, k, ?_, rfl, rfl⟩
  · obtain ⟨block, hblock, hsound⟩ := (Routine.code_ends hG hexit hready).of_ok hcode
    exact List.append_cancel_right hblock ▸ hsound
  exact (@Code.resolveGotos_ends (fun _ => True) _ 0 _ (fun _ _ _ _ _ => trivial)
    fun _ _ _ => trivial).of_ok hk

/-- The drafts of routines, if the first one stands at `base`. -/
theorem Program.sheets_of_assemble {node : Node} {moduleSize : Nat} :
    ∀ {rs : List Routine} {us : List ObjectCode} (base : Nat),
      rs.mapM (Routine.assemble node settings moduleSize) = .ok us →
      ∃ sheets : List Sheet, sheets.map (·.routine) = rs ∧
        (∀ x ∈ sheets, x.coder = x.routine.coder node settings moduleSize) ∧
        ∀ i x, sheets[i]? = some x → ∃ u, us[i]? = some u ∧ x.Assembled u ∧
          x.base = base + Image.extent (us.take i)
  | [], us, base, h => by
    rw [List.mapM_nil] at h
    obtain rfl := Except.ok.inj h
    exact ⟨[], rfl, by simp, by simp⟩
  | r :: rs, us, base, h => by
    rw [List.mapM_cons] at h
    obtain ⟨u, hu, h⟩ := bind_eq_ok.mp h
    obtain ⟨us', hus', h⟩ := bind_eq_ok.mp h
    obtain rfl := Except.ok.inj h
    obtain ⟨draft, hx⟩ := Routine.assembled hu base
    obtain ⟨sheets, hroutines, hcoders, hsheets⟩ := sheets_of_assemble (base + u.words.length) hus'
    refine ⟨⟨r, r.coder node settings moduleSize, draft, base⟩ :: sheets, congrArg (r :: ·) hroutines,
      List.forall_mem_cons.mpr ⟨rfl, hcoders⟩, ?_⟩
    intro i x hi
    cases i with
    | zero =>
      obtain rfl := Option.some.inj hi
      exact ⟨u, rfl, hx, rfl⟩
    | succ i =>
      obtain ⟨v, hv, hxv, hbase⟩ := hsheets i x hi
      exact ⟨v, hv, hxv, by rw [hbase, List.take_succ_cons, Image.extent_cons, Nat.add_assoc]⟩

/-! ### Items at their addresses -/

/-- The words of a part of some code. -/
theorem Code.getElem?_words_mid {pre post : Code} {item : Item} {j : Nat} {w : Word}
    (h : (words [item])[j]? = some w) : (words (pre ++ item :: post))[size pre + j]? = some w := by
  have hj : j < (words [item]).length := (List.getElem?_eq_some_iff.mp h).1
  rw [← List.singleton_append, words_append, words_append, ← length_words pre,
    List.getElem?_append_right (Nat.le_add_right ..), Nat.add_sub_cancel_left,
    List.getElem?_append_left hj, h]

/-- An item of the code of a routine stands in the image that holds its words
with the calls filled in. -/
theorem Sheet.Assembled.lies {x : Sheet} (h : x.Assembled u) {callable : List (String × Nat)} {ws : List Word}
    {image : Array Word} {sheets : List Sheet} (hws : resolveCalls callable u.calls u.words = .ok ws)
    (himage : ∀ k w, ws[k]? = some w → image[x.base + k]? = some w)
    (hcalls : ∀ name addr, callable.lookup name = some addr →
      ∃ y ∈ sheets, y.routine.kind.entry = .call name ∧ y.base = addr)
    {p : Nat} {item : Item} (hitem : x.code.Has p item) : item.Lies image sheets x p := by
  obtain ⟨k, hk, hwords, hsites⟩ := h.code
  rw [hwords, hsites] at hws
  let G : Ground := ⟨fun _ _ => True, fun _ => True, fun _ => True⟩
  have hlinks := (@Image.resolveCalls_ends G callable k [] fun _ _ _ => trivial).of_ok hws
  obtain ⟨k', hk', rfl⟩ := hlinks
  obtain ⟨pre, post, hcode, rfl⟩ := hitem
  rw [hcode] at hk
  obtain ⟨pre1, _, hpre1, hrest1, rfl⟩ := hk.parts
  obtain ⟨pre2, _, hpre2, hrest2, rfl⟩ := hk'.parts
  cases hrest1 with
  | @cons _ _ item1 _ post1 hitem1 _ _ =>
  cases hrest2 with
  | @cons _ _ item2 _ post2 hitem2 _ _ =>
  have hsize : Code.size pre2 = Code.size pre := hpre2.size_eq.trans hpre1.size_eq
  have hstands (i : Instr) (hi : item2 = .instr i) : i.Stands false image (x.base + Code.size pre) := by
    intro j w hw
    rw [Instr.marked_false] at hw
    rw [Nat.add_assoc, ← hsize]
    refine himage _ w (Code.getElem?_words_mid ?_)
    rw [hi]
    simpa [Code.words] using hw
  cases hitem1 with
  | @goto name span q i hq hi =>
    cases hitem2 with
    | other => exact ⟨q, i, by rw [hcode]; exact hq, by simpa using hi, hstands i rfl⟩
  | other hgoto =>
    cases hitem2 with
    | @call name span addr haddr =>
      obtain ⟨y, hy, hentry, rfl⟩ := hcalls name addr haddr
      exact ⟨y, hy, hentry, hstands _ rfl⟩
    | other hcall =>
      cases item with
      | instr i => exact ⟨false, hstands i rfl⟩
      | call name span => exact absurd rfl (hcall name span)
      | goto name span => exact absurd rfl (hgoto name span)
      | _ => trivial

/-- The words of the routines before another one. -/
theorem Image.extent_take_lt {us : List ObjectCode} {i j : Nat} (hi : us[i]? = some u) (hij : i < j) :
    extent (us.take i) + u.words.length ≤ extent (us.take j) := by
  have hat : (us.take j)[i]? = some u := by rw [List.getElem?_take_of_lt hij, hi]
  have hle := extent_take hat
  rwa [List.take_take, Nat.min_eq_left (Nat.le_of_lt hij)] at hle

/-- A source that compiles has a plan. -/
theorem compile_plan {node : Node} {source : Source} {compiled : Compiled}
    (h : compile node settings source = .ok compiled) :
    ∃ lines program, readLines settings source = .ok lines ∧
      Program.ofLines node settings lines = .ok program ∧
      Nonempty (Plan node settings program compiled.image) := by
  unfold compile at h
  split at h
  · cases h
  rename_i image himage
  obtain rfl := Except.ok.inj h
  obtain ⟨lines, hlines, himage⟩ := bind_eq_ok.mp himage
  obtain ⟨program, hprogram, himage⟩ := bind_eq_ok.mp himage
  obtain ⟨units, hunits, himage⟩ := bind_eq_ok.mp himage
  obtain ⟨hfits, hknown, -, hclash, code, hcode, rfl⟩ := Image.link_eq_ok.mp himage
  obtain ⟨-, -, hwords⟩ := Image.layOut_eq_ok hcode
  obtain ⟨sheets, hroutines, hcoders, hsheets⟩ := Program.sheets_of_assemble (headerSize units) hunits
  have hlength : units.length = sheets.length := by
    rw [(mapM_eq_ok hunits).1, ← hroutines, List.length_map]
  have hcalled : ∀ name addr, (addresses Entry.callName? (headerSize units) units).lookup name = some addr →
      ∃ y ∈ sheets, y.routine.kind.entry = .call name ∧ y.base = addr := by
    intro name addr haddr
    rw [Image.lookup_eq_some_iff_mem (by rwa [Image.keys_addresses, Image.nodup_keys_iff])] at haddr
    obtain ⟨i, u, hu, hname, rfl⟩ := Image.mem_addresses.mp haddr
    have hi : i < sheets.length := hlength ▸ (List.getElem?_eq_some_iff.mp hu).1
    obtain ⟨u', hu', hx, hbase⟩ := hsheets i _ (List.getElem?_eq_getElem hi)
    obtain rfl : u = u' := Option.some.inj (hu.symm.trans hu')
    refine ⟨_, List.getElem_mem hi, ?_, hbase⟩
    rw [← hx.entry, Entry.callName?_eq_some.mp hname]
  have hhandled : ∀ h ∈ addresses (Entry.eventId? node) (headerSize units) units,
      ∃ x ∈ sheets, h.2 = x.base ∧ ∀ name, x.routine.kind.entry ≠ .call name := by
    rintro ⟨id, addr⟩ h
    obtain ⟨i, u, hu, hid, rfl⟩ := Image.mem_addresses.mp h
    have hi : i < sheets.length := hlength ▸ (List.getElem?_eq_some_iff.mp hu).1
    obtain ⟨u', hu', hx, hbase⟩ := hsheets i _ (List.getElem?_eq_getElem hi)
    obtain rfl : u = u' := Option.some.inj (hu.symm.trans hu')
    refine ⟨_, List.getElem_mem hi, hbase.symm, fun name hname => ?_⟩
    rw [hx.entry, hname] at hid
    cases hid
  have htable := Image.length_table hknown (headerSize units) (headerSize units)
  refine ⟨lines, program, hlines, hprogram, ⟨⟨sheets, _, headerSize units, hroutines, hcoders, ?_, ?_,
    htable, hhandled, ⟨?_, ?_⟩, ?_, ?_, ?_, ?_⟩⟩⟩
  · intro x hx
    obtain ⟨i, hi⟩ := List.mem_iff_getElem?.mp hx
    obtain ⟨u, -, hu, -⟩ := hsheets i x hi
    exact hu.drafted
  · intro G hG hplace x hx
    obtain ⟨i, hi⟩ := List.mem_iff_getElem?.mp hx
    obtain ⟨u, -, hu, -⟩ := hsheets i x hi
    have hr : x.routine ∈ program.routines := hroutines ▸ List.mem_map_of_mem hx
    have hready := (Program.ofLines_ends node settings (hplace _)
      (readLines_written hplace hlines)).of_ok hprogram
    exact hu.sound G (hcoders x hx ▸ hG) (hready.2 _ hr)
  · intro j w hw
    rw [List.getElem?_toArray]
    exact (List.getElem?_append_left (List.getElem?_eq_some_iff.mp hw).1).trans hw
  · intro x hx p item hitem
    obtain ⟨i, hi⟩ := List.mem_iff_getElem?.mp hx
    obtain ⟨u, hui, hu, hbase⟩ := hsheets i x hi
    obtain ⟨ws, hws, hat⟩ := hwords i u hui
    refine hu.lies hws (fun k w hk => ?_) hcalled hitem
    have hlt : k < u.words.length := by
      rw [← (Image.resolveCalls_eq_ok hws).1]
      exact (List.getElem?_eq_some_iff.mp hk).1
    rw [List.getElem?_toArray, hbase]
    exact (Image.getElem?_behind htable i k).trans ((hat k hlt).trans hk)
  · intro x hx
    obtain ⟨i, hi⟩ := List.mem_iff_getElem?.mp hx
    obtain ⟨u, -, -, hbase⟩ := hsheets i x hi
    omega
  · intro x hx y hy name hname hname'
    obtain ⟨i, hi⟩ := List.mem_iff_getElem?.mp hx
    obtain ⟨j, hj⟩ := List.mem_iff_getElem?.mp hy
    obtain ⟨u, hui, hu, -⟩ := hsheets i x hi
    obtain ⟨v, hvj, hv, -⟩ := hsheets j y hj
    have hij : i = j := Image.unique_of_not_clash hclash hui hvj
      (Entry.callName?_eq_some.mpr (hu.entry.trans hname))
      (Entry.callName?_eq_some.mpr (hv.entry.trans hname'))
    subst hij
    exact Option.some.inj (hi.symm.trans hj)
  · refine List.pairwise_iff_getElem.mpr fun i j hi hj hij => ?_
    obtain ⟨u, hu, hx, hbase⟩ := hsheets i _ (List.getElem?_eq_getElem hi)
    obtain ⟨v, -, -, hbase'⟩ := hsheets j _ (List.getElem?_eq_getElem hj)
    have hextent := Image.extent_take_lt hu hij
    rw [hx.length_words] at hextent
    omega
  · intro x hx
    obtain ⟨i, hi⟩ := List.mem_iff_getElem?.mp hx
    obtain ⟨u, hui, hu, hbase⟩ := hsheets i x hi
    have hextent := Image.extent_take hui
    rw [hu.length_words] at hextent
    omega

end RobotScript
