/-
# What a firmware function finds on the stack

The caller pushes the sizes of groups in ascending order, then those of the
arguments that have one of their own from the last to the first, then the
addresses from the last to the first. The machine takes them from the other end:
the addresses in order, the sizes of single arguments in order, the sizes of
groups in descending order. So a call gets the addresses and sizes of its
arguments in the order of its signature, and takes no word too many or too few,
whatever groups and single sizes the signature mixes. The sizes are accepted just
if they fit it.

Key definitions: `NativeFunction.Admits`, `NativeFunction.perform`.
Key theorems: `nativeSizes?_isSome_iff`, `argumentSizes_eq`, `run_popCall`,
`native_call_layout`.
-/
import Mathlib.Data.List.Forall2
import RobotScript.Proofs.ControlFlow

namespace RobotScript

open Machine (Instr State Exec popNats popCall groupsOf argumentSizes)
open Code (plain size)
open Coder (pushNat lastFirst)

/-! ### Sizes that fit a signature -/

/-- Arguments of these sizes can be passed: there is one for each code, a fixed
size is met, and the arguments of a group have one size. -/
structure NativeFunction.Admits (f : NativeFunction) (sizes : List Nat) : Prop where
  count : sizes.length = f.args.length
  fixed : ∀ (i : Nat) (code : Int32) (n : Nat), f.args[i]? = some code → sizes[i]? = some n →
    0 < code → code.toInt = n
  groups : ∀ (i j : Nat) (code : Int32), f.args[i]? = some code → f.args[j]? = some code →
    code < 0 → sizes[i]? = sizes[j]?

theorem mem_zip_iff_getElem? {α β : Type} {xs : List α} {ys : List β} {x : α} {y : β} :
    (x, y) ∈ xs.zip ys ↔ ∃ i : Nat, xs[i]? = some x ∧ ys[i]? = some y := by
  simp only [List.mem_iff_getElem?, List.getElem?_zip_eq_some]

/-- What is looked up for a key that occurs is one of its values. -/
theorem lookup_of_mem {β : Type} {code : Int32} {n : β} : ∀ {args : List (Int32 × β)}, (code, n) ∈ args →
    ∃ n', args.lookup code = some n' ∧ (code, n') ∈ args
  | (code', n') :: args, h => by
    by_cases hcode : code = code'
    · subst hcode
      exact ⟨n', by simp, List.mem_cons_self⟩
    · have htail : (code, n) ∈ args := by
        rcases List.mem_cons.mp h with heq | htail
        · exact absurd (congrArg Prod.fst heq) hcode
        · exact htail
      obtain ⟨n'', hlookup, hmem⟩ := lookup_of_mem htail
      refine ⟨n'', ?_, List.mem_cons_of_mem _ hmem⟩
      rw [List.lookup_cons, beq_eq_false_iff_ne.mpr hcode]
      exact hlookup

/-- The sign of a size code is that of its number. -/
theorem code_sign (code : Int32) :
    (0 < code ↔ 0 < code.toInt) ∧ (code < 0 ↔ code.toInt < 0) ∧ (code = 0 ↔ code.toInt = 0) :=
  ⟨Int32.lt_iff_toInt_lt, Int32.lt_iff_toInt_lt, Int32.toInt_inj.symm⟩

variable {codes : List Int32} {sizes groups free addrs : List Nat} {f : NativeFunction} {node : Node}
  {name : String}

/-- The sizes are accepted if each fits its code: the first size of a group is
that of all its arguments. -/
theorem nativeSizes?_isSome_iff :
    (nativeSizes? codes sizes).isSome = true ↔
      (∀ arg ∈ codes.zip sizes, 0 < arg.1 → arg.1.toInt = arg.2) ∧
      ∀ arg ∈ codes.zip sizes, arg.1 < 0 → (codes.zip sizes).lookup arg.1 = some arg.2 := by
  unfold nativeSizes?
  dsimp only
  have hfits (code : Int32) (n : Nat) (hmem : (code, n) ∈ codes.zip sizes) :
      (if 0 < code then n == code.toNatClampNeg
        else code == 0 || n == ((codes.zip sizes).lookup code).getD 0) = true ↔
      (0 < code → code.toInt = n) ∧ (code < 0 → (codes.zip sizes).lookup code = some n) := by
    obtain ⟨n', hlookup, -⟩ := lookup_of_mem hmem
    rw [hlookup, Option.getD_some, Option.some.injEq]
    obtain ⟨hpos, hneg, hzero⟩ := code_sign code
    split
    · rename_i h
      rw [hpos] at h
      rw [beq_iff_eq, ← Int32.toNat_toInt, hpos, hneg]
      omega
    · rename_i h
      rw [hpos] at h
      rw [Bool.or_eq_true, beq_iff_eq, beq_iff_eq, hpos, hneg, hzero]
      omega
  split
  · rename_i hall
    rw [List.all_eq_true] at hall
    have hall' := fun arg harg => (hfits arg.1 arg.2 harg).mp (hall arg harg)
    exact iff_of_true rfl ⟨fun arg harg => (hall' arg harg).1, fun arg harg => (hall' arg harg).2⟩
  · rename_i hall
    rw [List.all_eq_true] at hall
    refine iff_of_false Bool.false_ne_true fun ⟨hfixed, hgroups⟩ => hall fun arg harg => ?_
    exact (hfits arg.1 arg.2 harg).mpr ⟨hfixed arg harg, hgroups arg harg⟩

theorem NativeFunction.admits_iff :
    f.Admits sizes ↔ f.args.length = sizes.length ∧ (nativeSizes? f.args sizes).isSome = true := by
  rw [nativeSizes?_isSome_iff]
  constructor
  · intro h
    refine ⟨h.count.symm, fun arg harg hpos => ?_, fun arg harg hneg => ?_⟩
    · obtain ⟨i, hcode, hn⟩ := mem_zip_iff_getElem?.mp harg
      exact h.fixed i _ _ hcode hn hpos
    · obtain ⟨n', hlookup, hmem⟩ := lookup_of_mem harg
      obtain ⟨i, hcode, hn⟩ := mem_zip_iff_getElem?.mp harg
      obtain ⟨j, hcode', hn'⟩ := mem_zip_iff_getElem?.mp hmem
      rw [hlookup, ← hn', ← hn]
      exact (h.groups i j arg.1 hcode hcode' hneg).symm
  · rintro ⟨hcount, hfixed, hgroups⟩
    refine ⟨hcount.symm, fun i code n hcode hn => hfixed (code, n) (mem_zip_iff_getElem?.mpr ⟨i, hcode, hn⟩),
      fun i j code hi hj hneg => ?_⟩
    have hin (i : Nat) (hi : f.args[i]? = some code) :
        sizes[i]? = (f.args.zip sizes).lookup code := by
      have hlt : i < sizes.length := hcount ▸ (List.getElem?_eq_some_iff.mp hi).1
      have hn : sizes[i]? = some sizes[i] := List.getElem?_eq_getElem hlt
      rw [hn]
      exact (hgroups (code, sizes[i]) (mem_zip_iff_getElem?.mpr ⟨i, hi, hn⟩) hneg).symm
    rw [hin i hi, hin j hj]

/-! ### Sizes that are read back -/

/-- The sizes of arguments are those of the table for groups, and else the ones
given for the arguments with a size of their own. -/
theorem argumentSizes_eq {table : List (Int32 × Nat)} : ∀ {codes : List Int32} {sizes : List Nat},
    codes.length = sizes.length → (∀ arg ∈ codes.zip sizes, 0 < arg.1 → arg.1.toInt = arg.2) →
    (∀ arg ∈ codes.zip sizes, arg.1 < 0 → table.lookup (-arg.1) = some arg.2) →
    argumentSizes table codes (((codes.zip sizes).filter (·.1 == 0)).map (·.2)) = sizes
  | [], [], _, _, _ => rfl
  | code :: codes, n :: sizes, hlen, hfixed, hgroups => by
    rw [List.zip_cons_cons, List.forall_mem_cons] at hfixed hgroups
    have htail := argumentSizes_eq (Nat.succ.inj hlen) hfixed.2 hgroups.2
    rw [List.zip_cons_cons, argumentSizes]
    by_cases hzero : code = 0
    · rw [if_pos hzero, List.filter_cons_of_pos (by simp [hzero]), List.map_cons, List.headD_cons,
        List.tail_cons, htail]
    · rw [if_neg hzero, List.filter_cons_of_neg (by simp [hzero])]
      by_cases hpos : 0 < code
      · have hn : code.toInt = n := hfixed.1 hpos
        rw [if_pos hpos, htail, ← Int32.toNat_toInt, hn, Int.toNat_natCast]
      · have hneg : code < 0 := by
          obtain ⟨hpos', hneg, hzero'⟩ := code_sign code
          rw [hpos'] at hpos
          rw [hzero'] at hzero
          exact hneg.mpr (by omega)
        have hn : table.lookup (-code) = some n := hgroups.1 hneg
        rw [if_neg hpos, htail, hn, Option.getD_some]

theorem lookup_zip_map {h : Int32 → Nat} {g : Int32} : ∀ {gs : List Int32}, g ∈ gs →
    (gs.zip (gs.map h)).lookup g = some (h g)
  | g' :: gs, hg => by
    rw [List.map_cons, List.zip_cons_cons, List.lookup_cons]
    by_cases heq : g = g'
    · simp [heq]
    · rw [beq_eq_false_iff_ne.mpr heq]
      exact lookup_zip_map ((List.mem_cons.mp hg).resolve_left heq)

theorem mem_insertGroup {g : Int32} : ∀ {gs : List Int32},
    g ∈ Machine.insertGroup g gs ∧ ∀ h ∈ gs, h ∈ Machine.insertGroup g gs
  | [] => ⟨List.mem_singleton_self g, by simp⟩
  | h :: gs => by
    have ih := @mem_insertGroup g gs
    unfold Machine.insertGroup
    grind

theorem mem_groupsOf {code : Int32} (h : code ∈ codes) (hneg : code < 0) : -code ∈ groupsOf codes := by
  unfold groupsOf
  have hmem : code ∈ codes.filter (· < 0) := List.mem_filter.mpr ⟨h, by simpa using hneg⟩
  generalize codes.filter (· < 0) = negative at hmem ⊢
  induction negative with
  | nil => cases hmem
  | cons code' rest ih =>
    rcases List.mem_cons.mp hmem with rfl | hrest
    · exact mem_insertGroup.1
    · exact mem_insertGroup.2 _ (ih hrest)

/-- The sizes that are pushed are read back as those of the arguments. -/
theorem argumentSizes_nativeSizes (hlen : codes.length = sizes.length)
    (h : nativeSizes? codes sizes = some (groups, free)) :
    argumentSizes ((groupsOf codes).reverse.zip groups.reverse) codes free = sizes := by
  obtain ⟨hfixed, hgroups⟩ := nativeSizes?_isSome_iff.mp (Option.isSome_of_mem h)
  unfold nativeSizes? at h
  dsimp only at h
  split at h
  · obtain ⟨rfl, rfl⟩ := Prod.mk.inj (Option.some.inj h)
    rw [← List.map_reverse]
    refine argumentSizes_eq hlen hfixed fun arg harg hneg => ?_
    have hmem : -arg.1 ∈ (groupsOf codes).reverse :=
      List.mem_reverse.mpr (mem_groupsOf (List.of_mem_zip harg).1 hneg)
    rw [lookup_zip_map hmem, Int32.neg_neg, hgroups arg harg hneg, Option.getD_some]
  · cases h

/-- The sizes that are pushed are among those of the arguments. -/
theorem nativeSizes?_mem (h : nativeSizes? codes sizes = some (groups, free)) {n : Nat}
    (hn : n ∈ free ++ groups) : n = 0 ∨ n ∈ sizes := by
  unfold nativeSizes? at h
  dsimp only at h
  split at h
  · obtain ⟨rfl, rfl⟩ := Prod.mk.inj (Option.some.inj h)
    rcases List.mem_append.mp hn with hfree | hgroups
    · obtain ⟨arg, harg, rfl⟩ := List.mem_map.mp hfree
      exact .inr (List.of_mem_zip (List.mem_filter.mp harg).1).2
    · obtain ⟨g, -, rfl⟩ := List.mem_map.mp hgroups
      cases hlookup : (codes.zip sizes).lookup (-g) with
      | none => exact .inl rfl
      | some n' =>
        obtain ⟨before, after, hsplit, -⟩ := List.lookup_eq_some_iff.mp hlookup
        have hmem : (-g, n') ∈ codes.zip sizes := by
          rw [hsplit]
          exact List.mem_append_right _ List.mem_cons_self
        exact .inr (List.of_mem_zip hmem).2
  · cases h

/-! ### Words on the stack -/

theorem toNat_ofNat_cell {n : Nat} (h : n < 65536) : (Int16.ofNat n).toUInt16.toNat = n := by
  have hcell : (Int16.ofNat n).toUInt16 = UInt16.ofNat n := rfl
  rw [hcell, UInt16.toNat_ofNat', Nat.mod_eq_of_lt h]

/-- Words that stand for numbers are popped as these. -/
theorem run_popNats {rest : List Cell} : ∀ {ns : List Nat} {m : State}, (∀ n ∈ ns, n < 65536) →
    m.stack = ns.map Int16.ofNat ++ rest → (popNats ns.length).run m = .ok ns { m with stack := rest }
  | [], m, _, hstack => by
    have hrest : m.stack = rest := hstack
    rw [← hrest]
    rfl
  | n :: ns, m, hns, hstack => by
    rw [List.forall_mem_cons] at hns
    have htail : (popNats ns.length).run { m with stack := ns.map Int16.ofNat ++ rest } =
        .ok ns { m with stack := rest } :=
      run_popNats hns.2 rfl
    rw [List.length_cons, popNats, EStateM.run_bind, Exec.run_pop, hstack]
    show EStateM.run (popNats ns.length >>= _) { m with stack := ns.map Int16.ofNat ++ rest } = _
    rw [EStateM.run_bind, htail]
    show EStateM.Result.ok ((Int16.ofNat n).toUInt16.toNat :: ns) _ = _
    rw [toNat_ofNat_cell hns.1]

/-- A call takes the addresses and sizes of its arguments from the stack. -/
theorem run_popCall {m : State} {rest : List Cell} (hlen : codes.length = sizes.length)
    (hsizes : nativeSizes? codes sizes = some (groups, free)) (haddrs : addrs.length = codes.length)
    (hwords : ∀ n ∈ addrs ++ free ++ groups, n < 65536)
    (hstack : m.stack = (addrs ++ free ++ groups.reverse).map Int16.ofNat ++ rest) :
    (popCall codes).run m = .ok (addrs, sizes) { m with stack := rest } := by
  obtain ⟨hgroups, hfree⟩ := Coder.nativeSizes?_length hsizes hlen
  simp only [List.mem_append] at hwords
  rw [List.map_append, List.map_append, List.append_assoc, List.append_assoc] at hstack
  have hfirst := run_popNats (fun n hn => hwords n (.inl (.inl hn))) hstack
  have hsecond := run_popNats (m := { m with stack := free.map Int16.ofNat ++
    (groups.reverse.map Int16.ofNat ++ rest) }) (fun n hn => hwords n (.inl (.inr hn))) rfl
  have hthird := run_popNats (m := { m with stack := groups.reverse.map Int16.ofNat ++ rest })
    (fun n hn => hwords n (.inr (List.mem_reverse.mp hn))) rfl
  rw [haddrs] at hfirst
  rw [hfree] at hsecond
  rw [List.length_reverse, hgroups] at hthird
  unfold popCall
  rw [EStateM.run_bind, hfirst]
  dsimp only
  rw [EStateM.run_bind, hsecond]
  dsimp only
  rw [EStateM.run_bind, hthird]
  dsimp only
  rw [argumentSizes_nativeSizes hlen hsizes]
  rfl

/-- The machine pushes numbers one after another. -/
theorem steps_pushNats {node : Node} : ∀ {ns : List Nat} {m : State},
    (plain (ns.map pushNat)).Stands m.image m.pc → m.stack.length + ns.length ≤ Machine.stackSize →
    Steps node m { m with stack := (ns.reverse.map Int16.ofNat) ++ m.stack,
                          pc := m.pc + size (plain (ns.map pushNat)) }
  | [], m, _, _ => .refl m
  | n :: ns, m, hcode, hroom => by
    rw [List.length_cons] at hroom
    have hcode' : (plain [pushNat n] ++ plain (ns.map pushNat)).Stands m.image m.pc := hcode
    refine .head (hcode'.left.step_immediate (p := 0) (n := Int16.ofNat n) ⟨[], [], rfl, rfl⟩ rfl
      (by omega)) ?_
    have hrest : Steps node _ _ := steps_pushNats
      (m := { m with stack := Int16.ofNat n :: m.stack, pc := m.pc + 0 + (Instr.immediate (Int16.ofNat n)).length })
      hcode'.right (by rw [List.length_cons]; omega)
    have hend : m.pc + size (plain ((n :: ns).map pushNat)) =
        m.pc + 0 + (Instr.immediate (Int16.ofNat n)).length + size (plain (ns.map pushNat)) := by
      show m.pc + ((pushNat n).length + size (plain (ns.map pushNat))) = _
      rw [pushNat]
      omega
    rw [hend, List.reverse_cons, List.map_append, List.append_assoc]
    exact hrest

/-! ### Calls -/

/-- What a function of the firmware does to its arguments. -/
def NativeFunction.perform (f : NativeFunction) (addrs sizes : List Nat) : Exec Unit :=
  match Machine.NativeKind.ofName? f.name with
  | none => throw (.unknownNative f.name)
  | some kind => do
    let word : Nat → Exec Cell ←
      if kind = .fill then do
        let value ← Machine.readArgument f.name addrs 1 0
        pure fun _ => pure value
      else pure (Machine.nativeWord f.name addrs kind)
    Machine.writeNative word (addrs.headD 0) 0 (sizes.headD 0)

theorem callNative_eq {id : Nat} (h : node.nativeFunctions[id]? = some f) :
    Machine.callNative node id = popCall f.args >>= fun call => f.perform call.1 call.2 := by
  unfold Machine.callNative
  rw [h]
  rfl

variable {id : Word}

theorem Node.native?_eq_some (h : node.native? name = some (id, f)) :
    f.name = name ∧ ∃ i, node.nativeFunctions[i]? = some f ∧ id = UInt16.ofNat i := by
  obtain ⟨⟨g, i⟩, hfind, hid⟩ := Option.map_eq_some_iff.mp h
  obtain ⟨rfl, rfl⟩ := Prod.mk.inj hid
  refine ⟨by simpa using List.find?_some hfind, i, ?_, rfl⟩
  exact List.mk_mem_zipIdx_iff_getElem?.mp (List.mem_of_find?_eq_some hfind)

/-- The id of a function is its place among the functions of the node, which its
instruction can hold. -/
theorem Node.native?_id (h : node.native? name = some (id, f)) (hcount : node.nativeFunctions.length ≤ 4096) :
    node.nativeFunctions[id.toNat % 4096]? = some f := by
  obtain ⟨-, i, hi, rfl⟩ := Node.native?_eq_some h
  have hlt : i < node.nativeFunctions.length := (List.getElem?_eq_some_iff.mp hi).1
  rw [Machine.operand_eq (Nat.lt_of_lt_of_le hlt hcount), hi]

/-- Code that pushes an address that is known. -/
def pushAddress (addr : Nat) : Coding Code := return plain [pushNat addr]

theorem lastFirst_pushAddress (s : Coding.State) : ∀ addrs : List Nat,
    lastFirst (addrs.map pushAddress) s = .ok (plain (addrs.reverse.map pushNat), s)
  | [] => rfl
  | addr :: addrs => by
    have htail := lastFirst_pushAddress s addrs
    rw [List.map_cons, lastFirst]
    show (lastFirst (addrs.map pushAddress) s >>= fun x => _) = _
    rw [htail, List.reverse_cons, List.map_append, plain, plain, List.map_append]
    rfl

/-- The code of arguments that are pushed from the last to the first. -/
theorem lastFirst_codes {s s' : Coding.State} : ∀ {args : List (Coding Code)} {k : Code},
    lastFirst args s = .ok (k, s') →
    ∃ codes, List.Forall₂ Coding.Gives args codes ∧ k = codes.reverse.flatten
  | [], k, h => by
    cases h
    exact ⟨[], .nil, rfl⟩
  | x :: xs, k, h => by
    obtain ⟨⟨rest, s1⟩, hrest, h⟩ := bind_eq_ok.mp h
    obtain ⟨⟨first, s2⟩, hfirst, h⟩ := bind_eq_ok.mp h
    cases h
    obtain ⟨codes, hcodes, rfl⟩ := lastFirst_codes hrest
    exact ⟨first :: codes, .cons ⟨_, _, hfirst⟩ hcodes, by simp⟩

/-- A call is generated if the sizes fit the signature of the function and the
code of its arguments is. -/
theorem Coder.callNative_eq_ok {c : Coder} (hnative : c.node.native? name = some (id, f))
    {args : List (Coding Code)} {span : Span} {s s' : Coding.State} {k : Code} :
    c.callNative name args sizes span s = .ok (k, s') ↔
      f.args.length = sizes.length ∧ ∃ groups free addresses,
        nativeSizes? f.args sizes = some (groups, free) ∧ lastFirst args s = .ok (addresses, s') ∧
        k = plain ((groups ++ free.reverse).map pushNat) ++ addresses ++ plain [.callNative id] := by
  unfold Coder.callNative
  rw [hnative]
  dsimp only
  by_cases hlen : f.args.length = sizes.length
  · rw [if_neg (not_not_intro hlen)]
    cases hsizes : nativeSizes? f.args sizes with
    | none =>
      constructor
      · rintro ⟨⟩
      · rintro ⟨-, _, _, _, ⟨⟩, -⟩
    | some sizes' =>
      obtain ⟨groups, free⟩ := sizes'
      dsimp only
      rw [← List.map_append]
      constructor
      · intro h
        obtain ⟨⟨addresses, s1⟩, haddresses, h⟩ := bind_eq_ok.mp h
        obtain ⟨rfl, rfl⟩ := Prod.mk.inj (Except.ok.inj h)
        exact ⟨hlen, groups, free, addresses, rfl, haddresses, rfl⟩
      · rintro ⟨-, groups', free', addresses, hsome, haddresses, rfl⟩
        obtain ⟨rfl, rfl⟩ := Prod.mk.inj (Option.some.inj hsome)
        exact bind_eq_ok.mpr ⟨_, haddresses, rfl⟩
  · rw [if_pos hlen]
    exact ⟨by rintro ⟨⟩, fun h => absurd h.1 hlen⟩

theorem Coder.callNative_eq_ok_iff {c : Coder} (hnative : c.node.native? name = some (id, f)) {span : Span}
    {s s' : Coding.State} {k : Code} :
    c.callNative name (addrs.map pushAddress) sizes span s = .ok (k, s') ↔
      f.args.length = sizes.length ∧ s' = s ∧ ∃ groups free,
        nativeSizes? f.args sizes = some (groups, free) ∧
        k = plain ((groups ++ free.reverse ++ addrs.reverse).map pushNat) ++ plain [.callNative id] := by
  rw [callNative_eq_ok hnative]
  refine and_congr_right fun _ => ?_
  constructor
  · rintro ⟨groups, free, addresses, hsizes, haddresses, rfl⟩
    obtain ⟨rfl, rfl⟩ := Prod.mk.inj (Except.ok.inj ((lastFirst_pushAddress s addrs).symm.trans haddresses))
    exact ⟨rfl, groups, free, hsizes, by simp only [plain, List.map_append]⟩
  · rintro ⟨rfl, groups, free, hsizes, rfl⟩
    exact ⟨groups, free, _, hsizes, lastFirst_pushAddress _ addrs, by simp only [plain, List.map_append]⟩

section Called

variable (hargs : f.args.length = sizes.length) (hsizes : nativeSizes? f.args sizes = some (groups, free))
  (haddrs : addrs.length = f.args.length)

include hargs hsizes haddrs

theorem words_eq_length : (addrs ++ free ++ groups.reverse).length = f.words := by
  obtain ⟨hgroups, hfree⟩ := Coder.nativeSizes?_length hsizes hargs
  simp only [List.length_append, List.length_reverse, NativeFunction.words]
  omega

/-- A function finds the words that its call takes on the stack. -/
theorem run_native {m : State} {rest : List Cell} (hid : node.nativeFunctions[id.toNat % 4096]? = some f)
    (hwords : ∀ n ∈ addrs ++ sizes, n < 65536) (hcall : ∃ held, (Instr.callNative id).Stands held m.image m.pc)
    (hstack : m.stack = (addrs ++ free ++ groups.reverse).map Int16.ofNat ++ rest) :
    (popCall f.args).run m = .ok (addrs, sizes) { m with stack := rest } ∧
      (Machine.step node).run m =
        (do f.perform addrs sizes; Exec.advance 1; pure true : Exec Bool).run { m with stack := rest } := by
  have hfits : ∀ n ∈ addrs ++ free ++ groups, n < 65536 := by
    intro n hn
    rw [List.append_assoc] at hn
    rcases List.mem_append.mp hn with haddr | hsize
    · exact hwords n (List.mem_append_left _ haddr)
    · rcases nativeSizes?_mem hsizes hsize with rfl | hsize
      · decide
      · exact hwords n (List.mem_append_right _ hsize)
  have hpop := run_popCall hargs hsizes haddrs hfits hstack
  obtain ⟨held, hcall⟩ := hcall
  refine ⟨hpop, ?_⟩
  rw [Instr.Stands.step _ hcall, Instr.run, callNative_eq hid, bind_assoc, EStateM.run_bind, hpop]

/-- The machine pushes the words that a call takes and comes to the call, which
works on the machine as it was before. -/
theorem steps_native {m : State} (hid : node.nativeFunctions[id.toNat % 4096]? = some f)
    (hwords : ∀ n ∈ addrs ++ sizes, n < 65536)
    (hcode : (plain ((groups ++ free.reverse ++ addrs.reverse).map pushNat) ++
      plain [.callNative id]).Stands m.image m.pc)
    (hroom : m.stack.length + f.words ≤ Machine.stackSize) :
    ∃ (pushed : List Cell) (pc : Nat), pushed.length = f.words ∧
      Steps node m { m with stack := pushed ++ m.stack, pc } ∧
      pc + 1 = m.pc + size (plain ((groups ++ free.reverse ++ addrs.reverse).map pushNat) ++
        plain [.callNative id]) ∧
      (popCall f.args).run { m with stack := pushed ++ m.stack, pc } = .ok (addrs, sizes) { m with pc } ∧
      (Machine.step node).run { m with stack := pushed ++ m.stack, pc } =
        (do f.perform addrs sizes; Exec.advance 1; pure true : Exec Bool).run { m with pc } := by
  have hlength := words_eq_length hargs hsizes haddrs
  have hpushed : (groups ++ free.reverse ++ addrs.reverse).reverse = addrs ++ free ++ groups.reverse := by
    simp
  rw [← hlength, ← hpushed, List.length_reverse] at hroom
  have hsteps : Steps node m _ := steps_pushNats hcode.left hroom
  rw [hpushed] at hsteps
  refine ⟨_, _, ?_, hsteps, ?_, ?_⟩
  · rw [List.length_map, hlength]
  · rw [Code.size_append]
    rfl
  · exact run_native (m := { m with stack := _, pc := _ }) hargs hsizes haddrs hid hwords hcode.right.instr rfl

end Called

/-- In code `W` at the address `base` the machine runs the code of arguments from
the last to the first, each of which leaves an address on the stack. -/
inductive Pushed (node : Node) (base : Nat) (W : Code) : List Code → List Nat → State → State → Prop
  | nil {m : State} : Pushed node base W [] [] m m
  | cons {k : Code} {ks : List Code} {a : Nat} {addrs : List Nat} {m m1 m2 : State}
    (hrest : Pushed node base W ks addrs m m1) (hpass : Passes node base W (size k) m1 m2)
    (hstack : m2.stack = Int16.ofNat a :: m1.stack) : Pushed node base W (k :: ks) (a :: addrs) m m2

theorem Pushed.left {base : Nat} {W : Code} {ks : List Code} {m m' : State}
    (h : Pushed node base W ks addrs m m') (hW : W.Stands m.image base) :
    W.Stands m'.image base ∧ m'.stack = addrs.map Int16.ofNat ++ m.stack ∧ addrs.length = ks.length ∧
      m'.pc = m.pc + size ks.reverse.flatten := by
  induction h with
  | nil => exact ⟨hW, rfl, rfl, rfl⟩
  | cons _ hpass hstack ih =>
    obtain ⟨-, hstack', hlen, hpc⟩ := ih hW
    refine ⟨hpass.code, by rw [hstack, hstack']; rfl, congrArg Nat.succ hlen, ?_⟩
    rw [hpass.pc, hpc, List.reverse_cons, List.flatten_append, Code.size_append, List.flatten_singleton,
      Nat.add_assoc]

/-- A call of a firmware function is generated just if the sizes of its arguments
fit its signature. The machine then pushes the words that the call takes and
comes to the call. The function finds among them the addresses of its arguments
and the sizes of all of them, in the order of its signature, and has the stack as
it was before. Arguments that are places, or have other code of their own, leave
their addresses while they are pushed: the function finds these. -/
theorem native_call_layout {c : Coder} {name : String} {id : Word} {f : NativeFunction}
    (hnative : c.node.native? name = some (id, f)) (hcount : c.node.nativeFunctions.length ≤ 4096)
    (addrs sizes : List Nat) (hlen : addrs.length = sizes.length)
    (hwords : ∀ n ∈ addrs ++ sizes, n < 65536) (span : Span) (s : Coding.State) :
    ((∃ k s', c.callNative name (addrs.map pushAddress) sizes span s = .ok (k, s')) ↔ f.Admits sizes) ∧
    (∀ k s', c.callNative name (addrs.map pushAddress) sizes span s = .ok (k, s') →
      ∀ m : State, k.Stands m.image m.pc → m.stack.length + f.words ≤ Machine.stackSize →
        ∃ (pushed : List Cell) (m' : State), pushed.length = f.words ∧ Steps c.node m m' ∧
          m' = { m with stack := pushed ++ m.stack, pc := m'.pc } ∧ m'.pc + 1 = m.pc + size k ∧
          (popCall f.args).run m' = .ok (addrs, sizes) { m' with stack := m.stack } ∧
          (Machine.step c.node).run m' =
            (do f.perform addrs sizes; Exec.advance 1; pure true : Exec Bool).run
              { m' with stack := m.stack }) ∧
    ∀ args k s', args.length = sizes.length → c.callNative name args sizes span s = .ok (k, s') →
      f.Admits sizes ∧ ∃ codes, List.Forall₂ Coding.Gives args codes ∧
        ∀ m : State, k.Stands m.image m.pc → m.stack.length + f.words ≤ Machine.stackSize →
          ∃ m₁ : State, Steps c.node m m₁ ∧ m₁ = { m with stack := m₁.stack, pc := m₁.pc } ∧
            ∀ addrs' m₂, (∀ n ∈ addrs', n < 65536) → Pushed c.node m.pc k codes addrs' m₁ m₂ →
              m₂.stack.length = m.stack.length + f.words ∧ m₂.pc + 1 = m.pc + size k ∧
              (popCall f.args).run m₂ = .ok (addrs', sizes) { m₂ with stack := m.stack } ∧
              (Machine.step c.node).run m₂ =
                (do f.perform addrs' sizes; Exec.advance 1; pure true : Exec Bool).run
                  { m₂ with stack := m.stack } := by
  refine ⟨?_, fun k s' hk m hcode hroom => ?_, fun args k s' hlen' hk => ?_⟩
  · rw [NativeFunction.admits_iff, Option.isSome_iff_exists]
    constructor
    · rintro ⟨k, s', hk⟩
      obtain ⟨hargs, -, groups, free, hsizes, -⟩ := (Coder.callNative_eq_ok_iff hnative).mp hk
      exact ⟨hargs, _, hsizes⟩
    · rintro ⟨hargs, ⟨groups, free⟩, hsizes⟩
      exact ⟨_, s, (Coder.callNative_eq_ok_iff hnative).mpr ⟨hargs, rfl, groups, free, hsizes, rfl⟩⟩
  · obtain ⟨hargs, -, groups, free, hsizes, rfl⟩ := (Coder.callNative_eq_ok_iff hnative).mp hk
    obtain ⟨pushed, pc, hpushed, hsteps, hpc, hpop, hstep⟩ := steps_native hargs hsizes
      (hlen.trans hargs.symm) (Node.native?_id hnative hcount) hwords hcode hroom
    exact ⟨pushed, _, hpushed, hsteps, rfl, hpc, hpop, hstep⟩
  · obtain ⟨hargs, groups, free, addresses, hsizes, haddresses, rfl⟩ := (Coder.callNative_eq_ok hnative).mp hk
    obtain ⟨codes, hcodes, rfl⟩ := lastFirst_codes haddresses
    refine ⟨NativeFunction.admits_iff.mpr ⟨hargs, Option.isSome_of_mem hsizes⟩, codes, hcodes,
      fun m hcode hroom => ?_⟩
    have hfront : (groups ++ free.reverse).length ≤ f.words := by
      obtain ⟨hgroups, hfree⟩ := Coder.nativeSizes?_length hsizes hargs
      rw [List.length_append, List.length_reverse, NativeFunction.words]
      omega
    refine ⟨_, steps_pushNats hcode.left.left (by omega), rfl, fun addrs' m₂ haddrs hpushed => ?_⟩
    obtain ⟨hW, hstack, hcount', hpc⟩ := hpushed.left hcode
    have hstack' : m₂.stack = (addrs' ++ free ++ groups.reverse).map Int16.ofNat ++ m.stack := by
      rw [hstack]
      simp
    have hlen'' : addrs'.length = f.args.length := by
      rw [hcount', ← hcodes.length_eq, hlen', hargs]
    have hpc' : m₂.pc = m.pc +
        size (plain ((groups ++ free.reverse).map pushNat) ++ codes.reverse.flatten) := by
      rw [hpc, Code.size_append, ← Nat.add_assoc]
    have hcall := hW.right.instr
    rw [← hpc'] at hcall
    refine ⟨?_, ?_, run_native hargs hsizes hlen'' (Node.native?_id hnative hcount) ?_ hcall hstack'⟩
    · rw [hstack', List.length_append, List.length_map, words_eq_length hargs hsizes hlen'', Nat.add_comm]
    · rw [hpc', Code.size_append _ (plain _)]
      rfl
    · intro n hn
      rcases List.mem_append.mp hn with haddr | hsize
      · exact haddrs n haddr
      · exact hwords n (List.mem_append_right _ hsize)

/-- A signature with two groups, of which the second comes first, two arguments
with a size of their own and a fixed size. -/
theorem native_call_layout_mixed :
    ∃ (c : Coder) (id : Word) (f : NativeFunction) (k : Code) (m m' : State),
      c.node.native? "mix" = some (id, f) ∧ f.args = [0, -2, 3, -1, -2, 0] ∧ f.Admits [5, 4, 3, 7, 4, 9] ∧
      (c.callNative "mix" ([10, 20, 30, 40, 50, 60].map pushAddress) [5, 4, 3, 7, 4, 9] default).Gives k ∧
      k.Stands m.image m.pc ∧ Steps c.node m m' ∧ m'.stack.length = m.stack.length + 10 ∧
      (popCall f.args).run m' =
        .ok ([10, 20, 30, 40, 50, 60], [5, 4, 3, 7, 4, 9]) { m' with stack := m.stack } := by
  let f : NativeFunction := ⟨"mix", [0, -2, 3, -1, -2, 0]⟩
  let node : Node := ⟨"", 80, [], [], [⟨"other", []⟩, f]⟩
  let c : Coder := ⟨node, ⟨.l2, 1, []⟩, 1, none, .stop⟩
  have hnative : c.node.native? "mix" = some (1, f) := by decide +kernel
  have hadmits : f.Admits [5, 4, 3, 7, 4, 9] := NativeFunction.admits_iff.mpr (by decide +kernel)
  have hwords' : f.words = 10 := by decide +kernel
  obtain ⟨hok, hcall, -⟩ := native_call_layout hnative (by decide) [10, 20, 30, 40, 50, 60] [5, 4, 3, 7, 4, 9]
    rfl (by decide) default ⟨0, default⟩
  obtain ⟨k, s', hk⟩ := hok.mpr hadmits
  obtain ⟨pushed, m', hpushed, hsteps, hm', -, hpop, -⟩ := hcall k s' hk (.start node k.words)
    k.stands_words (by rw [hwords']; exact Nat.le_of_ble_eq_true rfl)
  refine ⟨c, 1, f, k, .start node k.words, m', hnative, rfl, hadmits, ⟨_, s', hk⟩, k.stands_words, hsteps,
    ?_, hpop⟩
  rw [hm', List.length_append, hpushed, hwords']
  exact Nat.add_comm _ _

end RobotScript
