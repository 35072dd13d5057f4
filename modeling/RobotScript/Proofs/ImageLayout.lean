/-
# Where linking puts everything

Linking goes over the routines twice: it gives out addresses first and fills
in the calls then. Both passes add up the same lengths, so a routine stands
where its callers and its entry in the table say, and what the machine and the
listing read from the table is what was entered. Linking refuses a program for
four reasons only.

Key definitions: `Image.base`, `Image.addresses`, `Image.Exact`, `Image.Refused`.
Key theorems: `Image.place_eq_ok`, `Image.layOut_eq_ok`, `linking_exact`.
-/
import RobotScript.Proofs.ImageShape
import RobotScript.Proofs.StackSafety

namespace RobotScript

open Machine (Opcode State eventTable)

namespace Entry

/-- The id of the event that a routine entered so handles. -/
def eventId? (node : Node) : Entry → Option Word
  | init => some Node.initEventId
  | event name => node.localEventId? name
  | call _ => none

/-- The name that a routine entered so is called by. -/
def callName? : Entry → Option String
  | call name => some name
  | init | event _ => none

theorem callName?_eq_some {e : Entry} {name : String} : e.callName? = some name ↔ e = .call name := by
  cases e <;> simp [callName?]

end Entry

theorem Node.localEventId?_eq_none {node : Node} {name : String} :
    node.localEventId? name = none ↔ name ∉ node.localEvents := by
  unfold localEventId?
  rw [Option.map_eq_none_iff, List.findIdx?_eq_none_iff]
  constructor
  · intro h hmem
    simpa using h name hmem
  · intro h event hmem
    exact beq_eq_false_iff_ne.mpr fun heq => h (heq ▸ hmem)

namespace Image

/-! ### Keys and their addresses -/

section Addresses

variable {κ : Type} {key : Entry → Option κ}

/-- Routines one behind another, each with the address where it starts. -/
def placedFrom (base : Nat) (units : List ObjectCode) : List (Nat × ObjectCode) :=
  units.zipIdx.map fun u => (base + extent (units.take u.2), u.1)

@[simp] theorem placedFrom_nil (base : Nat) : placedFrom base [] = [] := rfl

@[simp] theorem placedFrom_cons (base : Nat) (u : ObjectCode) (us : List ObjectCode) :
    placedFrom base (u :: us) = (base, u) :: placedFrom (base + u.words.length) us := by
  unfold placedFrom
  rw [List.zipIdx_cons, List.zipIdx_succ, List.map_cons, List.map_map]
  congr 1
  refine List.map_congr_left fun v _ => ?_
  simp only [Function.comp_apply, List.take_succ_cons, extent_cons, Nat.add_assoc]

variable {units : List ObjectCode} {u : ObjectCode}

theorem mem_placedFrom {base addr : Nat} :
    (addr, u) ∈ placedFrom base units ↔
      ∃ i, units[i]? = some u ∧ addr = base + extent (units.take i) := by
  unfold placedFrom
  rw [List.mem_map]
  constructor
  · rintro ⟨⟨v, i⟩, hmem, heq⟩
    obtain ⟨rfl, rfl⟩ := Prod.mk.inj heq
    exact ⟨i, List.mem_zipIdx_iff_getElem?.mp hmem, rfl⟩
  · rintro ⟨i, hi, rfl⟩
    exact ⟨(u, i), List.mem_zipIdx_iff_getElem?.mpr hi, rfl⟩

/-- The keys of routines that have one, each with the address of its routine. -/
def addresses (key : Entry → Option κ) (base : Nat) (units : List ObjectCode) : List (κ × Nat) :=
  (placedFrom base units).filterMap fun p => (key p.2.entry).map (·, p.1)

@[simp] theorem addresses_nil (base : Nat) : addresses key base [] = [] := rfl

theorem addresses_cons_some {base : Nat} {k : κ} (us : List ObjectCode) (h : key u.entry = some k) :
    addresses key base (u :: us) = (k, base) :: addresses key (base + u.words.length) us := by
  unfold addresses
  rw [placedFrom_cons, List.filterMap_cons_some (by rw [h, Option.map_some])]

theorem addresses_cons_none {base : Nat} (us : List ObjectCode) (h : key u.entry = none) :
    addresses key base (u :: us) = addresses key (base + u.words.length) us := by
  unfold addresses
  rw [placedFrom_cons, List.filterMap_cons_none (by rw [h, Option.map_none])]

/-- The keys themselves do not depend on where the routines stand. -/
theorem keys_addresses (base : Nat) (units : List ObjectCode) :
    (addresses key base units).map Prod.fst = units.filterMap (key ·.entry) := by
  induction units generalizing base with
  | nil => rfl
  | cons u us ih =>
    cases hkey : key u.entry with
    | none => rw [addresses_cons_none us hkey, ih, List.filterMap_cons, hkey]
    | some k => rw [addresses_cons_some us hkey, List.map_cons, ih, List.filterMap_cons, hkey]

theorem mem_addresses {base addr : Nat} {k : κ} :
    (k, addr) ∈ addresses key base units ↔
      ∃ i u, units[i]? = some u ∧ key u.entry = some k ∧ addr = base + extent (units.take i) := by
  unfold addresses
  rw [List.mem_filterMap]
  constructor
  · rintro ⟨⟨a, u⟩, hmem, hkey⟩
    obtain ⟨k', hk', heq⟩ := Option.map_eq_some_iff.mp hkey
    obtain ⟨rfl, rfl⟩ := Prod.mk.inj heq
    obtain ⟨i, hi, ha⟩ := mem_placedFrom.mp hmem
    exact ⟨i, u, hi, hk', ha⟩
  · rintro ⟨i, u, hi, hkey, ha⟩
    exact ⟨(addr, u), mem_placedFrom.mpr ⟨i, hi, ha⟩, by rw [hkey, Option.map_some]⟩

/-- Two routines with one key. -/
def Clash (key : Entry → Option κ) (units : List ObjectCode) : Prop :=
  ∃ (i j : Nat) (u v : ObjectCode) (k : κ), i < j ∧ units[i]? = some u ∧ units[j]? = some v ∧
    key u.entry = some k ∧ key v.entry = some k

theorem nodup_keys_iff : (units.filterMap (key ·.entry)).Nodup ↔ ¬ Clash key units := by
  induction units with
  | nil => simp [Clash]
  | cons u us ih =>
    have hcons : Clash key (u :: us) ↔
        (∃ v ∈ us, ∃ k, key u.entry = some k ∧ key v.entry = some k) ∨ Clash key us := by
      constructor
      · rintro ⟨i, j, v, w, k, hlt, hi, hj, hv, hw⟩
        obtain ⟨j, rfl⟩ := Nat.exists_eq_succ_of_ne_zero (Nat.ne_of_gt (Nat.zero_lt_of_lt hlt))
        cases i with
        | zero =>
          obtain rfl : u = v := by simpa using hi
          exact .inl ⟨w, List.mem_of_getElem? hj, k, hv, hw⟩
        | succ i => exact .inr ⟨i, j, v, w, k, Nat.lt_of_succ_lt_succ hlt, hi, hj, hv, hw⟩
      · rintro (⟨v, hmem, k, hu, hv⟩ | ⟨i, j, v, w, k, hlt, hi, hj, hv, hw⟩)
        · obtain ⟨j, hj⟩ := List.mem_iff_getElem?.mp hmem
          exact ⟨0, j + 1, u, v, k, Nat.succ_pos j, rfl, hj, hu, hv⟩
        · exact ⟨i + 1, j + 1, v, w, k, Nat.succ_lt_succ hlt, hi, hj, hv, hw⟩
    rw [hcons, not_or, ← ih]
    rw [List.filterMap_cons]
    cases hkey : key u.entry with
    | none => simp
    | some k => simp [List.nodup_cons]

/-- Of routines with different keys, one key leads to one routine. -/
theorem unique_of_not_clash (h : ¬ Clash key units) {i j : Nat} {v : ObjectCode} {k : κ}
    (hi : units[i]? = some u) (hj : units[j]? = some v) (hu : key u.entry = some k)
    (hv : key v.entry = some k) : i = j := by
  rcases Nat.lt_trichotomy i j with hlt | heq | hlt
  · exact absurd ⟨i, j, u, v, k, hlt, hi, hj, hu, hv⟩ h
  · exact heq
  · exact absurd ⟨j, i, v, u, k, hlt, hj, hi, hv, hu⟩ h

end Addresses

/-- Of entries with different keys, the one found is the one there is. -/
theorem lookup_eq_some_iff_mem {κ ν : Type} [BEq κ] [LawfulBEq κ] {k : κ} {v : ν} :
    ∀ {l : List (κ × ν)}, (l.map Prod.fst).Nodup → (l.lookup k = some v ↔ (k, v) ∈ l)
  | [], _ => by simp
  | (k', v') :: l, h => by
    obtain ⟨hnew, hrest⟩ := List.nodup_cons.mp h
    rw [List.lookup_cons, List.mem_cons, Prod.mk.injEq]
    by_cases hk : k = k'
    · subst hk
      have hout : (k, v) ∉ l := fun hmem => hnew (List.mem_map.mpr ⟨(k, v), hmem, rfl⟩)
      simp [hout, eq_comm]
    · rw [beq_eq_false_iff_ne.mpr hk]
      simp [hk, lookup_eq_some_iff_mem hrest]

theorem lookup_eq_none_iff_key {κ ν : Type} [BEq κ] [LawfulBEq κ] {k : κ} {l : List (κ × ν)} :
    l.lookup k = none ↔ k ∉ l.map Prod.fst := by
  rw [List.lookup_eq_none_iff, List.mem_map]
  constructor
  · rintro h ⟨p, hp, rfl⟩
    simpa using h p hp
  · intro h p hp
    exact bne_iff_ne.mpr fun heq => h ⟨p, hp, heq.symm⟩

/-! ### The first pass: addresses -/

theorem handler_eq_ok {p q : Placing} {next : Nat} {id : Word} {name : String} {span : Span} :
    p.handler next id name span = .ok q ↔
      id ∉ p.handlers.map Prod.fst ∧ q = ⟨next, p.callable, p.handlers ++ [(id, p.next)]⟩ := by
  unfold Placing.handler
  rw [← lookup_eq_none_iff_key]
  cases p.handlers.lookup id with
  | none => simp [pure, Except.pure, eq_comm]
  | some addr => simp [semantic]

variable {u : ObjectCode} {callable : List (String × Nat)} {sites : List CallSite}

/-- Placing a routine, exactly: it must fit, and it is entered by its event or
by its name, which must be new. -/
theorem unit_eq_ok {node : Node} {p q : Placing} :
    Placing.unit node p u = .ok q ↔ p.next + u.words.length ≤ maxSize ∧
      ((∃ id, u.entry.eventId? node = some id ∧ id ∉ p.handlers.map Prod.fst ∧
          q = ⟨p.next + u.words.length, p.callable, p.handlers ++ [(id, p.next)]⟩) ∨
        ∃ name, u.entry.callName? = some name ∧ name ∉ p.callable.map Prod.fst ∧
          q = ⟨p.next + u.words.length, p.callable ++ [(name, p.next)], p.handlers⟩) := by
  unfold Placing.unit
  dsimp only
  by_cases hfits : maxSize < p.next + u.words.length
  · rw [if_pos hfits]
    simp [semantic, Nat.not_le.mpr hfits]
  · rw [if_neg hfits]
    have hfits := Nat.le_of_not_lt hfits
    cases u.entry with
    | init => simp [handler_eq_ok, Entry.eventId?, Entry.callName?, hfits]
    | event name =>
      cases hid : node.localEventId? name with
      | none => simp [Entry.eventId?, Entry.callName?, hid, semantic]
      | some id => simp [handler_eq_ok, Entry.eventId?, Entry.callName?, hid, hfits]
    | call name =>
      have hnew : name ∉ p.callable.map Prod.fst ↔ p.callable.lookup name = none :=
        lookup_eq_none_iff_key.symm
      simp only [Entry.eventId?, Entry.callName?, Option.some.injEq, exists_eq_left', hnew]
      cases p.callable.lookup name with
      | none => simp [pure, Except.pure, hfits, eq_comm]
      | some addr => simp [semantic]

/-- The entry is that of a routine to call or of an event of the node. -/
def Known (node : Node) (u : ObjectCode) : Prop :=
  (u.entry.eventId? node).isSome ∨ u.entry.callName?.isSome

theorem known_iff {node : Node} : Known node u ↔ ∀ name, u.entry = .event name → name ∈ node.localEvents := by
  unfold Known
  cases hentry : u.entry with
  | init => simp [Entry.eventId?]
  | call name => simp [Entry.callName?]
  | event name =>
    have hnone : node.localEventId? name = none ↔ name ∉ node.localEvents :=
      Node.localEventId?_eq_none
    cases hid : node.localEventId? name with
    | none => simpa [Entry.eventId?, Entry.callName?, hid] using hnone.mp hid
    | some id =>
      have hmem : name ∈ node.localEvents := by
        rw [← Decidable.not_not (p := name ∈ _), ← hnone, hid]
        nofun
      simp [Entry.eventId?, hid, hmem]

theorem eventId?_of_callName? {node : Node} {e : Entry} {name : String} (h : e.callName? = some name) :
    e.eventId? node = none := by
  rw [Entry.callName?_eq_some.mp h, Entry.eventId?]

/-- The condition on the lengths, one routine at a time. -/
theorem fits_cons {next : Nat} {us : List ObjectCode} :
    (u :: us = [] ∨ next + extent (u :: us) ≤ maxSize) ↔
      next + u.words.length ≤ maxSize ∧ (us = [] ∨ next + u.words.length + extent us ≤ maxSize) := by
  rw [extent_cons, Nat.add_assoc]
  cases us with
  | nil => simp
  | cons v vs =>
    simp only [reduceCtorEq, false_or]
    omega

/-- Keys stay different with one more if it is new. -/
theorem nodup_keys_snoc {κ : Type} {l : List (κ × Nat)} {k : κ} {addr : Nat} :
    ((l ++ [(k, addr)]).map Prod.fst).Nodup ↔ k ∉ l.map Prod.fst ∧ (l.map Prod.fst).Nodup := by
  rw [List.map_append, List.nodup_append]
  constructor
  · rintro ⟨hl, -, hne⟩
    exact ⟨fun hmem => hne k hmem k List.mem_cons_self rfl, hl⟩
  · rintro ⟨hnew, hl⟩
    refine ⟨hl, by simp, fun a ha b hb heq => hnew ?_⟩
    obtain rfl : b = k := List.mem_singleton.mp hb
    rwa [← heq]

/-- Placing all routines, exactly: it ends in the placing that has all of them,
and does so if they fit, are known and have different keys. -/
theorem place_eq_ok {node : Node} : ∀ {units : List ObjectCode} {p q : Placing},
    units.foldlM (Placing.unit node) p = .ok q ∧
        (p.handlers.map Prod.fst).Nodup ∧ (p.callable.map Prod.fst).Nodup ↔
      (units = [] ∨ p.next + extent units ≤ maxSize) ∧ (∀ u ∈ units, Known node u) ∧
      q = ⟨p.next + extent units, p.callable ++ addresses Entry.callName? p.next units,
        p.handlers ++ addresses (Entry.eventId? node) p.next units⟩ ∧
      (q.handlers.map Prod.fst).Nodup ∧ (q.callable.map Prod.fst).Nodup
  | [], p, q => by
    have hp : Placing.mk (p.next + extent []) (p.callable ++ []) (p.handlers ++ []) = p := by
      rw [extent_nil, Nat.add_zero, List.append_nil, List.append_nil]
    rw [List.foldlM_nil, addresses_nil, addresses_nil, hp]
    constructor
    · rintro ⟨heq, hkeys⟩
      obtain rfl : p = q := Except.ok.inj heq
      exact ⟨.inl rfl, by simp, rfl, hkeys⟩
    · rintro ⟨-, -, rfl, hkeys⟩
      exact ⟨rfl, hkeys⟩
  | u :: us, p, q => by
    rw [List.foldlM_cons, bind_eq_ok, fits_cons, List.forall_mem_cons]
    simp only [unit_eq_ok]
    cases hcall : u.entry.callName? with
    | some name =>
      have hevent : u.entry.eventId? node = none := eventId?_of_callName? hcall
      have hknown : Known node u := .inr (by rw [hcall]; rfl)
      have hrest := @place_eq_ok node us
        ⟨p.next + u.words.length, p.callable ++ [(name, p.next)], p.handlers⟩ q
      rw [nodup_keys_snoc] at hrest
      rw [addresses_cons_some us hcall, addresses_cons_none us hevent, extent_cons]
      -- What is left on both sides is the same up to the order of the conditions.
      simp only [hevent, hknown, List.append_assoc, List.singleton_append, Nat.add_assoc] at hrest ⊢
      grind
    | none =>
      cases hevent : u.entry.eventId? node with
      | some id =>
        have hknown : Known node u := .inl (by rw [hevent]; rfl)
        have hrest := @place_eq_ok node us
          ⟨p.next + u.words.length, p.callable, p.handlers ++ [(id, p.next)]⟩ q
        rw [nodup_keys_snoc] at hrest
        rw [addresses_cons_none us hcall, addresses_cons_some us hevent, extent_cons]
        simp only [hknown, List.append_assoc, List.singleton_append, Nat.add_assoc] at hrest ⊢
        grind
      | none => simp [Known, hcall, hevent]

/-! ### The second pass: calls -/

theorem resolveCalls_ok_iff (words : List Word) :
    (∃ ws, resolveCalls callable sites words = .ok ws) ↔
      ∀ site ∈ sites, site.name ∈ callable.map Prod.fst := by
  induction sites generalizing words with
  | nil => simp [resolveCalls, pure, Except.pure]
  | cons site sites ih =>
    rw [resolveCalls, List.forall_mem_cons]
    cases hname : callable.lookup site.name with
    | none => simp [semantic, lookup_eq_none_iff_key.mp hname]
    | some addr =>
      have hmem : site.name ∈ callable.map Prod.fst := by
        rw [← Decidable.not_not (p := _ ∈ _), ← lookup_eq_none_iff_key, hname]
        rintro ⟨⟩
      simp only [hmem, true_and]
      exact ih _

/-- Filling in calls changes the words at the calls only. -/
theorem resolveCalls_eq_ok {words ws : List Word} (h : resolveCalls callable sites words = .ok ws) :
    ws.length = words.length ∧ ∀ k, (∀ site ∈ sites, site.addr ≠ k) → ws[k]? = words[k]? := by
  induction sites generalizing words with
  | nil =>
    obtain rfl : words = ws := Except.ok.inj h
    exact ⟨rfl, fun _ _ => rfl⟩
  | cons site sites ih =>
    rw [resolveCalls] at h
    cases hname : callable.lookup site.name with
    | none => simp [hname, semantic] at h
    | some addr =>
      rw [hname] at h
      obtain ⟨hlength, hother⟩ := ih h
      refine ⟨by rw [hlength, List.length_set], fun k hk => ?_⟩
      obtain ⟨hne, hrest⟩ := List.forall_mem_cons.mp hk
      rw [hother k hrest, List.getElem?_set_ne hne]

/-- A call is filled in with the address of its routine, and no other call is
written over it. -/
theorem resolveCalls_at {words ws : List Word} (h : resolveCalls callable sites words = .ok ws)
    (hdistinct : (sites.map (·.addr)).Nodup) {site : CallSite} (hsite : site ∈ sites)
    (hlt : site.addr < words.length) :
    ∃ addr, callable.lookup site.name = some addr ∧
      ws[site.addr]? = some (Opcode.subCall.word addr) := by
  induction sites generalizing words with
  | nil => cases hsite
  | cons first sites ih =>
    rw [List.map_cons, List.nodup_cons] at hdistinct
    rw [resolveCalls] at h
    cases hname : callable.lookup first.name with
    | none => simp [hname, semantic] at h
    | some addr =>
      rw [hname] at h
      rcases List.mem_cons.mp hsite with rfl | hsite
      · refine ⟨addr, hname, ?_⟩
        have hrest : ∀ other ∈ sites, other.addr ≠ site.addr := fun other hother heq =>
          hdistinct.1 (List.mem_map.mpr ⟨other, hother, heq⟩)
        rw [(resolveCalls_eq_ok h).2 _ hrest, List.getElem?_set_self hlt]
      · exact ih h hdistinct.2 hsite (by rwa [List.length_set])

theorem layOut_ok_iff {units : List ObjectCode} (base : Nat) :
    (∃ code, layOut callable base units = .ok code) ↔
      ∀ u ∈ units, ∀ site ∈ u.calls, site.name ∈ callable.map Prod.fst := by
  induction units generalizing base with
  | nil => simp [layOut, pure, Except.pure]
  | cons u us ih =>
    rw [List.forall_mem_cons, ← resolveCalls_ok_iff u.words, ← ih (base + u.words.length)]
    constructor
    · rintro ⟨code, hcode⟩
      obtain ⟨ws, hws, hcode⟩ := bind_eq_ok.mp hcode
      obtain ⟨rest, hrest, -⟩ := bind_eq_ok.mp hcode
      exact ⟨⟨ws, hws⟩, ⟨rest, hrest⟩⟩
    · rintro ⟨⟨ws, hws⟩, ⟨rest, hrest⟩⟩
      exact ⟨_, bind_eq_ok.mpr ⟨ws, hws, bind_eq_ok.mpr ⟨rest, hrest, rfl⟩⟩⟩

/-- The code of routines one behind another: each has its own words with its
calls filled in. -/
theorem layOut_eq_ok {base : Nat} {units : List ObjectCode} {code : Image}
    (h : layOut callable base units = .ok code) :
    code.words.length = extent units ∧
    code.map = (placedFrom base units).flatMap (fun p =>
      p.2.map.map fun m => (m.1, UInt16.ofNat (p.1 + m.2))) ∧
    ∀ i u, units[i]? = some u → ∃ ws, resolveCalls callable u.calls u.words = .ok ws ∧
      ∀ k, k < u.words.length → code.words[extent (units.take i) + k]? = ws[k]? := by
  induction units generalizing base code with
  | nil =>
    obtain rfl : Image.mk [] [] = code := Except.ok.inj h
    exact ⟨rfl, rfl, fun i u hi => by simp at hi⟩
  | cons u us ih =>
    rw [layOut] at h
    obtain ⟨ws, hws, h⟩ := bind_eq_ok.mp h
    obtain ⟨rest, hrest, h⟩ := bind_eq_ok.mp h
    obtain rfl := Except.ok.inj h
    obtain ⟨hlength, hmap, hcode⟩ := ih hrest
    have hsame := (resolveCalls_eq_ok hws).1
    refine ⟨?_, ?_, fun i v hi => ?_⟩
    · rw [List.length_append, hsame, hlength, extent_cons]
    · rw [placedFrom_cons, List.flatMap_cons, hmap]
    · cases i with
      | zero =>
        obtain rfl : u = v := by simpa using hi
        refine ⟨ws, hws, fun k hk => ?_⟩
        rw [List.take_zero, extent_nil, Nat.zero_add, List.getElem?_append_left (by omega)]
      | succ i =>
        obtain ⟨vs, hvs, hat⟩ := hcode i v hi
        refine ⟨vs, hvs, fun k hk => ?_⟩
        rw [← hat k hk, List.take_succ_cons, extent_cons, Nat.add_assoc, ← hsame,
          List.getElem?_append_right (Nat.le_add_right _ _), Nat.add_sub_cancel_left]

/-! ### Both passes -/

/-- The address of the `i`-th routine: the table and the routines before it end
there. -/
def base (units : List ObjectCode) (i : Nat) : Nat := headerSize units + extent (units.take i)

/-- The image that the routines have: `table` is what linking enters, the
machine finds and the listing shows. -/
structure Exact (node : Node) (units : List ObjectCode) (image : Image) : Prop where
  length : image.words.length = headerSize units + extent units
  code : ∀ i u, units[i]? = some u → ∀ k w, u.words[k]? = some w →
    (∀ site ∈ u.calls, site.addr ≠ k) → image.words[base units i + k]? = some w
  calls : ∀ i u, units[i]? = some u → ∀ site ∈ u.calls, ∃ (j : Nat) (v : ObjectCode) (w : Word),
    units[j]? = some v ∧ v.entry = .call site.name ∧
    (∀ j' v', units[j']? = some v' → v'.entry = .call site.name → j' = j) ∧
    image.words[base units i + site.addr]? = some w ∧
    Opcode.ofWord? w = some .subCall ∧ Machine.operand w = base units j
  table : eventTable image.words = .ok (addresses (Entry.eventId? node) (headerSize units) units)
  listed : ∀ u ∈ units, isHandler u = true → (u.entry.eventId? node).isSome
  distinct : ((addresses (Entry.eventId? node) (headerSize units) units).map Prod.fst).Nodup
  handler : ∀ s : State, s.image = image.words.toArray → ∀ id addr, s.handler? id = some addr ↔
    (id, addr) ∈ addresses (Entry.eventId? node) (headerSize units) units
  map : image.map = (placedFrom (headerSize units) units).flatMap fun p =>
    p.2.map.map fun m => (m.1, UInt16.ofNat (p.1 + m.2))
  position : ∀ i u, units[i]? = some u → ∀ addr ≤ u.words.length,
    (UInt16.ofNat (base units i + addr)).toNat = base units i + addr

/-- Why routines cannot be linked. -/
def Refused (node : Node) (units : List ObjectCode) : Prop :=
  4096 < headerSize units + extent units ∨
  (∃ u ∈ units, ∃ name, u.entry = .event name ∧ name ∉ node.localEvents) ∨
  Clash (Entry.eventId? node) units ∨ Clash Entry.callName? units ∨
  ∃ u ∈ units, ∃ site ∈ u.calls, ∀ v ∈ units, v.entry ≠ .call site.name

section Link

variable {node : Node} {units : List ObjectCode} {image : Image}

/-- Linking, exactly: the first pass must give out all addresses, and the
second fill in all calls. -/
theorem link_eq_ok : link node units = .ok image ↔
    headerSize units + extent units ≤ maxSize ∧ (∀ u ∈ units, Known node u) ∧
    ¬ Clash (Entry.eventId? node) units ∧ ¬ Clash Entry.callName? units ∧
    ∃ code, layOut (addresses Entry.callName? (headerSize units) units) (headerSize units) units =
        .ok code ∧
      image = ⟨header (headerSize units) (addresses (Entry.eventId? node) (headerSize units) units) ++
        code.words, code.map⟩ := by
  have hfits : units = [] ∨ headerSize units + extent units ≤ maxSize ↔
      headerSize units + extent units ≤ maxSize := by
    refine or_iff_right_of_imp ?_
    rintro rfl
    decide
  have hplace : ∀ q, units.foldlM (Placing.unit node) ⟨headerSize units, [], []⟩ = .ok q ↔
      headerSize units + extent units ≤ maxSize ∧ (∀ u ∈ units, Known node u) ∧
      q = ⟨headerSize units + extent units, addresses Entry.callName? (headerSize units) units,
        addresses (Entry.eventId? node) (headerSize units) units⟩ ∧
      ¬ Clash (Entry.eventId? node) units ∧ ¬ Clash Entry.callName? units := by
    intro q
    have h := @place_eq_ok node units ⟨headerSize units, [], []⟩ q
    simp only [List.map_nil, List.nodup_nil, and_true, List.nil_append, hfits] at h
    rw [h]
    refine and_congr_right fun _ => and_congr_right fun _ => and_congr_right fun hq => ?_
    rw [hq, keys_addresses, keys_addresses, nodup_keys_iff, nodup_keys_iff]
  unfold link
  dsimp only
  rw [bind_eq_ok]
  constructor
  · rintro ⟨q, hq, h⟩
    obtain ⟨hsize, hknown, rfl, hevents, hcalls⟩ := (hplace q).mp hq
    obtain ⟨code, hcode, h⟩ := bind_eq_ok.mp h
    exact ⟨hsize, hknown, hevents, hcalls, code, hcode, (Except.ok.inj h).symm⟩
  · rintro ⟨hsize, hknown, hevents, hcalls, code, hcode, rfl⟩
    exact ⟨_, (hplace _).mpr ⟨hsize, hknown, rfl, hevents, hcalls⟩, bind_eq_ok.mpr ⟨code, hcode, rfl⟩⟩

theorem mem_callNames {name : String} :
    name ∈ units.filterMap (·.entry.callName?) ↔ ∃ v ∈ units, v.entry = .call name := by
  simp only [List.mem_filterMap, Entry.callName?_eq_some]

theorem link_ok_iff : (∃ image, link node units = .ok image) ↔ ¬ Refused node units := by
  have hcalls : (∃ code, layOut (addresses Entry.callName? (headerSize units) units)
        (headerSize units) units = .ok code) ↔
      ¬ ∃ u ∈ units, ∃ site ∈ u.calls, ∀ v ∈ units, v.entry ≠ .call site.name := by
    rw [layOut_ok_iff, keys_addresses]
    simp only [mem_callNames]
    simp
  have hknown : (∀ u ∈ units, Known node u) ↔
      ¬ ∃ u ∈ units, ∃ name, u.entry = .event name ∧ name ∉ node.localEvents := by
    simp only [known_iff]
    simp
  unfold Refused
  rw [not_or, not_or, not_or, not_or, ← hcalls, ← hknown, Nat.not_lt]
  simp only [link_eq_ok]
  constructor
  · rintro ⟨image, hsize, hknown, hevents, hcalls, code, hcode, -⟩
    exact ⟨hsize, hknown, hevents, hcalls, code, hcode⟩
  · rintro ⟨hsize, hknown, hevents, hcalls, code, hcode⟩
    exact ⟨_, hsize, hknown, hevents, hcalls, code, hcode, rfl⟩

/-- A routine of a program that can be linked is in the table unless it is
called. -/
theorem Known.eventId?_isSome (h : Known node u) : (u.entry.eventId? node).isSome = isHandler u := by
  unfold Known at h
  unfold isHandler
  cases hentry : u.entry with
  | init => rfl
  | event name => simpa [hentry, Entry.callName?] using h
  | call name => rfl

/-- Every handler is entered, so the table is as long as was left for it. -/
theorem length_table (hknown : ∀ u ∈ units, Known node u) (size base : Nat) :
    (header size (addresses (Entry.eventId? node) base units)).length = headerSize units := by
  have hcount : (addresses (Entry.eventId? node) base units).length = units.countP isHandler := by
    induction units generalizing base with
    | nil => rfl
    | cons u us ih =>
      obtain ⟨hu, hus⟩ := List.forall_mem_cons.mp hknown
      have hhandler := hu.eventId?_isSome
      cases hevent : u.entry.eventId? node with
      | none =>
        rw [hevent] at hhandler
        rw [addresses_cons_none us hevent, ih hus, List.countP_cons_of_neg (by simp [← hhandler])]
      | some id =>
        rw [hevent] at hhandler
        rw [addresses_cons_some us hevent, List.length_cons, ih hus,
          List.countP_cons_of_pos (by simp [← hhandler])]
  rw [header_length, hcount, headerSize]

theorem extent_take {i : Nat} (hi : units[i]? = some u) :
    extent (units.take i) + u.words.length ≤ extent units := by
  obtain ⟨hlt, rfl⟩ := List.getElem?_eq_some_iff.mp hi
  have hsplit : extent units = extent (units.take i) + extent (units.drop i) := by
    rw [← extent_append, List.take_append_drop]
  rw [hsplit, List.drop_eq_getElem_cons hlt, extent_cons]
  omega

/-- A routine lies within the image. -/
theorem base_add_le {i : Nat} (hi : units[i]? = some u) :
    base units i + u.words.length ≤ headerSize units + extent units := by
  rw [base, Nat.add_assoc]
  exact Nat.add_le_add_left (extent_take hi) _

/-- The addresses that are given out lie behind the table and within the image. -/
theorem addresses_bounds {κ : Type} {key : Entry → Option κ} (hcode : ∀ u ∈ units, u.words ≠ [])
    {base addr : Nat} {k : κ} (h : (k, addr) ∈ addresses key base units) :
    base ≤ addr ∧ addr < base + extent units := by
  obtain ⟨i, u, hi, -, rfl⟩ := mem_addresses.mp h
  have hle := extent_take hi
  have hpos := List.length_pos_iff.mpr (hcode u (List.mem_of_getElem? hi))
  omega

/-- The words behind the table are those of the routines. -/
theorem getElem?_behind {size : Nat} {table : List (Word × Nat)} {ws : List Word}
    (hlength : (header size table).length = headerSize units) (i k : Nat) :
    (header size table ++ ws)[base units i + k]? = ws[extent (units.take i) + k]? := by
  rw [base, Nat.add_assoc, ← hlength, List.getElem?_append_right (Nat.le_add_right _ _),
    Nat.add_sub_cancel_left]

/-- A call of a routine leads to the one routine of that name. -/
theorem laid_call {code : Image}
    (hlaid : layOut (addresses Entry.callName? (headerSize units) units) (headerSize units) units = .ok code)
    (hnames : ¬ Clash Entry.callName? units) {i : Nat} (hi : units[i]? = some u)
    (hdistinct : (u.calls.map (·.addr)).Nodup) {site : CallSite} (hsite : site ∈ u.calls)
    (hlt : site.addr < u.words.length) :
    ∃ (j : Nat) (v : ObjectCode), units[j]? = some v ∧ v.entry = .call site.name ∧
      (∀ j' v', units[j']? = some v' → v'.entry = .call site.name → j' = j) ∧
      code.words[extent (units.take i) + site.addr]? = some (Opcode.subCall.word (base units j)) := by
  obtain ⟨ws, hws, hcode⟩ := (layOut_eq_ok hlaid).2.2 i u hi
  obtain ⟨addr, haddr, hword⟩ := resolveCalls_at hws hdistinct hsite hlt
  have hnodup : ((addresses Entry.callName? (headerSize units) units).map Prod.fst).Nodup := by
    rw [keys_addresses]
    exact nodup_keys_iff.mpr hnames
  obtain ⟨j, v, hj, hv, rfl⟩ := mem_addresses.mp ((lookup_eq_some_iff_mem hnodup).mp haddr)
  refine ⟨j, v, hj, Entry.callName?_eq_some.mp hv, fun j' v' hj' hv' => ?_, ?_⟩
  · exact unique_of_not_clash hnames hj' hj (Entry.callName?_eq_some.mpr hv') hv
  · rw [hcode _ hlt, hword, base]

end Link

end Image

open Image (Exact Refused headerSize addresses)

/-- The machine finds the handlers of a table whose events are distinct. -/
theorem Machine.State.handler?_eq_some_iff {handlers : List (Word × Nat)} {size : Nat} {s : State}
    (htable : s.image.toList.take size = Image.header size handlers)
    (hsize : (Image.header size handlers).length = size) (hlt : size < 65536)
    (hdistinct : (handlers.map Prod.fst).Nodup) (hbounds : ∀ h ∈ handlers, h.2 < 65536)
    {id : Word} {addr : Nat} : s.handler? id = some addr ↔ (id, addr) ∈ handlers := by
  rw [State.handler?_header htable hsize hlt, Option.map_eq_some_iff]
  simp only [Image.lookup_eq_some_iff_mem hdistinct]
  constructor
  · rintro ⟨a, ha, rfl⟩
    rwa [UInt16.toNat_ofNat_of_lt' (hbounds _ ha)]
  · exact fun h => ⟨addr, h, UInt16.toNat_ofNat_of_lt' (hbounds _ h)⟩

/-- Linking puts every routine, call, handler and statement where it belongs, or
fails for one of four reasons. -/
theorem linking_exact (node : Node) (units : List ObjectCode) (hcode : ∀ u ∈ units, u.words ≠ [])
    (hsites : ∀ u ∈ units, (u.calls.map (·.addr)).Nodup ∧ ∀ site ∈ u.calls, site.addr < u.words.length) :
    (∀ image, Image.link node units = .ok image → Exact node units image) ∧
    ((∃ e, Image.link node units = .error e) ↔ Refused node units) := by
  refine ⟨fun image himage => ?_, ?_⟩
  · obtain ⟨hsize, hknown, hevents, hnames, code, hlaid, rfl⟩ := Image.link_eq_ok.mp himage
    obtain ⟨hlength, hmap, hunits⟩ := Image.layOut_eq_ok hlaid
    have hheader := Image.length_table hknown (headerSize units) (headerSize units)
    have hdistinct : ((addresses (Entry.eventId? node) (headerSize units) units).map Prod.fst).Nodup := by
      rw [Image.keys_addresses]
      exact Image.nodup_keys_iff.mpr hevents
    have hsmall : headerSize units + Image.extent units ≤ 4096 := hsize
    have hbounds : ∀ handler ∈ addresses (Entry.eventId? node) (headerSize units) units,
        headerSize units ≤ handler.2 ∧ handler.2 < headerSize units + code.words.length ∧
          handler.2 < 65536 := by
      intro handler hmem
      have hbound := Image.addresses_bounds hcode hmem
      omega
    constructor
    case length => rw [List.length_append, hheader, hlength]
    case code =>
      intro i u hi k w hk hother
      obtain ⟨ws, hws, hat⟩ := hunits i u hi
      have hlt : k < u.words.length := (List.getElem?_eq_some_iff.mp hk).1
      rw [Image.getElem?_behind hheader, hat k hlt, (Image.resolveCalls_eq_ok hws).2 k hother, hk]
    case calls =>
      intro i u hi site hsite
      obtain ⟨hdistinct, hinside⟩ := hsites u (List.mem_of_getElem? hi)
      obtain ⟨j, v, hj, hv, hunique, hword⟩ :=
        Image.laid_call hlaid hnames hi hdistinct hsite (hinside site hsite)
      have hbase : Image.base units j < 4096 := by
        have hle := Image.base_add_le hj
        have hpos := List.length_pos_iff.mpr (hcode v (List.mem_of_getElem? hj))
        omega
      refine ⟨j, v, Opcode.subCall.word (Image.base units j), hj, hv, hunique, ?_,
        Opcode.ofWord?_word _ _, ?_⟩
      · rw [Image.getElem?_behind hheader, hword]
      · rw [Machine.operand_word, Nat.mod_eq_of_lt hbase]
    case table =>
      refine Image.eventTable_header ?_ hheader (by omega) hbounds
      rw [← Image.header_length, hheader]
    case listed =>
      intro u hu hhandler
      rw [(hknown u hu).eventId?_isSome, hhandler]
    case distinct => exact hdistinct
    case handler =>
      intro s hs id addr
      have htake : s.image.toList.take (headerSize units) = Image.header (headerSize units)
          (addresses (Entry.eventId? node) (headerSize units) units) := by
        rw [hs]
        exact List.take_left' hheader
      exact State.handler?_eq_some_iff htake hheader (by omega) hdistinct fun h hh => (hbounds h hh).2.2
    case map => exact hmap
    case position =>
      intro i u hi addr haddr
      have hle := Image.base_add_le hi
      refine UInt16.toNat_ofNat_of_lt' ?_
      show Image.base units i + addr < 65536
      omega
  · have hok : (∃ image, Image.link node units = .ok image) ↔ ¬ Refused node units := Image.link_ok_iff
    cases hlink : Image.link node units with
    | ok image => simpa [hlink] using hok
    | error e => simpa [hlink] using hok

/-- Three routines, one of each kind of entry: the call of the last one in the
first leads behind both others. -/
theorem linking_exact_blink :
    ∃ (node : Node) (units : List ObjectCode) (image : Image), (∀ u ∈ units, u.words ≠ []) ∧
      (∀ u ∈ units, (u.calls.map (·.addr)).Nodup ∧
        ∀ site ∈ u.calls, site.addr < u.words.length) ∧
      image.words = [5, 0xffff, 5, 0xfffd, 7, 0xd009, 0, 0x1001, 0, 0xe000] ∧
      image.map.map Prod.snd = [5, 7, 9] ∧ Image.link node units = .ok image ∧
      Exact node units image := by
  let node : Node := ⟨"node", 0, [], ["button.backward", "button.left"], []⟩
  let units : List ObjectCode :=
    [⟨.init, ⟨0, 0⟩, [0xd000, 0], [⟨0, "blink", ⟨0, 0⟩⟩], [(⟨0, 0⟩, 0)]⟩,
      ⟨.event "button.left", ⟨0, 0⟩, [0x1001, 0], [], [(⟨0, 0⟩, 0)]⟩,
      ⟨.call "blink", ⟨0, 0⟩, [0xe000], [], [(⟨0, 0⟩, 0)]⟩]
  let image : Image := ⟨[5, 0xffff, 5, 0xfffd, 7, 0xd009, 0, 0x1001, 0, 0xe000],
    [(⟨0, 0⟩, 5), (⟨0, 0⟩, 7), (⟨0, 0⟩, 9)]⟩
  have hcode : ∀ u ∈ units, u.words ≠ [] := by decide
  have hsites : ∀ u ∈ units, (u.calls.map (·.addr)).Nodup ∧
      ∀ site ∈ u.calls, site.addr < u.words.length := by decide
  have hlink : Image.link node units = .ok image := rfl
  exact ⟨node, units, image, hcode, hsites, rfl, rfl, hlink,
    (linking_exact node units hcode hsites).1 image hlink⟩

end RobotScript
