/-
# Storage does not overlap

Variables outside functions take the words of the variable memory one behind
another and keep them. In a function, words that are free again at the end of
a block can be taken once more, so what is kept apart there is what is in
scope at the same point. Behind all variables there is room for temporaries.

Key definitions: `Storage.stretch`, `Stmt.Sees`, `Routine.moduleVariables`.
Key theorems: `Stmt.Take.tiled`, `Stmt.Take.fits`, `storage_disjoint`.
-/
import RobotScript.Compile
import RobotScript.Node.Json
import RobotScript.Proofs.MemoryUse
import RobotScript.Proofs.Pairing
import RobotScript.Proofs.StmtDrafting

namespace RobotScript

/-- The words that a variable takes: a single one if only its address is kept. -/
def Storage.stretch (v : Storage) : Stretch :=
  ⟨v.offset, if v.mode = .reference then 1 else volume v.dims⟩

/-- The words of the variable are counted right. -/
def Storage.Counted (v : Storage) : Prop := v.stretch.base + v.stretch.size < 0x10000000000000000

theorem Storage.stop_eq {v : Storage} (h : v.Counted) (hmode : v.mode ≠ .reference) :
    v.stop = v.offset + v.stretch.size := by
  have hsize : v.stretch.size = volume v.dims := if_neg hmode
  have hlt : v.offset + volume v.dims < 0x10000000000000000 := hsize ▸ h
  rw [stop, size, extent, counted_of_lt (n := volume v.dims) (by omega), counted_of_lt hlt, hsize]

/-- Where a function finds its parameter. -/
def Param.storage (p : Param) : Storage :=
  ⟨p.offset, p.dims, p.ty, if p.byRef then .reference else .frame⟩

/-- Variables that share no word, and lie between two addresses. -/
structure Spread (vs : List Storage) (lo hi : Nat) : Prop where
  apart : vs.Pairwise fun v w => v.stretch.Apart w.stretch
  within : ∀ v ∈ vs, v.stretch.Within lo hi

namespace Spread

variable {vs : List Storage} {v : Storage} {lo hi : Nat}

theorem nil : Spread [] lo hi := ⟨.nil, nofun⟩

theorem mono {hi' : Nat} (h : Spread vs lo hi) (hhi : hi ≤ hi') : Spread vs lo hi' :=
  ⟨h.apart, fun v hv => (h.within v hv).mono (Nat.le_refl _) hhi⟩

/-- One more variable behind the others. -/
theorem snoc {hi' : Nat} (h : Spread vs lo v.offset) (hlo : lo ≤ v.offset)
    (hhi : v.offset + v.stretch.size ≤ hi') : Spread (vs ++ [v]) lo hi' := by
  refine ⟨List.pairwise_append.mpr ⟨h.apart, List.pairwise_singleton _ _, ?_⟩, ?_⟩
  · intro w hw v' hv'
    cases List.mem_singleton.mp hv'
    exact Stretch.apart_of_le (h.within w hw).2
  · intro w hw
    rcases List.mem_append.mp hw with hw | hw
    · exact (h.within w hw).mono (Nat.le_refl _) (by omega)
    · cases List.mem_singleton.mp hw
      exact ⟨hlo, hhi⟩

end Spread

/-! ### Outside functions -/

/-- Variables one behind another between two addresses of the memory. -/
def Tiled : Nat → List Storage → Nat → Prop
  | lo, [], hi => lo = hi
  | lo, v :: vs, hi => v.mode = .absolute ∧ v.offset = lo ∧ Tiled (lo + v.stretch.size) vs hi

namespace Tiled

theorem append {ws : List Storage} {hi : Nat} : ∀ {vs : List Storage} {lo mid : Nat},
    Tiled lo vs mid → Tiled mid ws hi → Tiled lo (vs ++ ws) hi
  | [], _, _, h, h' => by
    cases h
    exact h'
  | _ :: _, _, _, h, h' => ⟨h.1, h.2.1, append h.2.2 h'⟩

theorem le {hi : Nat} : ∀ {vs : List Storage} {lo : Nat}, Tiled lo vs hi → lo ≤ hi
  | [], _, h => Nat.le_of_eq h
  | _ :: _, _, h => Nat.le_trans (Nat.le_add_right _ _) (le h.2.2)

theorem absolute {hi : Nat} : ∀ {vs : List Storage} {lo : Nat}, Tiled lo vs hi →
    ∀ v ∈ vs, v.mode = .absolute
  | [], _, _ => nofun
  | _ :: _, _, h => by
    rintro v (_ | ⟨_, hv⟩)
    · exact h.1
    · exact absolute h.2.2 v hv

theorem spread {hi : Nat} : ∀ {vs : List Storage} {lo : Nat}, Tiled lo vs hi → Spread vs lo hi
  | [], _, _ => .nil
  | v :: vs, lo, h => by
    obtain ⟨-, rfl, hvs⟩ := h
    have hrest := hvs.spread
    refine ⟨List.pairwise_cons.mpr ⟨fun w hw => Stretch.apart_of_le (hrest.within w hw).1, hrest.apart⟩, ?_⟩
    rintro w (_ | ⟨_, hw⟩)
    · exact ⟨Nat.le_refl _, hvs.le⟩
    · exact ⟨Nat.le_trans (Nat.le_add_right _ _) (hrest.within w hw).1, (hrest.within w hw).2⟩

end Tiled

namespace Stmt

/-- The storage of the variables that are declared. -/
def stored (ds : List VarDecl) : List Storage := ds.filterMap (·.storage)

theorem stored_append {ds es : List VarDecl} : stored (ds ++ es) = stored ds ++ stored es :=
  List.filterMap_append

theorem stored_single {d : VarDecl} {v : Storage} (h : d.storage = some v) : stored [d] = [v] := by
  simp [stored, h]

theorem stored_decl {t : Stmt} {d : VarDecl} {v : Storage} (hdeclares : t.declares = [d])
    (hblocks : t.blocks = []) (hstorage : d.storage = some v) : stored (allDeclared [t]) = [v] := by
  rw [allDeclared_single, declared_eq, hdeclares, hblocks, List.flatMap_nil, List.append_nil,
    stored_single hstorage]

variable {node : Node}

mutual

/-- Outside functions, the variables of statements lie one behind another. -/
theorem Take.tiled {m m' : Memory} {ss : List Stmt} : Take node m ss m' → m.frame = none →
    m'.frame = none ∧
      ((∀ v ∈ stored (allDeclared ss), v.Counted) →
        Tiled m.moduleTop (stored (allDeclared ss)) m'.moduleTop) ∧
      (m.moduleTop ≤ node.returnSlot → m'.moduleTop ≤ node.returnSlot)
  | .nil, h => ⟨h, fun _ => rfl, id⟩
  | .append hss hts, h => by
    obtain ⟨hmid, htiled, hroom⟩ := hss.tiled h
    obtain ⟨hend, htiled', hroom'⟩ := hts.tiled hmid
    refine ⟨hend, fun hcounted => ?_, fun hle => hroom' (hroom hle)⟩
    rw [allDeclared_append, stored_append] at hcounted ⊢
    rw [List.forall_mem_append] at hcounted
    exact (htiled hcounted.1).append (htiled' hcounted.2)
  | .decl v hdeclares hblocks hstorage htakes, h => by
    cases htakes with
    | words hmode hroom =>
      refine ⟨rfl, fun hcounted => ?_, fun _ => hroom⟩
      rw [stored_decl hdeclares hblocks hstorage] at hcounted ⊢
      exact ⟨hmode, rfl, (Storage.stop_eq (hcounted v List.mem_cons_self) (hmode ▸ nofun)).symm⟩
    | frame _ => cases h
  | .blocks hdeclares hbodies, h => by
    rw [allDeclared_single, declared_eq, hdeclares]
    exact hbodies.tiled h

theorem BlocksTake.tiled {m m' : Memory} {bodies : List (List Stmt)} :
    BlocksTake node m bodies m' → m.frame = none →
    m'.frame = none ∧
      ((∀ v ∈ stored (bodies.flatMap allDeclared), v.Counted) →
        Tiled m.moduleTop (stored (bodies.flatMap allDeclared)) m'.moduleTop) ∧
      (m.moduleTop ≤ node.returnSlot → m'.moduleTop ≤ node.returnSlot)
  | .nil, h => ⟨h, fun _ => rfl, id⟩
  | .cons hbody hbodies, h => by
    obtain ⟨hmid, htiled, hroom⟩ := hbody.tiled h
    obtain ⟨hend, htiled', hroom'⟩ := hbodies.tiled (Memory.closeTo_none hmid)
    refine ⟨hend, fun hcounted => ?_, fun hle => hroom' (hroom hle)⟩
    rw [List.flatMap_cons, stored_append] at hcounted ⊢
    rw [List.forall_mem_append] at hcounted
    exact (htiled hcounted.1).append (htiled' hcounted.2)

end

mutual

/-- Every variable that is declared has storage. -/
theorem Take.stored {m m' : Memory} {ss : List Stmt} : Take node m ss m' →
    ∀ d ∈ allDeclared ss, d.storage.isSome = true
  | .nil => nofun
  | .append hss hts => by
    intro d hd
    rw [allDeclared_append] at hd
    rcases List.mem_append.mp hd with hd | hd
    · exact hss.stored d hd
    · exact hts.stored d hd
  | .decl _ hdeclares hblocks hstorage _ => by
    intro d hd
    rw [allDeclared_single, declared_eq, hdeclares, hblocks] at hd
    cases List.mem_singleton.mp hd
    rw [hstorage]
    rfl
  | .blocks hdeclares hbodies => by
    intro d hd
    rw [allDeclared_single, declared_eq, hdeclares] at hd
    exact hbodies.stored d hd

theorem BlocksTake.stored {m m' : Memory} {bodies : List (List Stmt)} :
    BlocksTake node m bodies m' → ∀ d ∈ bodies.flatMap allDeclared, d.storage.isSome = true
  | .nil => nofun
  | .cons hbody hbodies => by
    intro d hd
    rw [List.flatMap_cons] at hd
    rcases List.mem_append.mp hd with hd | hd
    · exact hbody.stored d hd
    · exact hbodies.stored d hd

end

/-! ### In functions -/

/-- Where the variables `vs` are in scope before statements, the variables `ws`
are in scope at some point of them: a declaration holds up to the end of its
block. -/
inductive Sees : (vs : List Storage) → List Stmt → (ws : List Storage) → Prop where
  | here {vs : List Storage} {ss : List Stmt} : Sees vs ss vs
  | behind {vs ws : List Storage} {t : Stmt} {ts : List Stmt} :
      Sees (vs ++ stored t.declares) ts ws → Sees vs (t :: ts) ws
  | inside {vs ws : List Storage} {t : Stmt} {ts body : List Stmt} :
      body ∈ t.blocks → Sees vs body ws → Sees vs (t :: ts) ws

/-- The variables that statements declare for those behind them. -/
def left (ss : List Stmt) : List Storage := stored (ss.flatMap declares)

theorem left_append {ss ts : List Stmt} : left (ss ++ ts) = left ss ++ left ts := by
  rw [left, List.flatMap_append, stored_append]
  rfl

theorem left_single {t : Stmt} : left [t] = stored t.declares := by
  rw [left, List.flatMap_cons, List.flatMap_nil, List.append_nil]

theorem Sees.of_append {ts : List Stmt} : ∀ {ss : List Stmt} {vs ws : List Storage},
    Sees vs (ss ++ ts) ws → Sees vs ss ws ∨ Sees (vs ++ left ss) ts ws
  | [], vs, ws, h => .inr ((List.append_nil vs).symm ▸ h)
  | s :: ss, vs, ws, h => by
    cases h with
    | here => exact .inl .here
    | behind h =>
      rcases of_append h with h | h
      · exact .inl (.behind h)
      · refine .inr ?_
        rw [← List.singleton_append, left_append, left_single, ← List.append_assoc]
        exact h
    | inside hbody h => exact .inl (.inside hbody h)

/-- Variables in a frame up to some word. -/
structure Fits (vs : List Storage) (top : Nat) : Prop extends Spread vs 0 top where
  framed : ∀ v ∈ vs, v.mode ≠ .absolute

theorem Fits.mono {vs : List Storage} {top top' : Nat} (h : Fits vs top) (hle : top ≤ top') : Fits vs top' :=
  ⟨h.toSpread.mono hle, h.framed⟩

theorem Fits.snoc {vs : List Storage} {v : Storage} {top : Nat} (h : Fits vs v.offset)
    (hmode : v.mode ≠ .absolute) (htop : v.offset + v.stretch.size ≤ top) : Fits (vs ++ [v]) top := by
  refine ⟨h.toSpread.snoc (Nat.zero_le _) htop, fun w hw => ?_⟩
  rcases List.mem_append.mp hw with hw | hw
  · exact h.framed w hw
  · cases List.mem_singleton.mp hw
    exact hmode

mutual

/-- In a function, what is in scope at a point of the statements fits into the
most words that were taken; what is in scope behind them, into the words that
are taken then. -/
theorem Take.fits {m m' : Memory} {ss : List Stmt} : Take node m ss m' → ∀ f, m.frame = some f →
    f.top ≤ f.high → ∃ f', m'.frame = some f' ∧ m'.moduleTop = m.moduleTop ∧ f'.top ≤ f'.high ∧
      f.high ≤ f'.high ∧ ((∀ v ∈ stored (allDeclared ss), v.Counted) → ∀ vs, Fits vs f.top →
        Fits (vs ++ left ss) f'.top ∧ ∀ ws, Sees vs ss ws → Fits ws f'.high)
  | .nil, f, hf, hle => by
    refine ⟨f, hf, rfl, hle, Nat.le_refl _, fun _ vs hvs => ⟨?_, ?_⟩⟩
    · exact (List.append_nil vs).symm ▸ hvs
    · rintro ws ⟨⟩
      exact hvs.mono hle
  | .append hss hts, f, hf, hle => by
    obtain ⟨f1, hf1, htop1, hle1, hhigh1, hfits1⟩ := hss.fits f hf hle
    obtain ⟨f2, hf2, htop2, hle2, hhigh2, hfits2⟩ := hts.fits f1 hf1 hle1
    refine ⟨f2, hf2, htop2.trans htop1, hle2, Nat.le_trans hhigh1 hhigh2, fun hcounted vs hvs => ?_⟩
    rw [allDeclared_append, stored_append, List.forall_mem_append] at hcounted
    obtain ⟨hleft, hsees⟩ := hfits1 hcounted.1 vs hvs
    obtain ⟨hleft', hsees'⟩ := hfits2 hcounted.2 _ hleft
    refine ⟨?_, fun ws hws => ?_⟩
    · rw [left_append, ← List.append_assoc]
      exact hleft'
    · rcases hws.of_append with hws | hws
      · exact (hsees ws hws).mono hhigh2
      · exact hsees' ws hws
  | .decl v hdeclares hblocks hstorage htakes, f, hf, hle => by
    cases htakes with
    | words _ _ => cases hf
    | frame hmode =>
      cases hf
      refine ⟨_, rfl, rfl, Nat.le_max_right _ _, Nat.le_max_left _ _, fun hcounted vs hvs => ?_⟩
      rw [stored_decl hdeclares hblocks hstorage] at hcounted
      have hstop := Storage.stop_eq (hcounted v List.mem_cons_self) (hmode ▸ nofun)
      have hdeclared : Fits (vs ++ [v]) v.stop := hvs.snoc (hmode ▸ nofun) (Nat.le_of_eq hstop.symm)
      refine ⟨?_, fun ws hws => ?_⟩
      · rw [left_single, hdeclares, stored_single hstorage]
        exact hdeclared
      · cases hws with
        | here => exact hvs.mono (Nat.le_trans hle (Nat.le_max_left _ _))
        | behind hws =>
          rw [hdeclares, stored_single hstorage] at hws
          cases hws
          exact hdeclared.mono (Nat.le_max_right _ _)
        | inside hbody _ =>
          rw [hblocks] at hbody
          cases hbody
  | .blocks hdeclares hbodies, f, hf, hle => by
    obtain ⟨f', hf', htop, hsame, hhigh, hsees⟩ := hbodies.fits f hf hle
    refine ⟨f', hf', htop, hsame ▸ Nat.le_trans hle hhigh, hhigh,
      fun hcounted vs hvs => ⟨?_, fun ws hws => ?_⟩⟩
    · rw [left_single, hdeclares, hsame]
      exact (List.append_nil vs).symm ▸ hvs
    · cases hws with
      | here => exact hvs.mono (Nat.le_trans hle hhigh)
      | behind hws =>
        rw [hdeclares] at hws
        cases hws
        exact (List.append_nil vs).symm ▸ hvs.mono (Nat.le_trans hle hhigh)
      | inside hbody hws =>
        rw [allDeclared_single, declared_eq, hdeclares] at hcounted
        exact hsees hcounted vs hvs _ hbody ws hws

/-- Behind each of the blocks the words taken in it are free again. -/
theorem BlocksTake.fits {m m' : Memory} {bodies : List (List Stmt)} : BlocksTake node m bodies m' →
    ∀ f, m.frame = some f → f.top ≤ f.high → ∃ f', m'.frame = some f' ∧
      m'.moduleTop = m.moduleTop ∧ f'.top = f.top ∧ f.high ≤ f'.high ∧
      ((∀ v ∈ stored (bodies.flatMap allDeclared), v.Counted) →
        ∀ vs, Fits vs f.top → ∀ body ∈ bodies, ∀ ws, Sees vs body ws → Fits ws f'.high)
  | .nil, f, hf, _ => ⟨f, hf, rfl, rfl, Nat.le_refl _, fun _ _ _ => nofun⟩
  | .cons hbody hbodies, f, hf, hle => by
    obtain ⟨f1, hf1, htop1, _, hhigh1, hfits1⟩ := hbody.fits f hf hle
    obtain ⟨f2, hf2, htop2, hsame, hhigh2, hfits2⟩ :=
      hbodies.fits _ (Memory.closeTo_some hf hf1) (Nat.le_trans hle hhigh1)
    refine ⟨f2, hf2, htop2.trans htop1, hsame, Nat.le_trans hhigh1 hhigh2, ?_⟩
    intro hcounted vs hvs body hmem ws hws
    rw [List.flatMap_cons, stored_append, List.forall_mem_append] at hcounted
    rcases List.mem_cons.mp hmem with rfl | hmem
    · exact ((hfits1 hcounted.1 vs hvs).2 ws hws).mono hhigh2
    · exact hfits2 hcounted.2 vs hvs body hmem ws hws

end

end Stmt
/-! ### Routines -/

namespace Param

theorem storage_framed (p : Param) : p.storage.mode ≠ .absolute := by
  unfold storage
  cases p.byRef with
  | true => exact nofun
  | false => exact nofun

theorem stretch_size {p : Param} (h : p.byRef = true ∨ p.dims = []) : p.storage.stretch.size = 1 := by
  obtain ⟨name, ty, dims, byRef, offset⟩ := p
  cases byRef with
  | true => rfl
  | false =>
    cases h.resolve_left nofun
    rfl

end Param

namespace Surroundings

open Layout

/-- The first parameter takes the next word of the frame, whatever its
dimensions are. -/
theorem params_cons {s : Surroundings} {p : ParamDecl} {ps : List ParamDecl} {l l' : Layout}
    {params : List Param} {f : Frame} (hp : p.isSound = true) (hframe : l.frame = some f)
    (h : s.params (p :: ps) l = .ok (params, l')) :
    ∃ q rest l₁, params = q :: rest ∧ q.offset = f.top ∧ q.ty = p.ty ∧ (q.byRef = true ∨ q.dims = []) ∧
      declare p.name (.variable q.storage) p.span
        { l with frame := some ⟨counted (f.top + 1), max f.high (counted (f.top + 1))⟩ } = .ok ((), l₁) ∧
      s.params ps l₁ = .ok (rest, l') := by
  unfold Surroundings.params at h
  obtain ⟨⟨dims, l₁⟩, hdims, hrest⟩ := bind_eq_ok.mp h
  have hquiet : Laying.Quiet id (p.dims.mapM (s.dimension "argument dimension")) :=
    .mapM fun e _ => dimension_quiet _ e
  obtain rfl : l₁ = l := (hquiet.run hdims).2
  obtain ⟨scopes, nextId, moduleTop, frame⟩ := l₁
  cases hframe
  have hrun : (do
      declare p.name (.variable (Param.storage ⟨p.name, p.ty, dims, p.byRef, f.top⟩)) p.span
      return ⟨p.name, p.ty, dims, p.byRef, f.top⟩ :: (← s.params ps) : Laying (List Param))
      ⟨scopes, nextId, moduleTop, some ⟨counted (f.top + 1), max f.high (counted (f.top + 1))⟩⟩ =
        .ok (params, l') := hrest
  obtain ⟨⟨_, l₂⟩, hdeclare, hrun⟩ := bind_eq_ok.mp hrun
  obtain ⟨⟨rest, l3⟩, hrest, hrun⟩ := bind_eq_ok.mp hrun
  cases hrun
  refine ⟨_, rest, l₂, rfl, rfl, rfl, ?_, hdeclare, hrest⟩
  rcases Bool.or_eq_true _ _ ▸ hp with hbyRef | hdims0
  · exact .inl hbyRef
  · rw [List.isEmpty_iff.mp hdims0, List.mapM_nil] at hdims
    exact .inr (congrArg Prod.fst (Except.ok.inj hdims)).symm

/-- The parameters of a function take one word of its frame each. -/
theorem params_fits {s : Surroundings} : ∀ {ps : List ParamDecl} {l l' : Layout}
    {params : List Param} {f : Frame}, ps.all (·.isSound) = true → l.frame = some f → f.top ≤ f.high →
    s.params ps l = .ok (params, l') →
    ∃ f', l'.memory = ⟨l.moduleTop, some f'⟩ ∧ f'.top ≤ f'.high ∧
      ((∀ v ∈ params.map Param.storage, v.Counted) →
        ∀ vs, Stmt.Fits vs f.top → Stmt.Fits (vs ++ params.map Param.storage) f'.top)
  | [], l, _, _, f, _, hframe, hle, h => by
    cases h
    refine ⟨f, congrArg (Memory.mk l.moduleTop) hframe, hle, fun _ vs hvs => ?_⟩
    rw [List.map_nil, List.append_nil]
    exact hvs
  | p :: ps, l, l', params, f, hsound, hframe, hle, h => by
    rw [List.all_cons, Bool.and_eq_true] at hsound
    obtain ⟨q, rest, l₁, rfl, hoffset, -, hq, hdeclare, hrest⟩ := params_cons hsound.1 hframe h
    obtain ⟨-, hmemory⟩ := (declare_memory _ _ _).run hdeclare
    obtain ⟨f', hmemory', hle', hfits⟩ :=
      params_fits hsound.2 (congrArg Memory.frame hmemory) (Nat.le_max_right _ _) hrest
    rw [show l₁.moduleTop = l.moduleTop from congrArg Memory.moduleTop hmemory] at hmemory'
    refine ⟨f', hmemory', hle', fun hcounted vs hvs => ?_⟩
    rw [List.map_cons, List.forall_mem_cons] at hcounted
    rw [List.map_cons, List.append_cons]
    have hsize := Param.stretch_size hq
    have hlt : f.top + 1 < 0x10000000000000000 := by
      rw [← hoffset, ← hsize]
      exact hcounted.1
    refine hfits hcounted.2 _ ((hoffset ▸ hvs).snoc (Param.storage_framed _) ?_)
    rw [hsize, counted_of_lt hlt]
    exact Nat.le_of_eq (congrArg (· + 1) hoffset)

end Surroundings

namespace Routine

/-- The variables that are declared in a routine, by name. -/
def names (r : Routine) : List String := Stmt.allNames r.body

/-- The storage of the variables declared in a routine, if that is no function. -/
def moduleVariables (r : Routine) : List Storage :=
  match r.kind with
  | .function _ _ => []
  | _ => Stmt.stored (Stmt.allDeclared r.body)

/-- Every variable of the routine has storage; in a function, what is in scope
at the same point shares no word of the frame, if all words are counted right. -/
structure Stored (r : Routine) : Prop where
  declared : ∀ d ∈ Stmt.allDeclared r.body, d.storage.isSome = true
  frame : ∀ decl signature, r.kind = .function decl (some signature) →
    (∀ v ∈ signature.params.map Param.storage ++ Stmt.stored (Stmt.allDeclared r.body), v.Counted) →
    ∀ vs, Stmt.Sees (signature.params.map Param.storage) r.body vs → Stmt.Fits vs r.frameSize

/-- The parameters of a function that are passed by value are single words. -/
def Sound (r : Routine) : Prop :=
  ∀ decl signature, r.kind = .function decl signature → decl.params.all (·.isSound) = true

end Routine

namespace Allocation

/-- Outside functions, a routine takes the next words of the memory. -/
structure Adds (node : Node) (m : Memory) (r r' : Routine) (m' : Memory) : Prop where
  names : r'.names = r.names
  stored : r'.Stored
  frame : m'.frame = none
  tiled : (∀ v ∈ r'.moduleVariables, v.Counted) → Tiled m.moduleTop r'.moduleVariables m'.moduleTop
  room : m.moduleTop ≤ node.returnSlot → m'.moduleTop ≤ node.returnSlot

variable {node : Node} {language : Language} {a a' : Allocation} {r r' : Routine}

theorem layBody_takes {s : Surroundings} (body : List Stmt) :
    Laying.Takes s.node (Stmt.allNames body) (layBody s body) :=
  .after (declareLabels_quiet body) fun _ => Stmt.layAll_takes body

theorem layFunction_adds {decl : FunctionDecl} (hparams : decl.params.all (·.isSound) = true)
    (h : layFunction node language a r decl = .ok (r', a')) :
    Adds node a.layout.memory r r' a'.layout.memory := by
  unfold layFunction at h
  split at h
  · cases h
  · obtain ⟨⟨params, l₁⟩, hrun, h⟩ := bind_eq_ok.mp h
    obtain ⟨f0, hmemory, hle, hfits⟩ := Surroundings.params_fits hparams rfl (Nat.le_refl _) hrun
    obtain ⟨⟨body, l₂⟩, hbody, h⟩ := bind_eq_ok.mp h
    cases h
    obtain ⟨htake, hnames⟩ := layBody_takes r.body l₁ body l₂ hbody
    rw [hmemory] at htake
    obtain ⟨f, hframe, htop, -, -, hall⟩ := htake.fits f0 rfl hle
    have hhigh : (l₂.frame.map (·.high)).getD 0 = f.high := by
      rw [show l₂.frame = some f from hframe]
      rfl
    refine ⟨hnames, ⟨htake.stored, ?_⟩, rfl, fun _ => htop.symm, fun hle => ?_⟩
    · rintro _ _ ⟨⟩ hcounted vs hvs
      rw [List.forall_mem_append] at hcounted
      have hparams : Stmt.Fits (params.map Param.storage) f0.top := hfits hcounted.1 [] ⟨.nil, nofun⟩
      exact hhigh ▸ (hall hcounted.2 _ hparams).2 vs hvs
    · exact Nat.le_trans (Nat.le_of_eq htop) hle

theorem layPlain_adds {own : Bool} (hkind : ∀ decl signature, r.kind ≠ .function decl signature)
    (hframe : a.layout.frame = none) (h : layPlain node language a r own = .ok (r', a')) :
    Adds node a.layout.memory r r' a'.layout.memory := by
  obtain ⟨⟨body, l⟩, hbody, h⟩ := bind_eq_ok.mp h
  obtain ⟨htake, hnames⟩ := layBody_takes r.body _ body l hbody
  -- A scope of its own makes no difference to the memory.
  have hentry : Layout.memory (if (own && language.blockScoping) = true then a.layout.pushScope
      else a.layout) = a.layout.memory := by
    split
    · rfl
    · rfl
  have hclosed : Layout.memory (if (own && language.blockScoping) = true then
      { l with scopes := a.layout.scopes } else l) = l.memory := by
    split
    · rfl
    · rfl
  have hvariables : Routine.moduleVariables { r with body := body, frameSize := 0 } =
      Stmt.stored (Stmt.allDeclared body) := by
    unfold Routine.moduleVariables
    split
    · rename_i decl signature hfunction
      exact absurd hfunction (hkind decl signature)
    · rfl
  rw [hentry] at htake
  obtain ⟨hend, htiled, hroom⟩ := htake.tiled hframe
  cases h
  dsimp only
  rw [hclosed]
  refine ⟨hnames, ⟨htake.stored, fun decl signature hfunction => ?_⟩, hend, hvariables ▸ htiled, hroom⟩
  exact absurd hfunction (hkind decl (some signature))

theorem layRoutine_adds (hsound : r.Sound) (hframe : a.layout.frame = none)
    (h : layRoutine node language a r = .ok (r', a')) : Adds node a.layout.memory r r' a'.layout.memory := by
  unfold layRoutine at h
  split at h
  · rename_i decl signature hkind
    exact layFunction_adds (hsound decl signature hkind) h
  · rename_i name hkind
    split at h
    · cases h
    · exact layPlain_adds (a := { a with subs := name :: a.subs }) (hkind ▸ nofun) hframe h
  · exact layPlain_adds (‹r.kind = _› ▸ nofun) hframe h
  · exact layPlain_adds (‹r.kind = _› ▸ nofun) hframe h

/-- The routines of a program take the words of the memory one behind another. -/
theorem layAll_stored : ∀ {rs rs' : List Routine} {a : Allocation}, (∀ r ∈ rs, r.Sound) →
    a.layout.frame = none → layAll node language a rs = .ok (rs', a') →
    rs'.map (·.names) = rs.map (·.names) ∧ (∀ r ∈ rs', r.Stored) ∧
      ((∀ v ∈ rs'.flatMap (·.moduleVariables), v.Counted) →
        Tiled a.layout.moduleTop (rs'.flatMap (·.moduleVariables)) a'.layout.moduleTop) ∧
      (a.layout.moduleTop ≤ node.returnSlot → a'.layout.moduleTop ≤ node.returnSlot)
  | [], _, _, _, _, h => by
    cases h
    exact ⟨rfl, nofun, fun _ => rfl, id⟩
  | r :: rs, _, a, hsound, hframe, h => by
    obtain ⟨⟨r', a1⟩, hr, h⟩ := bind_eq_ok.mp h
    obtain ⟨⟨rs', a2⟩, hrs, h⟩ := bind_eq_ok.mp h
    cases h
    have hadds := layRoutine_adds (hsound r List.mem_cons_self) hframe hr
    obtain ⟨hnames, hstored, htiled, hroom⟩ :=
      layAll_stored (fun q hq => hsound q (List.mem_cons_of_mem _ hq)) hadds.frame hrs
    refine ⟨?_, ?_, fun hcounted => ?_, fun hle => hroom (hadds.room hle)⟩
    · rw [List.map_cons, List.map_cons, hadds.names, hnames]
    · rintro q (_ | ⟨_, hq⟩)
      · exact hadds.stored
      · exact hstored q hq
    · rw [List.flatMap_cons] at hcounted ⊢
      rw [List.forall_mem_append] at hcounted
      exact (hadds.tiled hcounted.1).append (htiled hcounted.2)

end Allocation

/-! ### Programs -/

/-- The words of the node's own variables are counted right, and two more. -/
def Node.Counted (node : Node) : Prop :=
  node.predefined.foldr (fun v n => v.size + n) 0 + 2 < 0x10000000000000000

theorem Node.variablesSize_eq {node : Node} (h : node.Counted) :
    node.variablesSize = node.predefined.foldr (fun v n => v.size + n) 0 := by
  have hsum : ∀ vs : List NodeVariable, vs.foldr (fun v n => v.size + n) 0 < 0x10000000000000000 →
      vs.foldr (fun v n => counted (v.size + n)) 0 = vs.foldr (fun v n => v.size + n) 0 := by
    intro vs hvs
    induction vs with
    | nil => rfl
    | cons v vs ih =>
      rw [List.foldr_cons] at hvs
      rw [List.foldr_cons, List.foldr_cons, ih (by omega), counted_of_lt hvs]
  exact hsum _ (by unfold Node.Counted at h; omega)

theorem Node.returnSlot_of_ofJsonText {text : String} {node : Node} (h : Node.ofJsonText text = .ok node)
    (hcounted : node.Counted) : node.variablesSize ≤ node.returnSlot := by
  have hlt : node.variablesSize + 2 < 0x10000000000000000 := Node.variablesSize_eq hcounted ▸ hcounted
  have hchecked : ∀ n : Node, n.checked = .ok node → node.variablesSize + 2 ≤ node.maxVarSize := by
    intro n hn
    unfold Node.checked at hn
    split at hn
    · cases hn
    · cases hn
      rw [counted_of_lt hlt] at *
      omega
  unfold Node.ofJsonText Node.ofJson at h
  split at h
  · split at h
    · have := hchecked _ h
      unfold Node.returnSlot
      omega
    · cases h
  · cases h

namespace Routine

variable {ls : List Line} {rs : List Routine}

theorem Sections.not_function {r : Routine} (h : Sections rs r ls) :
    ∀ q ∈ rs ++ [r], ∀ decl signature, q.kind ≠ .function decl signature := by
  induction h with
  | init _ =>
    intro q hq
    cases List.mem_singleton.mp hq
    exact nofun
  | header head span _ _ ih =>
    intro q hq
    rcases List.mem_append.mp hq with hq | hq
    · exact ih q hq
    · cases List.mem_singleton.mp hq
      cases head with
      | onEvent name => exact nofun
      | sub name => exact nofun

theorem Interleaved.function_mem {body : List Stmt} (h : Interleaved body rs ls) :
    ∀ r ∈ rs, ∀ decl signature, r.kind = .function decl signature →
    .opening (.function decl) r.span ∈ ls := by
  induction h with
  | nil => exact nofun
  | stmt _ _ ih => exact fun r hr decl signature hkind => List.mem_append_left _ (ih r hr _ _ hkind)
  | routine opener span stop _ hopener _ ih =>
    intro r hr decl signature hkind
    refine List.mem_append_left _ ?_
    rcases List.mem_append.mp hr with hr | hr
    · exact List.mem_append_left _ (ih r hr decl signature hkind)
    · cases List.mem_singleton.mp hr
      cases hkind
      refine List.mem_append_right _ ?_
      cases opener with
      | function decl' =>
        cases hopener
        exact List.mem_cons_self
      | _ => cases hopener

/-- Functions that are read have sound parameters. -/
theorem AllFlat.sound {language : Language} (h : AllFlat language rs ls)
    (hstands : ∀ l ∈ ls, l.standsIn language = true) : ∀ r ∈ rs, r.Sound := by
  intro r hr decl signature hkind
  cases language with
  | simple =>
    obtain ⟨rs', r', rfl, hrs⟩ := h
    exact absurd hkind (hrs.not_function r hr decl signature)
  | l2 =>
    obtain ⟨body, rs', rfl, hrs⟩ := h
    rcases List.mem_cons.mp hr with rfl | hr
    · cases hkind
    · have hline := hstands _ (hrs.function_mem r hr decl signature hkind)
      simpa [Line.standsIn, Opener.standsIn] using hline

end Routine

end RobotScript
