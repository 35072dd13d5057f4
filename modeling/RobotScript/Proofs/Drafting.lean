/-
# Drafts of the code of expressions

All code that is generated for expressions has a draft. What generating code
does to the temporaries is followed along: `Brings` says that each step can be
followed, and what is known of its value and of the last temporary handed out
behind it.

Key definitions: `Coding.Brings`, `Expr.Drafted`.
Key theorem: `Expr.drafted`.
-/
import RobotScript.Proofs.Drafts
import RobotScript.Proofs.Temporaries

namespace RobotScript

open Machine (Instr Unary Binary)
open Draft (plain)

namespace Coding

/-- Whenever the step gives a value, it can be followed, and if `t` was the last
temporary handed out before it, the value and the last temporary behind it are
as `Q` says. -/
def Brings (c : Coder) {α : Type} (t : Nat) (x : Coding α) (Q : α → Nat → Prop) : Prop :=
  ∀ s a s', s.nextTemp = t → x s = .ok (a, s') → (∃ es, Acts c x s es a s') ∧ Q a s'.nextTemp

namespace Brings

variable {c : Coder} {α β : Type} {t : Nat} {x : Coding α} {Q Q' : α → Nat → Prop} {R : β → Nat → Prop}

theorem pure {a : α} (h : Q a t) : Brings c t (pure a) Q := by
  rintro s _ _ rfl ⟨⟩
  exact ⟨⟨[], .pure⟩, h⟩

theorem bind {f : α → Coding β} (h : Brings c t x Q) (hf : ∀ a t', Q a t' → Brings c t' (f a) R) :
    Brings c t (x >>= f) R := by
  intro s b s'' ht hrun
  obtain ⟨⟨a, s'⟩, hx, hrest⟩ := bind_eq_ok.mp hrun
  obtain ⟨⟨es, hes⟩, hQ⟩ := h s a s' ht hx
  obtain ⟨⟨es', hes'⟩, hR⟩ := hf a s'.nextTemp hQ s' b s'' rfl hrest
  exact ⟨⟨es ++ es', .bind hes hes'⟩, hR⟩

theorem mono (h : Brings c t x Q) (hQ : ∀ a t', Q a t' → Q' a t') : Brings c t x Q' :=
  fun s a s' ht hrun => (h s a s' ht hrun).imp_right (hQ a _)

theorem lift {r : Result α} (h : ∀ a, r = .ok a → Q a t) : Brings c t (liftM r : Coding α) Q := by
  rintro s a s' rfl hrun
  cases r with
  | ok b =>
    cases hrun
    exact ⟨⟨[], .lift rfl⟩, h _ rfl⟩
  | error e => cases hrun

theorem fail {e : CompileError} : Brings c t (liftM (.error e : Result α) : Coding α) Q := .lift nofun

theorem inReach {o : Option α} (h : ∀ a, o = some a → Q a t) : Brings c t (Coding.inReach o) Q := by
  cases o with
  | some a => exact .pure (h a rfl)
  | none => exact .fail

theorem inReach_bind {o : Option α} {f : α → Coding β} (h : ∀ a, o = some a → Brings c t (f a) R) :
    Brings c t (Coding.inReach o >>= f) R :=
  bind (Q := fun a t' => t = t' ∧ o = some a) (.inReach fun _ ha => ⟨rfl, ha⟩) fun a _ ⟨ht, ha⟩ =>
    ht ▸ h a ha

/-- The value of a step that is known goes on. -/
theorem known {a : α} {f : α → Coding β} (h : Brings c t x fun b t' => t = t' ∧ b = a)
    (hf : Brings c t (f a) R) : Brings c t (x >>= f) R := by
  refine h.bind ?_
  rintro _ _ ⟨rfl, rfl⟩
  exact hf

/-- The code of a step that has a draft goes on. -/
theorem draft {x : Coding Code} {f : Code → Coding β} {P : Draft → Nat → Prop}
    (h : Brings c t x fun k t' => ∃ K : Draft, K.code = k ∧ P K t')
    (hf : ∀ K t', P K t' → Brings c t' (f K.code) R) : Brings c t (x >>= f) R := by
  refine h.bind ?_
  rintro _ t' ⟨K, rfl, hK⟩
  exact hf K t' hK

theorem placedAt {span : Span} (h : Brings c t x Q) : Brings c t (Coding.placedAt span x) Q := by
  intro s a s' ht hrun
  unfold Coding.placedAt at hrun
  cases hx : x s with
  | error e =>
    rw [hx] at hrun
    cases hrun
  | ok r =>
    rw [hx] at hrun
    cases hrun
    obtain ⟨⟨es, hes⟩, hQ⟩ := h s a s' ht hx
    exact ⟨⟨es, .placedAt hes⟩, hQ⟩

theorem get_bind {f : State → Coding β} (h : ∀ s, s.nextTemp = t → Brings c t (f s) R) :
    Brings c t (get >>= f) R := by
  intro s b s' ht hrun
  obtain ⟨⟨es, hes⟩, hR⟩ := h s ht s b s' ht hrun
  exact ⟨⟨[] ++ es, .bind .get hes⟩, hR⟩

end Brings
end Coding

open Coding (Brings)

variable {c : Coder} {t t' : Nat}

namespace Coder

theorem temps_brings (n : Nat) : Brings c t (c.temps n)
    fun base t' => base = t' ∧ base + n = t ∧ c.moduleSize ≤ base := by
  rintro s base s' rfl hrun
  obtain ⟨hnext, hbase, hlast⟩ := Coding.temps_eq_ok hrun
  exact ⟨⟨_, .temps hrun⟩, hlast.symm, hnext, hbase⟩

theorem address_brings (addr : Nat) : Brings c t (c.address addr)
    fun w t' => t = t' ∧ w = UInt16.ofNat addr ∧ c.Fits addr := by
  unfold address
  split
  · exact .get_bind fun s _ => .fail
  · rename_i h
    rw [not_or, Nat.not_le, Nat.not_le] at h
    exact .pure ⟨rfl, rfl, h⟩

theorem popInto_brings (base : Nat) : ∀ n, Brings c t (c.popInto base n)
    fun k t' => t = t' ∧ k = Code.plain (pops base n)
  | 0 => .pure ⟨rfl, rfl⟩
  | n + 1 => by
    unfold popInto
    refine (address_brings _).bind ?_
    rintro _ _ ⟨rfl, rfl, -⟩
    refine (popInto_brings base n).known ?_
    refine .pure ⟨rfl, ?_⟩
    unfold pops
    rw [List.range_succ, List.reverse_append]
    rfl

theorem popToTemps_brings (n : Nat) : Brings c t (c.popToTemps n)
    fun x t' => x = (Code.plain (pops t' n), t') ∧ t' + n = t ∧ c.moduleSize ≤ t' := by
  unfold popToTemps
  refine (temps_brings n).bind ?_
  rintro base _ ⟨rfl, hnext, hbase⟩
  refine (popInto_brings base n).known ?_
  exact .pure ⟨rfl, hnext, hbase⟩

theorem drop_brings : Brings c t c.drop
    fun k t' => k = Code.plain [.store (UInt16.ofNat t')] ∧ t' + 1 = t ∧ c.moduleSize ≤ t' := by
  unfold drop
  refine (temps_brings 1).bind ?_
  rintro base _ ⟨rfl, ht, hbase⟩
  refine (address_brings base).bind ?_
  rintro _ _ ⟨rfl, rfl, -⟩
  exact .pure ⟨rfl, ht, hbase⟩

theorem concat_brings {α : Type} {f : α → Coding Code} {g : α → List Instr} : ∀ {xs : List α},
    (∀ x ∈ xs, Brings c t (f x) fun k t' => t = t' ∧ k = Code.plain (g x)) →
    Brings c t (concat xs f) fun k t' => t = t' ∧ k = Code.plain (xs.flatMap g) := by
  intro xs h
  have hall : Brings c t (xs.mapM f) fun ks t' => t = t' ∧ ks = xs.map fun x => Code.plain (g x) := by
    induction xs with
    | nil =>
      rw [List.mapM_nil]
      exact .pure ⟨rfl, rfl⟩
    | cons x xs ih =>
      rw [List.mapM_cons]
      refine (h x List.mem_cons_self).known ?_
      refine (ih fun y hy => h y (List.mem_cons_of_mem _ hy)).known ?_
      exact .pure ⟨rfl, rfl⟩
  refine hall.known ?_
  refine .pure ⟨rfl, ?_⟩
  simp [Code.plain, List.flatMap_def, List.map_flatten, Function.comp_def]

end Coder

/-! ### Places -/

/-- There is a draft for the job with the code given. -/
def Job.Made (c : Coder) (job : Job) (t : Nat) (k : Code) (t' : Nat) : Prop :=
  ∃ K : Draft, K.code = k ∧ Emits c job t K t'

/-- The element of a place, as code is generated for it. -/
def Spot.element (c : Coder) (s : Storage) : Spot → Element
  | .known k => .known k
  | .computed es => .computed (Expr.positionCode c s.dims 0 1 es)
  | .saved temp => .saved (UInt16.ofNat temp)

/-- The place in a variable, as code is generated for it. -/
def Spot.place (c : Coder) (s : Storage) (spot : Spot) : Place := ⟨s, spot.element c s⟩

/-- The code of the position has a draft. -/
def Spot.Drafted (c : Coder) (s : Storage) (spot : Spot) : Prop :=
  ∀ t, Brings c t (spot.place c s).position (Job.Made c (.position s.dims spot) t)

theorem Spot.drafted_known (s : Storage) (k : Nat) : (Spot.known k).Drafted c s :=
  fun _ => .pure ⟨plain [Coder.pushNat k], rfl, .known⟩

theorem Spot.drafted_saved (s : Storage) (temp : Nat) : (Spot.saved temp).Drafted c s :=
  fun _ => .pure ⟨plain [.load (UInt16.ofNat temp)], rfl, .saved⟩

theorem Storage.check_brings (s : Storage) (use : Use) (k : Nat) :
    Brings c t (s.check c use k) fun _ t' => t = t' ∧ s.Usable c use k := by
  have hcheck (addr : Nat) : Brings c t (c.check addr) fun _ t' => t = t' ∧ c.Fits addr := by
    refine (Coder.address_brings addr).bind ?_
    rintro _ _ ⟨rfl, -, hfits⟩
    exact .pure ⟨rfl, hfits⟩
  unfold Storage.check Storage.Usable
  cases s.mode with
  | reference => exact hcheck s.offset
  | absolute | frame =>
    cases use with
    | address => exact .pure ⟨rfl, trivial⟩
    | load | store => exact hcheck (s.offset + k)

/-- Each use of a place has a draft. -/
theorem Place.use_brings {s : Storage} {spot : Spot} (use : Use) (h : spot.Drafted c s) :
    Brings c t ((spot.place c s).use c use) (Job.Made c (.access use s spot) t) := by
  have hindexed (hdirect : s.direct? c use spot = none) : Brings c t (do
      s.check c use 0
      return .plain (s.front c use) ++ (← (spot.place c s).position) ++ .plain (s.back c use))
      (Job.Made c (.access use s spot) t) := by
    refine (s.check_brings use 0).bind ?_
    rintro _ _ ⟨rfl, hs⟩
    refine (h t).draft fun K t' hK => ?_
    exact .pure ⟨_, by simp, .indexed hdirect hs hK⟩
  rw [Place.use_eq]
  cases spot with
  | known k =>
    cases hdirect : s.fixed? c use k with
    | none => simpa only [Place.direct?, Spot.place, Spot.element, hdirect] using hindexed hdirect
    | some is =>
      simp only [Place.direct?, Spot.place, Spot.element, hdirect]
      refine (s.check_brings use k).bind ?_
      rintro _ _ ⟨rfl, hs⟩
      exact .pure ⟨_, by simp, .direct hdirect hs⟩
  | computed es => exact hindexed rfl
  | saved temp => exact hindexed rfl

/-! ### Calls -/

namespace Draft

@[simp] theorem code_reachPure (goal : Goal) (K : Draft) :
    (reachPure goal K).code = Coder.reachPure goal K.code := by
  cases goal with
  | value | effect => rfl
  | test => simp [reachPure, Coder.reachPure]

@[simp] theorem code_reachUsed (goal : Goal) (K : Draft) :
    (reachUsed goal K).code = Coder.reachUsed goal K.code := by
  cases goal with
  | value | effect => rfl
  | test => simp [reachUsed, Coder.reachUsed]

end Draft

namespace Coder

/-- The code of several steps, which pushes numbers. -/
theorem lastFirst_pushes (addrs : List Nat) :
    Brings c t (lastFirst (addrs.map fun addr => (return .plain [pushNat addr] : Coding Code)))
      fun k t' => t = t' ∧ k = Code.plain (addrs.reverse.map pushNat) := by
  induction addrs with
  | nil => exact .pure ⟨rfl, rfl⟩
  | cons addr addrs ih =>
    refine ih.known ?_
    refine Brings.bind (.pure ⟨rfl, rfl⟩) (Q := fun k t' => t = t' ∧ k = Code.plain [pushNat addr]) ?_
    rintro _ _ ⟨rfl, rfl⟩
    exact .pure ⟨rfl, by simp [Code.plain]⟩

/-- A firmware function is called on arguments whose addresses have a draft. -/
theorem callNative_brings {name : String} {args : List (Coding Code)} {sizes : List Nat} {span : Span}
    {Q : Code → Nat → Prop} (h : Brings c t (lastFirst args) Q) :
    Brings c t (c.callNative name args sizes span) fun k t' => ∃ id groups free addresses,
      c.Natively name sizes id groups free ∧ Q addresses t' ∧
      k = .plain (groups.map pushNat ++ free.reverse.map pushNat) ++ addresses ++
        .plain [.callNative id] := by
  unfold callNative
  split
  · exact .fail
  · rename_i id f hf
    split
    · exact .fail
    · rename_i hlength
      split
      · exact .fail
      · rename_i groups free hsizes
        refine h.bind fun addresses t' hQ => .pure ⟨id, groups, free, addresses, ?_, hQ, rfl⟩
        exact ⟨f, hf, Decidable.not_not.mp hlength, hsizes⟩

theorem callOnValues_brings (name : String) (n : Nat) (used : Bool) (span : Span) :
    Brings c t (c.callOnValues name n used span) fun k t' =>
      ∃ K : Draft, K.code = k ∧ OnValues c name n used t K t' := by
  unfold callOnValues
  refine (temps_brings (n + 1)).bind ?_
  rintro base _ ⟨rfl, rfl, hbase⟩
  refine (popInto_brings base n).known ?_
  refine (callNative_brings (lastFirst_pushes ((base + n) :: (List.range n).map (base + ·)))).bind ?_
  rintro _ _ ⟨id, groups, free, _, hcall, ⟨rfl, rfl⟩, rfl⟩
  cases used with
  | true =>
    refine (address_brings (base + n)).bind ?_
    rintro _ _ ⟨rfl, rfl, -⟩
    exact .pure ⟨_, by simp [nativeDraft], .intro hbase hcall⟩
  | false => exact .pure ⟨_, by simp [nativeDraft, Code.plain], .intro hbase hcall⟩

theorem reach_brings (goal : Goal) (K : Draft) : Brings c t (c.reach goal K.code) fun k t' =>
    ∃ K' : Draft, K'.code = k ∧ Fitted c goal K t K' t' := by
  cases goal with
  | value => exact .pure ⟨K, rfl, .value⟩
  | effect =>
    refine drop_brings.bind ?_
    rintro _ t' ⟨rfl, rfl, ht⟩
    exact .pure ⟨_, by simp, .effect ht⟩
  | test => exact .pure ⟨_, by simp, .test⟩

theorem arithmetic_brings (b : Binary) (xTy yTy : Ty) (x y : Draft) (span : Span) :
    Brings c t (c.arithmetic b xTy yTy x.code y.code span) fun k t' =>
      ∃ K : Draft, K.code = k ∧ Combines c b xTy yTy x y t K t' := by
  have hscaled (K : Draft) (h : c.scaledOperands b xTy yTy x y = some K) :
      Brings c t (do return K.code ++ (← c.callOnValues "math.muldiv" 3 true span)) fun k t' =>
        ∃ K : Draft, K.code = k ∧ Combines c b xTy yTy x y t K t' := by
    refine (callOnValues_brings _ _ _ _).draft fun K' t' hK' => ?_
    exact .pure ⟨K ++ K', by simp, .scaled h hK'⟩
  unfold arithmetic
  dsimp only
  split
  · rename_i hx hy
    have := hscaled (x ++ y ++ plain [.immediate c.settings.factor]) (by simp [scaledOperands, hx, hy])
    simpa using this
  · rename_i hx hy
    have := hscaled (x ++ plain [.immediate c.settings.factor] ++ y) (by simp [scaledOperands, hx, hy])
    simpa using this
  · rename_i hx hy
    have := hscaled (x ++ plain [.immediate (toCell (c.settings.factor.toInt32 *
      c.settings.factor.toInt32))] ++ y) (by simp [scaledOperands, hx, hy])
    simpa using this
  · refine .pure ⟨_, by simp, .plainly ?_⟩
    unfold scaledOperands
    dsimp only
    split <;> simp_all

/-- The temporaries in use are those from the last one on. -/
theorem liveTemps_brings : Brings c t c.liveTemps fun live t' =>
    t = t' ∧ live = (List.range (c.live t)).map fun k => (k, t + k) := by
  refine .get_bind ?_
  rintro s rfl
  exact .pure ⟨rfl, rfl⟩

/-- Instructions with an address for operand. -/
theorem operand_brings (a : Nat) (g : Word → List Instr) :
    Brings c t (do return Code.plain (g (← c.address a))) fun k t' =>
      t = t' ∧ k = Code.plain (g (UInt16.ofNat a)) := by
  refine (address_brings a).bind ?_
  rintro _ _ ⟨rfl, rfl, -⟩
  exact .pure ⟨rfl, rfl⟩

/-- Instructions with two addresses for operands. -/
theorem operands_brings (a b : Nat) (g : Word → Word → List Instr) :
    Brings c t (do
      let x ← c.address a
      let y ← c.address b
      return Code.plain (g x y)) fun k t' =>
      t = t' ∧ k = Code.plain (g (UInt16.ofNat a) (UInt16.ofNat b)) := by
  refine (address_brings a).bind ?_
  rintro _ _ ⟨rfl, rfl, -⟩
  exact operand_brings b (g _)

theorem callFromFunction_brings {frame : Nat} (hframe : c.frameSize = some frame) (s : Signature)
    (span : Span) : Brings c t (c.callFromFunction frame s span) fun k t' =>
      t = t' ∧ k = (c.callDraft s t false span).code := by
  have hbase : c.calleeBase t = frame + c.live t := by rw [calleeBase, hframe]; rfl
  unfold callFromFunction
  refine liveTemps_brings.known ?_
  dsimp only
  rw [List.length_map, List.length_range]
  refine (concat_brings fun p _ => operand_brings _ fun slot =>
    [.load c.frameSlot, .storeIndirect slot c.memorySize]).known ?_
  refine (concat_brings fun x _ => operands_brings _ _ fun temp slot =>
    [.load temp, .load c.frameSlot, .storeIndirect slot c.memorySize]).known ?_
  refine (concat_brings fun x _ => operands_brings _ _ fun temp slot =>
    [.load c.frameSlot, .loadIndirect slot c.memorySize, .store temp]).known ?_
  refine .pure ⟨rfl, ?_⟩
  simp [callDraft, callFront, callReset, callRestore, callResult, hframe, hbase, Code.plain,
    List.flatMap_map]

theorem callFromModule_brings (hframe : c.frameSize = none) (s : Signature) (span : Span) :
    Brings c t (c.callFromModule s span) fun k t' =>
      t = t' ∧ k = (c.callDraft s t false span).code := by
  have hbase : c.calleeBase t = c.moduleSize + c.live t := by rw [calleeBase, hframe]; rfl
  unfold callFromModule
  refine liveTemps_brings.known ?_
  dsimp only
  rw [List.length_map, List.length_range]
  refine (concat_brings fun p _ => operand_brings _ fun slot => [.store slot]).known ?_
  refine (concat_brings fun x _ => operands_brings _ _ fun temp slot =>
    [.load temp, .store slot]).known ?_
  refine (concat_brings fun x _ => operands_brings _ _ fun temp slot =>
    [.load slot, .store temp]).known ?_
  refine .pure ⟨rfl, ?_⟩
  simp [callDraft, callFront, callReset, callRestore, callResult, hframe, hbase, Code.plain,
    List.flatMap_map]

theorem callFunction_brings (s : Signature) (used : Bool) (span : Span) :
    Brings c t (c.callFunction s used span) fun k t' =>
      t = t' ∧ k = (c.callDraft s t used span).code := by
  have hresult (k : Code) (t' : Nat) (hk : t = t' ∧ k = (c.callDraft s t false span).code) :
      Brings c t' (pure (if used then k ++ .plain [.load c.returnSlot] else k)) fun k t' =>
        t = t' ∧ k = (c.callDraft s t used span).code := by
    obtain ⟨rfl, rfl⟩ := hk
    refine .pure ⟨rfl, ?_⟩
    cases used <;> simp [callDraft, callResult, Code.plain]
  unfold callFunction
  dsimp only
  split
  · exact (callFromFunction_brings ‹_› s span).bind hresult
  · exact (callFromModule_brings ‹_› s span).bind hresult

end Coder

/-! ### Expressions -/

/-- The code that comes first and the place of an expression have drafts. -/
def PlaceMade (c : Coder) (reused : Bool) (e : Expr) (t : Nat) (x : Code × Place) (t' : Nat) : Prop :=
  ∃ (K : Draft) (s : Storage) (spot : Spot), x = (K.code, spot.place c s) ∧
    Emits c (.place reused e s spot) t K t' ∧ spot.Drafted c s

/-- The code of an expression and of its place has drafts. -/
structure Expr.Drafted (c : Coder) (e : Expr) : Prop where
  code : ∀ goal t, Brings c t (e.code c goal) (Job.Made c (.expr goal e) t)
  place : ∀ reused t, Brings c t (e.placeOf c reused) (PlaceMade c reused e t)

namespace Coder

theorem stored_brings (v : Variable) : Brings c t (liftM v.stored : Coding Storage)
    fun s t' => t = t' ∧ v.storage = some s := by
  refine .lift fun s hs => ⟨rfl, ?_⟩
  unfold Variable.stored at hs
  split at hs
  · rename_i hv
    rw [hv, Except.ok.inj hs]
  · cases hs

theorem elementPlace_eq (reused : Bool) (s : Storage) (es : List Expr) (position : Coding Code) :
    c.elementPlace reused s es position = match Expr.knownIndex? es with
      | some k => return ([], ⟨s, .known k⟩)
      | none =>
        if reused && !Expr.allPure es then do
          let code ← position
          let temp ← c.address (← c.temps 1)
          return (code ++ .plain [.store temp], ⟨s, .saved temp⟩)
        else return ([], ⟨s, .computed position⟩) := rfl

theorem elementPlace_brings {reused : Bool} {i : Info} {v : Variable} {s : Storage} {es : List Expr}
    (hv : v.storage = some s)
    (h : ∀ t, Brings c t (Expr.positionCode c s.dims 0 1 es) (Job.Made c (.indices s.dims 0 1 es) t)) :
    Brings c t (c.elementPlace reused s es (Expr.positionCode c s.dims 0 1 es))
      (PlaceMade c reused (.index i v es) t) := by
  rw [elementPlace_eq]
  cases hes : Expr.knownIndex? es with
  | some k => exact .pure ⟨_, s, .known k, rfl, .knownPlace hv hes, Spot.drafted_known s k⟩
  | none =>
    dsimp only
    split
    · rename_i hreused
      obtain rfl : reused = true := (Bool.and_eq_true _ _ ▸ hreused).1
      refine (h t).draft fun K t1 hK => ?_
      refine (temps_brings 1).bind ?_
      rintro base _ ⟨rfl, rfl, hbase⟩
      refine (address_brings base).bind ?_
      rintro _ _ ⟨rfl, rfl, -⟩
      exact .pure ⟨K ++ .note (.temps c.frameSize base) :: plain [.store (UInt16.ofNat base)], s,
        .saved base, by simp [Spot.place, Spot.element], .savedPlace hv hes hK hbase,
        Spot.drafted_saved s base⟩
    · rename_i hreused
      have hpure : reused = true → Expr.allPure es = true := by
        rintro rfl
        simpa using hreused
      refine .pure ⟨[], s, .computed es, rfl, .computedPlace hv hes hpure, fun t => ?_⟩
      refine (h t).mono ?_
      rintro _ t' ⟨K, rfl, hK⟩
      exact ⟨K, rfl, .computed hK⟩

/-- The word of a place is pushed if it is wanted. -/
theorem kept_brings {s : Storage} {spot : Spot} {used : Bool} {x y : Coding Code} {Q : Code → Nat → Prop}
    (hs : spot.Drafted c s)
    (hload : used = true → Brings c t ((spot.place c s).load c) (Job.Made c (.kept used s spot) t) →
      Brings c t x Q)
    (hnone : used = false → Job.Made c (.kept used s spot) t [] t → Brings c t y Q) :
    Brings c t (if used = true then x else y) Q := by
  cases used with
  | false => exact hnone rfl ⟨[], rfl, .notKept⟩
  | true =>
    refine hload rfl ((Place.use_brings .load hs).mono ?_)
    rintro _ t' ⟨K, rfl, hK⟩
    exact ⟨K, rfl, .kept hK⟩

/-- An assignment to a place that has a draft. -/
theorem assign_brings {goal : Goal} {i : Info} {o : Op} {target value : Expr} {s : Storage}
    {spot : Spot} {K : Draft} {t0 : Nat} (ho : o.isAssignment = true)
    (hK : Emits c (.place (goal ≠ .effect || o ≠ .assign) target s spot) t0 K t)
    (hs : spot.Drafted c s) (hvalue : value.Drafted c) :
    Brings c t (c.assign o (goal ≠ .effect) (spot.place c s) (value.code c .value)) fun k t' =>
      Job.Made c (.expr goal (.op i o [target, value])) t0 (reachUsed goal (K.code ++ k)) t' := by
  have hpost (ho : o = .postIncrement ∨ o = .postDecrement) (k : Code) (t1 : Nat)
      (hk : Job.Made c (.kept (goal ≠ .effect) s spot) t k t1) :
      Brings c t1 (do
        let old ← (spot.place c s).load c
        let value ← value.code c .value
        return k ++ old ++ value ++ (← (spot.place c s).store c)) fun k t' =>
      Job.Made c (.expr goal (.op i o [target, value])) t0 (reachUsed goal (K.code ++ k)) t' := by
    obtain ⟨K1, rfl, hK1⟩ := hk
    refine (Place.use_brings .load hs).draft fun K2 t2 hK2 => ?_
    refine (hvalue.code .value t2).draft fun K3 t3 hK3 => ?_
    refine (Place.use_brings .store hs).draft fun K4 t4 hK4 => ?_
    exact .pure ⟨_, by simp, .post ho hK hK1 hK2 hK3 hK4⟩
  unfold assign
  split
  · refine (hvalue.code .value t).draft fun K1 t1 hK1 => ?_
    refine (Place.use_brings .store hs).draft fun K2 t2 hK2 => ?_
    refine kept_brings hs (fun _ hload => hload.bind ?_) fun _ hnone => ?_
    · rintro _ t3 ⟨K3, rfl, hK3⟩
      exact .pure ⟨_, by simp, .assign hK hK1 hK2 hK3⟩
    · obtain ⟨K3, hcode, hK3⟩ := hnone
      exact .pure ⟨_, by simp [hcode], .assign hK hK1 hK2 hK3⟩
  · exact kept_brings hs (fun _ hload => hload.bind (hpost (.inl rfl))) fun _ hnone =>
      hpost (.inl rfl) [] t hnone
  · exact kept_brings hs (fun _ hload => hload.bind (hpost (.inr rfl))) fun _ hnone =>
      hpost (.inr rfl) [] t hnone
  · rename_i hassign hinc hdec
    refine (Place.use_brings .load hs).draft fun K1 t1 hK1 => ?_
    refine (hvalue.code .value t1).draft fun K2 t2 hK2 => ?_
    refine (Place.use_brings .store hs).draft fun K3 t3 hK3 => ?_
    refine kept_brings hs (fun _ hload => hload.bind ?_) fun _ hnone => ?_
    · rintro _ t4 ⟨K4, rfl, hK4⟩
      exact .pure ⟨_, by simp, .update ho ⟨hassign, hinc, hdec⟩ hK hK1 hK2 hK3 hK4⟩
    · obtain ⟨K4, hcode, hK4⟩ := hnone
      exact .pure ⟨_, by simp [hcode], .update ho ⟨hassign, hinc, hdec⟩ hK hK1 hK2 hK3 hK4⟩

end Coder

namespace Expr

theorem positionCode_brings (dims : List Nat) : ∀ (j stride : Nat) {es : List Expr},
    (∀ e ∈ es, e.Drafted c) → ∀ t,
    Brings c t (positionCode c dims j stride es) (Job.Made c (.indices dims j stride es) t)
  | _, _, [], _, _ => .pure ⟨[], rfl, .noIndex⟩
  | j, stride, e :: es, h, t => by
    unfold positionCode
    refine ((h e List.mem_cons_self).code .value t).draft fun K t1 hK => ?_
    refine (positionCode_brings dims _ _ (fun a ha => h a (List.mem_cons_of_mem _ ha)) t1).draft
      fun K' t2 hK' => ?_
    exact .pure ⟨_, by simp, .indexOf hK hK'⟩

theorem valuesCode_brings : ∀ {es : List Expr}, (∀ e ∈ es, e.Drafted c) → ∀ t,
    Brings c t (valuesCode c es) (Job.Made c (.values es) t)
  | [], _, _ => .pure ⟨[], rfl, .noValue⟩
  | e :: es, h, t => by
    unfold valuesCode
    refine ((h e List.mem_cons_self).code .value t).draft fun K t1 hK => ?_
    refine (valuesCode_brings (fun a ha => h a (List.mem_cons_of_mem _ ha)) t1).draft fun K' t2 hK' => ?_
    exact .pure ⟨_, by simp, .valueOf hK hK'⟩

/-- Each argument has a draft. -/
theorem argumentsCode_brings {ps : List Param} {es : List Expr} (hlength : es.length = ps.length)
    (h : ∀ e ∈ es, e.Drafted c) (t : Nat) : Brings c t (argumentsCode c ps es) fun k t' =>
      ∃ (ks : Nat → Draft) (ts : Nat → Nat), k = Draft.code ((List.range es.length).flatMap ks) ∧
        ts 0 = t ∧ ts es.length = t' ∧ ∀ j p e, ps[j]? = some p → es[j]? = some e →
          Emits c (.argument p e) (ts j) (ks j) (ts (j + 1)) := by
  induction ps generalizing es t with
  | nil =>
    obtain rfl := List.eq_nil_of_length_eq_zero hlength
    unfold argumentsCode
    exact .pure ⟨fun _ => [], fun _ => t, rfl, rfl, rfl, by rintro _ _ _ ⟨⟩⟩
  | cons p ps ih =>
    obtain ⟨e, es, rfl⟩ := List.exists_cons_of_length_eq_add_one hlength
    have hrest (k : Code) (t1 : Nat) (hk : Job.Made c (.argument p e) t k t1) :
        Brings c t1 (do return k ++ (← argumentsCode c ps es)) fun k t' =>
          ∃ (ks : Nat → Draft) (ts : Nat → Nat),
            k = Draft.code ((List.range (e :: es).length).flatMap ks) ∧
            ts 0 = t ∧ ts (e :: es).length = t' ∧ ∀ j p' e', (p :: ps)[j]? = some p' →
              (e :: es)[j]? = some e' → Emits c (.argument p' e') (ts j) (ks j) (ts (j + 1)) := by
      obtain ⟨K, rfl, hK⟩ := hk
      refine (ih (Nat.succ.inj hlength)
        (fun a ha => h a (List.mem_cons_of_mem _ ha)) t1).bind ?_
      rintro _ t2 ⟨ks, ts, rfl, hfirst, hlast, hks⟩
      refine .pure ⟨fun j => Nat.casesOn j K ks, fun j => Nat.casesOn j t ts, ?_, rfl, hlast, ?_⟩
      · rw [List.length_cons, List.range_succ_eq_map, List.flatMap_cons, Draft.code_append,
          List.flatMap_map]
        rfl
      · intro j p' e' hp he
        cases j with
        | zero =>
          cases hp
          cases he
          change Emits c (.argument p e) t K (ts 0)
          rwa [hfirst]
        | succ j => exact hks j p' e' hp he
    have he := h e List.mem_cons_self
    unfold argumentsCode
    dsimp only
    split
    · rename_i hp
      refine (he.place false t).bind ?_
      rintro _ t1 ⟨K, s, spot, rfl, hK, hspot⟩
      refine (Place.use_brings .address hspot).draft fun K' t2 hK' => ?_
      exact hrest _ t2 ⟨K ++ K', by simp, .reference hp hK hK'⟩
    · rename_i hp
      refine (he.code .value t).draft fun K t1 hK => ?_
      exact hrest _ t1 ⟨K, rfl, .argument (Bool.not_eq_true _ ▸ hp) hK⟩

/-- The place that an expression stands for, if its indices have drafts. -/
theorem placeOf_brings (reused : Bool) {e : Expr}
    (h : ∀ i v indices, e = .index i v indices → ∀ a ∈ indices, a.Drafted c) (t : Nat) :
    Brings c t (e.placeOf c reused) (PlaceMade c reused e t) := by
  cases e with
  | var i v =>
    unfold placeOf
    refine (Coder.stored_brings v).bind ?_
    rintro s _ ⟨rfl, hv⟩
    exact .pure ⟨_, s, .known 0, rfl, .varPlace hv, Spot.drafted_known s 0⟩
  | index i v indices =>
    unfold placeOf
    refine (Coder.stored_brings v).bind ?_
    rintro s _ ⟨rfl, hv⟩
    exact Coder.elementPlace_brings hv (positionCode_brings _ _ _ (h i v indices rfl))
  | _ =>
    unfold placeOf
    exact .fail

/-- The code of an operator, if its operands, and theirs, have drafts. -/
theorem opCode_brings {i : Info} {o : Op} {args : List Expr} (hargs : ∀ a ∈ args, a.Drafted c)
    (hbranches : ∀ j es, .op j .conditionalElse es ∈ args → ∀ a ∈ es, a.Drafted c) (goal : Goal) (t : Nat) :
    Brings c t ((Expr.op i o args).code c goal) (Job.Made c (.expr goal (.op i o args)) t) := by
  have hreach (K : Draft) {k : Code} {t1 : Nat} (hk : K.code = k)
      (hK : ∀ K' t', Fitted c goal K t1 K' t' → Emits c (.expr goal (.op i o args)) t K' t') :
      Brings c t1 (c.reach goal k) (Job.Made c (.expr goal (.op i o args)) t) := by
    subst hk
    refine (Coder.reach_brings goal K).mono ?_
    rintro _ t' ⟨K', rfl, hK'⟩
    exact ⟨K', rfl, hK K' t' hK'⟩
  have hlogic (x y : Expr) (hx : x.Drafted c) (hy : y.Drafted c) (ho : o = .logicAnd ∨ o = .logicOr)
      (hxy : args = [x, y]) : Brings c t (do c.reach goal (← c.logic o (x.code c .value) (y.code c .value)))
      (Job.Made c (.expr goal (.op i o args)) t) := by
    subst hxy
    refine Brings.bind (Q := fun k t2 => ∃ K : Draft, K.code = k ∧ ∀ K' t', Fitted c goal K t2 K' t' →
      Emits c (.expr goal (.op i o [x, y])) t K' t') ?_ ?_
    · unfold Coder.logic
      refine (hx.code .value t).draft fun K t1 hK => ?_
      refine (hy.code .value t1).draft fun K' t2 hK' => ?_
      refine Brings.inReach_bind fun skip hskip => ?_
      exact .pure ⟨_, by simp, fun L t' hL => .logic ho hK hK' hskip hL⟩
    · rintro _ t2 ⟨K, rfl, hK⟩
      exact hreach K rfl hK
  have hunary (x : Expr) (u : Unary) (hx : x.Drafted c) (ho : o.unary? = some u) (hargs : args = [x]) :
      Brings c t (do c.reach goal ((← x.code c .value) ++ .plain [.unary u]))
        (Job.Made c (.expr goal (.op i o args)) t) := by
    subst hargs
    refine (hx.code .value t).draft fun K t1 hK => ?_
    exact hreach (K ++ plain [.unary u]) (by simp) fun L t' hL => .unary ho hK hL
  unfold code
  split
  · rename_i b x y
    refine ((hargs x (by simp)).code .value t).draft fun K t1 hK => ?_
    refine ((hargs y (by simp)).code .value t1).draft fun K' t2 hK' => ?_
    split
    · rename_i hgoal
      obtain ⟨rfl, hb⟩ := hgoal
      exact .pure ⟨K ++ K', by simp, .comparison hb hK hK'⟩
    · rename_i hgoal
      refine (Coder.arithmetic_brings b x.ty y.ty K K' i.span).draft fun L t3 hL => ?_
      exact hreach L rfl fun L' t' hL' => .binary hgoal hK hK' hL hL'
  · rename_i x y
    exact hlogic x y (hargs x (by simp)) (hargs y (by simp)) (.inl rfl) rfl
  · rename_i x y
    exact hlogic x y (hargs x (by simp)) (hargs y (by simp)) (.inr rfl) rfl
  · exact hunary _ .neg (hargs _ (by simp)) rfl rfl
  · exact hunary _ .abs (hargs _ (by simp)) rfl rfl
  · exact hunary _ .bitNot (hargs _ (by simp)) rfl rfl
  · rename_i x
    refine ((hargs x (by simp)).code .value t).draft fun K t1 hK => ?_
    split
    · rename_i hgoal
      subst hgoal
      exact .pure ⟨K ++ plain [.immediate 0], by simp, .notTest hK⟩
    · rename_i hgoal
      exact hreach (K ++ plain [.immediate 0, .binary .eq]) (by simp) fun L t' hL => .not hgoal hK hL
  · rename_i ty x
    refine ((hargs x (by simp)).code .value t).draft fun K t1 hK => ?_
    exact hreach (K ++ plain (c.convert x.ty ty)) (by simp) fun L t' hL => .cast hK hL
  · rename_i cond j a b
    have hboth := hbranches j [a, b] (by simp)
    refine Brings.bind (Q := fun k t3 => ∃ K : Draft, K.code = k ∧ ∀ K' t', Fitted c goal K t3 K' t' →
      Emits c (.expr goal (.op i .conditional [cond, .op j .conditionalElse [a, b]])) t K' t') ?_ ?_
    · unfold Coder.choice
      refine ((hargs cond (by simp)).code .test t).draft fun K t1 hK => ?_
      refine ((hboth a (by simp)).code .value t1).draft fun K1 t2 hK1 => ?_
      refine Brings.inReach_bind fun br hbr => ?_
      refine ((hboth b (by simp)).code .value t2).draft fun K2 t3 hK2 => ?_
      refine Brings.inReach_bind fun skip hskip => ?_
      exact .pure ⟨_, by simp, fun L t' hL => .choice hK hK1 hbr hK2 hskip hL⟩
    · rintro _ t3 ⟨K, rfl, hK⟩
      exact hreach K rfl hK
  · exact .fail
  · exact .fail
  · rename_i a b
    refine ((hargs a (by simp)).code .effect t).draft fun K t1 hK => ?_
    refine ((hargs b (by simp)).code _ t1).draft fun K' t2 hK' => ?_
    exact .pure ⟨_, by simp, .comma hK hK'⟩
  · rename_i target value _ _ _ _ _ _ _
    split
    · rename_i ho
      refine ((hargs target (by simp)).place _ t).bind ?_
      rintro _ t1 ⟨K, s, spot, rfl, hK, hspot⟩
      refine (Coder.assign_brings (i := i) ho hK hspot (hargs value (by simp))).bind fun k t' hk => ?_
      exact .pure hk
    · exact .fail
  · exact .fail

/-- The code of an expression, and of the place that it stands for, has drafts. -/
theorem drafted (e : Expr) : e.Drafted c := by
  refine ⟨fun goal t => ?_, fun reused => placeOf_brings reused ?_⟩
  case refine_2 =>
    intro i v es he a ha
    have hlt := List.sizeOf_lt_of_mem ha
    have hsize := congrArg sizeOf he
    exact drafted a
  cases e with
  | number _ _ =>
    unfold code
    exact .pure ⟨_, by simp, .number⟩
  | fixed _ _ =>
    unfold code
    exact .pure ⟨_, by simp, .fixed⟩
  | placeholder _ =>
    unfold code
    exact .pure ⟨_, by simp, .placeholder⟩
  | array _ _ =>
    unfold code
    exact .fail
  | var i v =>
    unfold code
    split
    · rename_i hgoal
      subst hgoal
      exact .pure ⟨[], rfl, .unusedVar⟩
    · rename_i hgoal
      refine (Coder.stored_brings v).bind ?_
      rintro s _ ⟨rfl, hv⟩
      split
      · exact .fail
      · rename_i hsize
        refine (Place.use_brings .load (Spot.drafted_known s 0)).draft fun K t' hK => ?_
        exact .pure ⟨_, by simp, .var hgoal hv (Decidable.not_not.mp hsize) hK⟩
  | index i v indices =>
    have hindices : ∀ a ∈ indices, a.Drafted c := fun a _ => drafted a
    unfold code
    refine (Coder.stored_brings v).bind ?_
    rintro s _ ⟨rfl, hv⟩
    refine (Coder.elementPlace_brings (i := i) hv (positionCode_brings _ _ _ hindices)).bind ?_
    rintro _ t1 ⟨K, s', spot, rfl, hK, hspot⟩
    refine (Place.use_brings .load hspot).draft fun K' t2 hK' => ?_
    refine Brings.mono (Q := fun k t' => ∃ L : Draft, L.code = k ∧ Fitted c goal (K ++ K') t2 L t') ?_ ?_
    · simpa using Coder.reach_brings goal (K ++ K')
    · rintro _ t' ⟨L, rfl, hL⟩
      exact ⟨L, rfl, .index hK hK' hL⟩
  | call i name callee args =>
    have hargs : ∀ a ∈ args, a.Drafted c := fun a _ => drafted a
    unfold code
    split
    · split
      · exact .fail
      · rename_i hlength
        have hlength := Decidable.not_not.mp hlength
        refine (argumentsCode_brings hlength hargs t).bind ?_
        rintro _ _ ⟨ks, ts, rfl, rfl, rfl, hks⟩
        refine (Coder.callFunction_brings _ _ _).known ?_
        exact .pure ⟨_, by simp, .call ks ts hlength hks⟩
    · split
      · rename_i native hnative
        refine (valuesCode_brings hargs t).draft fun K t1 hK => ?_
        refine (Coder.callOnValues_brings _ _ _ _).draft fun K' t2 hK' => ?_
        exact .pure ⟨_, by simp, .native hnative hK hK'⟩
      · rename_i hnative
        split
        · rename_i x
          refine ((hargs x List.mem_cons_self).code .value t).draft fun K t1 hK => ?_
          refine Brings.mono (Q := fun k t' => ∃ L : Draft, L.code = k ∧
            Fitted c goal (K ++ plain [.unary .abs]) t1 L t') ?_ ?_
          · simpa using Coder.reach_brings goal (K ++ plain [.unary .abs])
          · rintro _ t' ⟨L, rfl, hL⟩
            exact ⟨L, rfl, .absolute hnative hK hL⟩
        · exact .fail
    · exact .fail
  | op info o args =>
    refine opCode_brings (fun a _ => drafted a) (fun i es hes a ha => ?_) goal t
    have hinner := List.sizeOf_lt_of_mem hes
    have houter := List.sizeOf_lt_of_mem ha
    exact drafted a
termination_by sizeOf e
decreasing_by
  all_goals
    simp only [Expr.index.sizeOf_spec, Expr.call.sizeOf_spec, Expr.op.sizeOf_spec] at *
    first
    | omega
    | have := List.sizeOf_lt_of_mem ‹_›
      omega

end Expr

end RobotScript
