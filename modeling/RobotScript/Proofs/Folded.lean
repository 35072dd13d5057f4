/-
# What folding leaves

Folding sees to some things on which later stages build without a check of
their own: a constant index is one of its array, `&&` and `||` work on truth
values, and no assignment of a whole array is left in an expression.

Key definitions: `Expr.IsFolded`.
Key theorems: `Expr.fold_isFolded`.
-/
import RobotScript.Proofs.ExprParts

namespace RobotScript

theorem volume_cons (d : Nat) (dims : List Nat) : volume (d :: dims) = d * volume dims := rfl

theorem extent_le (dims : List Nat) : extent dims ≤ volume dims := Nat.mod_le _ _

/-- A position is one of the array. -/
theorem flatIndex?_lt : ∀ {dims : List Nat} {ks : List Cell} {k : Nat}, 0 < volume dims →
    flatIndex? dims ks = some k → k < volume dims
  | [], ks, k, hpos, h => by
    obtain rfl : 0 = k := Option.some.inj h
    exact hpos
  | d :: dims, [], k, hpos, h => by
    obtain rfl : 0 = k := Option.some.inj h
    exact hpos
  | d :: dims, n :: ks, k, hpos, h => by
    rw [volume_cons] at hpos ⊢
    rw [flatIndex?] at h
    split at h
    · rename_i hn
      obtain ⟨rest, hrest, rfl⟩ := Option.map_eq_some_iff.mp h
      have hlt : rest < volume dims := flatIndex?_lt (Nat.pos_of_mul_pos_left hpos) hrest
      calc n.toInt.toNat + d * rest < d + d * rest := by omega
        _ = d * (rest + 1) := by rw [Nat.mul_add, Nat.mul_one, Nat.add_comm]
        _ ≤ d * volume dims := Nat.mul_le_mul_left d hlt
    · cases h

theorem toNat_ofNat_le {k : Nat} (h : 0 ≤ Int16.ofNat k) : (Int16.ofNat k).toInt.toNat ≤ k := by
  have hle : 0 ≤ (Int16.ofNat k).toInt := Int16.le_iff_toInt_le.mp h
  have hmod : (Int16.ofNat k).toInt = (k : Int).bmod 65536 := Int16.toInt_ofNat'
  rw [hmod] at hle ⊢
  rw [Int.bmod_def] at hle ⊢
  split at hle <;> split <;> omega

namespace Expr

/-- At its top an expression is as folding leaves it: a constant index is one of
the array, conjunction and disjunction work on truth values, and single words
are assigned. -/
def IsFolded : Expr → Prop
  | index _ v es => ∀ s i n, v.storage = some s → es = [number i n] → 0 ≤ n → 0 < volume s.dims →
      n.toInt.toNat < volume s.dims
  | op _ o es => Settled o es
  | _ => True

theorem isFolded_foldClosed : FoldClosed IsFolded where
  number _ _ _ := trivial
  fixed _ _ _ := trivial
  placeholder _ _ := trivial
  op _ _ _ _ h := h
  withTy {e _} _ h := by cases e <;> exact h

theorem foldIndex_isFolded {i : Info} {v : Variable} {es : List Expr}
    (hes : ∀ e ∈ es, e.Every IsFolded) : Leads (Every IsFolded) (foldIndex v es i) := by
  unfold foldIndex
  split
  · trivial
  · rename_i s hs
    dsimp only
    split
    · rename_i hks
      refine Ends.pure (.mk ?_ hes)
      rintro s' j n - rfl - -
      cases hks
    · rename_i ks hks
      split
      · rename_i k hk
        refine Ends.pure (.mk ?_ ?_)
        · intro s' j n hs' hn hpos hsize
          obtain rfl : s = s' := Option.some.inj (hs.symm.trans hs')
          obtain rfl : Int16.ofNat k = n := (Expr.number.inj (List.cons.inj hn).1).2
          refine Nat.lt_of_le_of_lt (toNat_ofNat_le hpos) ?_
          split at hk
          · have hbound : volume [max s.size 1] = max s.size 1 := Nat.mul_one _
            have hlt := flatIndex?_lt (by rw [hbound]; omega) hk
            have hle : s.size ≤ volume s.dims := extent_le s.dims
            rw [hbound] at hlt
            omega
          · exact flatIndex?_lt hsize hk
        · simp only [operands, List.mem_singleton, forall_eq]
          exact .leaf rfl trivial
      · trivial

theorem mem_castArgs : ∀ {ps : List Param} {es : List Expr} {a : Expr}, a ∈ castArgs ps es →
    ∃ e ∈ es, a = e ∨ ∃ ty, a = e.cast ty
  | p :: ps, e :: es, a, h => by
    rw [castArgs] at h
    rcases List.mem_cons.mp h with rfl | h
    · refine ⟨e, List.mem_cons_self, ?_⟩
      split
      · exact .inl rfl
      · exact .inr ⟨_, rfl⟩
    · obtain ⟨b, hb, heq⟩ := mem_castArgs h
      exact ⟨b, List.mem_cons_of_mem _ hb, heq⟩
  | [], es, a, h => by
    rw [castArgs] at h
    · cases h
    · simp
  | p :: ps, [], a, h => by
    rw [castArgs] at h
    · cases h
    · simp

/-- Folding leaves nothing in another form. -/
theorem fold_isFolded (e : Expr) : Leads (Every IsFolded) e.fold := by
  induction e using induct with
  | h e ih =>
    have hcast {a : Expr} (ty : Ty) (ha : a.Every IsFolded) := isFolded_foldClosed.cast ty ha
    cases e with
    | number i n => exact Ends.pure (.leaf rfl trivial)
    | fixed i f => exact Ends.pure (.leaf rfl trivial)
    | placeholder i => exact Ends.pure (.leaf rfl trivial)
    | var i v => exact Ends.pure (.leaf rfl trivial)
    | index i v es =>
      rw [fold]
      refine (foldAll_ends ih).bind fun es' hes' => foldIndex_isFolded fun a ha => ?_
      obtain ⟨b, hb, rfl⟩ := List.mem_map.mp ha
      exact hcast _ (hes'.2 b hb)
    | array i es =>
      rw [fold]
      refine (foldAll_ends ih).bind fun es' hes' => Ends.pure (.mk trivial fun a ha => ?_)
      obtain ⟨b, hb, rfl⟩ := List.mem_map.mp ha
      exact hcast _ (hes'.2 b hb)
    | op i o es =>
      rw [fold]
      exact (foldAll_ends ih).bind fun es' hes' =>
        isFolded_foldClosed.foldOp o i (fun _ ho => .of_free ho) hes'.2
    | call i name callee es =>
      rw [fold]
      refine (foldAll_ends ih).bind fun es' hes' => ?_
      split
      · refine Ends.pure (.mk trivial fun a ha => ?_)
        obtain ⟨b, hb, heq⟩ := mem_castArgs ha
        rcases heq with rfl | ⟨ty, rfl⟩
        · exact hes'.2 a hb
        · exact hcast _ (hes'.2 b hb)
      · exact Ends.pure (.mk trivial hes'.2)

end Expr
end RobotScript
