/-
# Assignments of arrays in storage order

The assignment of an array is folded to assignments of single words. These are
the ones that the assignments of its elements are folded to, each element with
all its indices, the first of which runs fastest: the single index that is put
in counts the elements in the order of their positions. An array that has more
elements than an index can name is not assigned.

Key definitions: `Expr.IsSized`.
Key theorems: `map_storagePosition`, `Stmt.fold_elementAt`, `Stmt.steps_folded`.
-/
import RobotScript.Proofs.ElementPositions
import RobotScript.Proofs.Meaning

namespace RobotScript

/-! ### The order of elements -/

section

variable {dims ks : List Nat} {k : Nat}

theorem range_blocks (d n : Nat) :
    (List.range n).flatMap (fun p => (List.range d).map (· + d * p)) = List.range (d * n) := by
  induction n with
  | zero => rfl
  | succ n ih =>
    rw [List.range_succ, List.flatMap_append, ih, List.flatMap_singleton, Nat.mul_succ, List.range_add]
    simp only [Nat.add_comm]

/-- The elements are listed in the order of their positions. -/
theorem map_storagePosition : ∀ dims : List Nat,
    (indexTuples dims).map (storagePosition dims) = List.range (volume dims)
  | [] => rfl
  | d :: ds => by
    have hblock : ∀ ks, ((List.range d).map (· :: ks)).map (storagePosition (d :: ds)) =
        (List.range d).map (· + d * storagePosition ds ks) := by
      intro ks
      rw [List.map_map]
      rfl
    rw [indexTuples, List.map_flatMap]
    simp only [hblock]
    rw [← List.flatMap_map (storagePosition ds) fun p => (List.range d).map (· + d * p), map_storagePosition ds,
      range_blocks]
    rfl

theorem lt_of_mem_indexTuples : ∀ {dims ks : List Nat}, ks ∈ indexTuples dims → List.Forall₂ (· < ·) ks dims
  | [], ks, h => by
    rw [List.mem_singleton.mp h]
    exact .nil
  | d :: ds, ks, h => by
    rw [indexTuples, List.mem_flatMap] at h
    obtain ⟨rest, hrest, h⟩ := h
    obtain ⟨k, hk, rfl⟩ := List.mem_map.mp h
    exact .cons (List.mem_range.mp hk) (lt_of_mem_indexTuples hrest)

theorem length_indexTuples (dims : List Nat) : (indexTuples dims).length = volume dims := by
  rw [← List.length_map (storagePosition dims), map_storagePosition, List.length_range]

theorem storagePosition_of_getElem? (h : (indexTuples dims)[k]? = some ks) : storagePosition dims ks = k := by
  have hmap := congrArg (·[k]?) (map_storagePosition dims)
  simp only [List.getElem?_map, h, Option.map_some] at hmap
  obtain ⟨_, heq⟩ := List.getElem?_eq_some_iff.mp hmap.symm
  rw [← heq, List.getElem_range]

end

namespace Stmt

/-! ### Elements that are assigned -/

/-- A single index is left as it is, if it is in bounds. -/
theorem element_fold_eq_ok {v : Variable} {k : Nat} {span : Span} {ty : Ty} {e : Expr}
    (h : (element v k span ty).fold = .ok e) : 0 ≤ Int16.ofNat k ∧ e = element v k span ty := by
  have h : Expr.foldIndex v [.int (Int16.ofNat k) span] (.scalar span ty) = .ok e := h
  unfold Expr.foldIndex at h
  split at h
  · cases h
  · have hindices : [Expr.int (Int16.ofNat k) span].mapM Expr.number? = some [Int16.ofNat k] := rfl
    simp only [hindices, List.length_singleton, if_true, flatIndex?] at h
    by_cases hk : 0 ≤ Int16.ofNat k ∧ (Int16.ofNat k).toInt.toNat < max (Storage.size ‹_›) 1
    · rw [if_pos hk] at h
      cases h
      exact ⟨hk.1, congrArg (fun n => Expr.index (.scalar span ty) v [.int n span]) (Expr.ofNat_toNat hk.1)⟩
    · rw [if_neg hk] at h
      cases h

theorem foldAll_literals (span : Span) : ∀ ks : List Nat,
    Expr.foldAll (ks.map fun k => .int (Int16.ofNat k) span) = .ok (ks.map fun k => .int (Int16.ofNat k) span)
  | [] => rfl
  | k :: ks => by
    rw [List.map_cons, Expr.foldAll, foldAll_literals span ks]
    rfl

theorem mapM_literals (span : Span) : ∀ ks : List Nat,
    (ks.map fun k => Expr.int (Int16.ofNat k) span).mapM Expr.number? = some (ks.map Int16.ofNat)
  | [] => rfl
  | k :: ks => by
    rw [List.map_cons, List.mapM_cons, mapM_literals span ks]
    rfl

/-- The element with given indices is that at their position. -/
theorem fold_elementAt {info : Info} {v : Variable} {s : Storage} {k : Nat} {ks : List Nat} {e : Expr}
    (hs : v.storage = some s) (hdims : s.dims = info.dims) (hks : (indexTuples info.dims)[k]? = some ks)
    (hk : k ≤ 32767) (h : (element v k info.span info.ty).fold = .ok e) :
    (Expr.elementAt info v ks).fold = .ok e := by
  have hlt := lt_of_mem_indexTuples (List.mem_of_getElem? hks)
  have hposition := storagePosition_of_getElem? hks
  by_cases hone : ks.length = 1
  · obtain ⟨j, rfl⟩ := List.length_eq_one_iff.mp hone
    obtain ⟨d, hd⟩ := List.length_eq_one_iff.mp (hlt.length_eq ▸ hone)
    rw [hd] at hposition
    obtain rfl : j = k := hposition
    exact h
  · have hcast : ((ks.map fun k => Expr.int (Int16.ofNat k) info.span).map (Expr.cast .int)) =
        ks.map fun k => Expr.int (Int16.ofNat k) info.span := by
      rw [List.map_map]
      rfl
    have hflat := flatIndex?_ofNat hlt (by omega)
    rw [(element_fold_eq_ok h).2]
    unfold Expr.elementAt
    rw [Expr.fold, foldAll_literals]
    show Expr.foldIndex v ((ks.map fun k => Expr.int (Int16.ofNat k) info.span).map (Expr.cast .int)) _ = _
    rw [hcast]
    unfold Expr.foldIndex
    simp only [hs, mapM_literals, List.length_map, if_neg hone, hdims, hflat, hposition]
    rfl

/-- The assignments of items are folded one by one. -/
theorem assignItems_eq_ok {span opSpan : Span} {target : Info} {v : Variable} :
    ∀ {k : Nat} {items : List Expr} {ss : List Stmt}, assignItems span opSpan target v k items = .ok ss →
      ∃ es : List Expr, ss = es.map (expr span) ∧ es.length = items.length ∧
        ∀ j x e, items[j]? = some x → es[j]? = some e → (Expr.op (.scalar opSpan target.ty) .assign
          [element v (k + j) target.span target.ty, x]).fold = .ok e
  | k, [], ss, h => by
    rw [assignItems] at h
    cases h
    exact ⟨[], rfl, rfl, nofun⟩
  | k, item :: items, ss, h => by
    rw [assignItems] at h
    obtain ⟨e, he, h⟩ := bind_eq_ok.mp h
    obtain ⟨rest, hrest, h⟩ := bind_eq_ok.mp h
    cases h
    obtain ⟨es, rfl, hlen, hes⟩ := assignItems_eq_ok hrest
    refine ⟨e :: es, rfl, congrArg (· + 1) hlen, fun j x e' hx he' => ?_⟩
    cases j with
    | zero =>
      cases hx
      cases he'
      exact he
    | succ j =>
      rw [Nat.add_comm j 1, ← Nat.add_assoc]
      exact hes j x e' hx he'

theorem fold_assign {info : Info} {x x' y y' e : Expr} (h : (Expr.op info .assign [x, y]).fold = .ok e)
    (hx : ∀ a, x.fold = .ok a → x'.fold = .ok a) (hy : ∀ a, y.fold = .ok a → y'.fold = .ok a) :
    (Expr.op info .assign [x', y']).fold = .ok e := by
  obtain ⟨a, b, ha, hb, h⟩ := Expr.fold_two h
  rw [Expr.fold, Expr.foldAll, Expr.foldAll, Expr.foldAll, hx a ha, hy b hb]
  exact h

end Stmt

/-- The number of words that is noted for a variable or for the items of an array
is the one there is. -/
def Expr.IsSized : Expr → Prop
  | var info v => ∃ s, v.storage = some s ∧ s.dims = info.dims ∧ volume s.dims < 0x10000000000000000
  | array info items => (array info items).size = items.length
  | _ => True

namespace Stmt

theorem length_items {value : Expr} {items : List Expr} {n : Nat} (hsized : value.IsSized) (hsize : n = value.size)
    (hitems : arrayItems? n value = some items) : items.length = n ∧ n ≤ value.elements.length := by
  cases value with
  | array info es =>
    cases hitems
    have hlen : n = items.length := hsize.trans hsized
    exact ⟨hlen.symm, Nat.le_of_eq hlen⟩
  | var info v =>
    cases hitems
    have hle : n ≤ volume info.dims := by
      rw [hsize]
      unfold Expr.size
      split
      · exact Nat.zero_le _
      · exact Nat.mod_le _ _
    rw [List.length_map, List.length_range, Expr.elements, List.length_map, length_indexTuples]
    exact ⟨rfl, hle⟩
  | _ => cases hitems

/-- What is assigned to the elements is folded as the elements of the value are. -/
theorem fold_elements {value x y e : Expr} {items : List Expr} {n k : Nat} (hsized : value.IsSized)
    (hitems : arrayItems? n value = some items) (hk : k ≤ 32767) (hx : items[k]? = some x)
    (hy : value.elements[k]? = some y) (h : x.fold = .ok e) : y.fold = .ok e := by
  cases value with
  | array info es =>
    cases hitems
    obtain rfl : x = y := Option.some.inj (hx.symm.trans hy)
    exact h
  | var info v =>
    cases hitems
    obtain ⟨s, hs, hdims, -⟩ := hsized
    rw [List.getElem?_map] at hx
    obtain ⟨j, hj, rfl⟩ := Option.map_eq_some_iff.mp hx
    obtain ⟨_, rfl⟩ := List.getElem?_eq_some_iff.mp hj
    rw [Expr.elements, List.getElem?_map] at hy
    obtain ⟨ks, hks, rfl⟩ := Option.map_eq_some_iff.mp hy
    rw [List.getElem_range] at h
    exact fold_elementAt hs hdims hks hk h
  | _ => cases hitems

/-- What is assigned as an array: a variable, as many words as it has. -/
theorem assignArray_eq_ok {span : Span} {e : Expr} {ss : List Stmt} (harray : isArrayAssignment e = true)
    (h : assignArray span e = .ok ss) : ∃ info target v value items,
      e = .op info .assign [.var target v, value] ∧ extent target.dims = value.size ∧
      arrayItems? (extent target.dims) value = some items ∧ assignItems span info.span target v 0 items = .ok ss := by
  unfold assignArray at h
  split at h
  · rename_i info o target v value
    obtain rfl : o = .assign := by
      unfold isArrayAssignment at harray
      split at harray
      · rename_i heq
        exact (Expr.op.inj heq).2.1
      · cases harray
    split at h
    · cases h
    · rename_i hsize
      split at h
      · rename_i items hitems
        exact ⟨info, target, v, value, items, rfl, not_not.mp hsize, hitems, h⟩
      · cases h
  all_goals cases h

/-- The assignment of an array is folded as the assignments of its elements are. -/
theorem steps_folded {span : Span} {e : Expr} {ss : List Stmt} (harray : isArrayAssignment e = true)
    (hsized : ∀ a ∈ e.operands, a.IsSized) (h : assignArray span e = .ok ss) :
    ∃ es, ss = es.map (expr span) ∧ List.Forall₂ (fun a e' => Expr.fold a = .ok e') (steps e) es := by
  obtain ⟨info, target, v, value, items, rfl, hsize, hitems, h⟩ := assignArray_eq_ok harray h
  obtain ⟨es, rfl, hlen, hes⟩ := assignItems_eq_ok h
  obtain ⟨s, hs, hdims, hcount⟩ := hsized (.var target v) List.mem_cons_self
  have hvalue := hsized value (List.mem_cons_of_mem _ List.mem_cons_self)
  obtain ⟨hwords, hle⟩ := length_items hvalue hsize hitems
  have hvolume : extent target.dims = volume target.dims := counted_of_lt (hdims ▸ hcount)
  -- an element behind the last one that an index can name would not be folded
  have hlast : items.length ≤ 32768 := by
    by_contra hmore
    have he := hes 32768 _ _ (List.getElem?_eq_getElem (by omega)) (List.getElem?_eq_getElem (by omega))
    obtain ⟨t, -, ht, -⟩ := Expr.fold_two he
    exact absurd (element_fold_eq_ok ht).1 (by decide)
  have hsteps : steps (.op info .assign [.var target v, value]) = List.zipWith (fun t x =>
      .op (.scalar info.span target.ty) .assign [t, x]) (Expr.var target v).elements value.elements := by
    rw [steps, if_neg]
    · rfl
    · simpa [isArrayAssignment, Classical.or_iff_not_imp_left] using harray
  rw [hsteps]
  refine ⟨es, rfl, List.forall₂_iff_get.mpr ⟨?_, fun k hk hk' => ?_⟩⟩
  · rw [List.length_zipWith, Expr.elements, List.length_map, length_indexTuples]
    omega
  · obtain ⟨t, x, ht, hx, hstep⟩ := List.getElem?_zipWith_eq_some.mp (List.getElem?_eq_getElem hk)
    have hitem := List.getElem?_eq_getElem (hlen ▸ hk')
    have hfold := hes k _ _ hitem (List.getElem?_eq_getElem hk')
    rw [Nat.zero_add] at hfold
    rw [List.get_eq_getElem, ← hstep]
    rw [Expr.elements, List.getElem?_map] at ht
    obtain ⟨ks, hks, rfl⟩ := Option.map_eq_some_iff.mp ht
    exact fold_assign hfold (fun _ h => fold_elementAt hs hdims hks (by omega) h)
      fun _ h => fold_elements hvalue hitems (by omega) hitem hx h

end Stmt
end RobotScript
