/-
# Scaled arithmetic

A fixed-point number is kept as a cell, multiplied by the factor of the
settings. The product of two such numbers has the factor in it twice, and their
quotient has lost it, so the firmware multiplies and divides in one go, with 32
bits in between. That is enough: the product of two cells fits, and only the
result is cut to a cell. A whole number divided by a fixed-point number needs
the factor twice; its square is a constant of the code and is cut to a cell
itself, which changes it for all factors beyond 181.

Key definitions: `Scaled`, `Coder.scaledParts`, `scaledDividend`, `scaledDivisor`.
Key theorems: `Machine.muldivCell_eq`, `Coder.callOnValues_muldiv`, `scaled_arithmetic_exact`.
-/
import RobotScript.Proofs.Pushing

namespace RobotScript

open Machine (Instr Binary State Exec)
open Code (plain size)
open Coder (pushNat pops)

/-! ### Exact numbers -/

namespace Machine

/-- The product of two cells divided by a third, cut to a cell. -/
def muldivCell (x y z : Cell) : Option Cell :=
  (Binary.div.eval (x.toInt32 * y.toInt32) z.toInt32).map toCell

theorem natAbs_cell (x : Cell) : x.toInt.natAbs ≤ 32768 := by
  have hlo := x.le_toInt
  have hhi := x.toInt_lt
  omega

theorem natAbs_mul_cells (x y : Cell) : (x.toInt * y.toInt).natAbs ≤ 32768 * 32768 := by
  rw [Int.natAbs_mul]
  exact Nat.mul_le_mul (natAbs_cell x) (natAbs_cell y)

/-- The product of two cells fits into 32 bits. -/
theorem toInt_mul_cells (x y : Cell) : (x.toInt32 * y.toInt32).toInt = x.toInt * y.toInt := by
  have hbound := natAbs_mul_cells x y
  rw [Int32.toInt_mul, Int16.toInt_toInt32, Int16.toInt_toInt32]
  exact Int.bmod_eq_of_le (by omega) (by omega)

/-- Nothing is lost but what is cut off the result. -/
theorem muldivCell_eq (x y z : Cell) : muldivCell x y z =
    if z.toInt = 0 then none else some (Int16.ofInt ((x.toInt * y.toInt).tdiv z.toInt)) := by
  have hzero : z.toInt32 = 0 ↔ z.toInt = 0 := by
    rw [← Int32.toInt_inj, Int16.toInt_toInt32]
    rfl
  have hmin : x.toInt32 * y.toInt32 ≠ Int32.minValue := by
    intro h
    have hvalue := congrArg Int32.toInt h
    have hbound := natAbs_mul_cells x y
    rw [toInt_mul_cells, Int32.toInt_minValue] at hvalue
    omega
  unfold muldivCell Binary.eval
  by_cases hz : z.toInt = 0
  · rw [if_pos hz]
    dsimp only
    rw [if_pos (.inl (hzero.mpr hz))]
    rfl
  · rw [if_neg hz]
    dsimp only
    rw [if_neg (not_or.mpr ⟨mt hzero.mp hz, fun h => hmin h.1⟩), Option.map_some, toCell,
      ← Int32.ofInt_toInt (x.toInt32 * y.toInt32 / z.toInt32), Int32.toInt16_ofInt,
      Int32.toInt_div_of_ne_left _ _ hmin, toInt_mul_cells, Int16.toInt_toInt32]

/-- The square of a cell, cut to a cell. -/
theorem toInt_square (x : Cell) :
    (toCell (x.toInt32 * x.toInt32)).toInt = (x.toInt * x.toInt).bmod 65536 := by
  rw [toCell, Int32.toInt_toInt16, toInt_mul_cells]

/-- The square of a cell is a cell up to 181. -/
theorem bmod_square (x : Int) : (x * x).bmod 65536 = x * x ↔ x.natAbs ≤ 181 := by
  have habs : x * x = ((x.natAbs * x.natAbs : Nat) : Int) := by
    rw [Int.natCast_mul, Int.natAbs_mul_self' x]
  rw [habs]
  constructor
  · intro h
    refine Nat.not_lt.mp fun hlarge => ?_
    have hsquare : 182 * 182 ≤ x.natAbs * x.natAbs := Nat.mul_le_mul (by omega) (by omega)
    have hlt := Int.bmod_lt (x := ((x.natAbs * x.natAbs : Nat) : Int)) (m := 65536) (by decide)
    omega
  · intro h
    have hsquare : x.natAbs * x.natAbs ≤ 181 * 181 := Nat.mul_le_mul h h
    exact Int.bmod_eq_of_le (by omega) (by omega)

/-! ### The firmware function -/

/-- On words of memory the firmware function has the value of its cells, or it
stops at a divisor of zero. -/
theorem run_perform_muldiv {f : NativeFunction} (hname : f.name = "math.muldiv") {d p q r : Nat}
    {x y z : Cell} {m : State} (sizes : List Nat) (hx : m.memory[p]? = some x) (hy : m.memory[q]? = some y)
    (hz : m.memory[r]? = some z) (hd : d < m.memory.size) :
    (f.perform [d, p, q, r] (1 :: sizes)).run m = match muldivCell x y z with
      | some v => .ok () (m.setWord d v)
      | none => .error (.divisionByZero m.pc) m := by
  have hperform : f.perform [d, p, q, r] (1 :: sizes) =
      nativeWord f.name [d, p, q, r] .muldiv 0 >>= fun v => Exec.write d v >>= fun _ => pure () := by
    rw [NativeFunction.perform, hname]
    rfl
  have hread {k a : Nat} {w : Cell} (ha : [d, p, q, r][k]? = some a) (hw : m.memory[a]? = some w) :
      (readArgument f.name [d, p, q, r] k 0).run m = .ok w m := by
    rw [readArgument, ha]
    have hrun := Exec.run_read_eq a m
    rw [hw] at hrun
    exact hrun
  rw [hperform, EStateM.run_bind]
  simp only [nativeWord, EStateM.run_bind, hread (k := 1) rfl hx, hread (k := 2) rfl hy,
    hread (k := 3) rfl hz, EStateM.run_get, muldivCell]
  cases Binary.div.eval (x.toInt32 * y.toInt32) z.toInt32 with
  | none => rfl
  | some v =>
    show (Exec.write d (toCell v) >>= fun _ => pure ()).run m = _
    rw [EStateM.run_bind, Exec.run_write_eq, if_pos hd]
    rfl

end Machine

/-! ### Calls on temporaries -/

namespace Coder

variable {c : Coder} {st st' : Coding.State} {k : Code} {span : Span}

/-- What a firmware function called on words of the stack needs: temporaries for
the words and the result, and a signature that they fit. -/
theorem callOnValues_eq_ok {name : String} {n : Nat} (h : c.callOnValues name n true span st = .ok (k, st')) :
    st'.nextTemp + (n + 1) = st.nextTemp ∧ c.moduleSize ≤ st'.nextTemp ∧
    (∀ j < n + 1, c.Fits (st'.nextTemp + j)) ∧
    ∃ id f groups free, c.node.native? name = some (id, f) ∧ f.args.length = n + 1 ∧
      nativeSizes? f.args (List.replicate (n + 1) 1) = some (groups, free) ∧
      k = plain (pops st'.nextTemp n) ++
        (plain ((groups ++ free.reverse ++
          ((st'.nextTemp + n) :: (List.range n).map (st'.nextTemp + ·)).reverse).map pushNat) ++
          plain [.callNative id]) ++
        plain [.load (UInt16.ofNat (st'.nextTemp + n))] := by
  obtain ⟨base, st1, htemps, h1⟩ := Coding.bind_eq_ok h
  obtain ⟨hnext, hbase, hlast⟩ := Coding.temps_eq_ok htemps
  obtain ⟨kp, st2, hpops, h2⟩ := Coding.bind_eq_ok h1
  obtain ⟨rfl, rfl, hfits⟩ := popInto_eq_ok hpops
  obtain ⟨kc, st3, hcall, h3⟩ := Coding.bind_eq_ok h2
  cases hnative : c.node.native? name with
  | none =>
    unfold callNative at hcall
    rw [hnative] at hcall
    cases hcall
  | some found =>
    obtain ⟨id, f⟩ := found
    have hmap : (((base + n) :: (List.range n).map (base + ·)).map fun addr =>
        (return plain [pushNat addr] : Coding Code)) =
        ((base + n) :: (List.range n).map (base + ·)).map pushAddress := rfl
    rw [hmap] at hcall
    obtain ⟨hlen, rfl, groups, free, hsizes, rfl⟩ := (callNative_eq_ok_iff hnative).mp hcall
    obtain ⟨w, st4, haddr, h4⟩ := Coding.bind_eq_ok h3
    obtain ⟨rfl, rfl, hresult⟩ := address_eq_ok haddr
    cases h4
    rw [hlast]
    refine ⟨hnext, hbase, fun j hj => ?_, id, f, groups, free, rfl, by simpa using hlen, hsizes, rfl⟩
    rcases Nat.lt_succ_iff_lt_or_eq.mp hj with hj | rfl
    · exact hfits j hj
    · exact hresult

/-- A firmware function called on words of the stack finds them in temporaries,
in order, and behind them a place for its result. -/
theorem callOnValues_steps {name : String} {n : Nat} (h : c.callOnValues name n true span st = .ok (k, st'))
    (hcount : c.node.nativeFunctions.length ≤ 4096) {m : State} {ws rest : List Cell}
    (hk : k.Stands m.image m.pc) (hws : ws.length = n) (hstack : m.stack = ws.reverse ++ rest)
    (hsize : m.memory.size = c.node.maxVarSize) {id : Word} {f : NativeFunction}
    (hnative : c.node.native? name = some (id, f)) (hroom : rest.length + f.words ≤ Machine.stackSize) :
    ∃ memory m', Steps c.node m m' ∧ memory.size = c.node.maxVarSize ∧
      (∀ j < n, memory[st'.nextTemp + j]? = ws[j]?) ∧
      (∀ j, j < st'.nextTemp ∨ st.nextTemp ≤ j → memory[j]? = m.memory[j]?) ∧
      m'.pc + 2 = m.pc + size k ∧
      (plain [.load (UInt16.ofNat (st'.nextTemp + n))]).Stands m.image (m'.pc + 1) ∧
      (Machine.step c.node).run m' =
        (do
          f.perform ((st'.nextTemp + n) :: (List.range n).map (st'.nextTemp + ·)) (List.replicate (n + 1) 1)
          Exec.advance 1
          pure true : Exec Bool).run { m with memory, stack := rest, pc := m'.pc } := by
  obtain ⟨hnext, -, hfits, id', f', groups, free, hnative', hlen, hsizes, rfl⟩ := callOnValues_eq_ok h
  obtain ⟨rfl, rfl⟩ := Prod.mk.inj (Option.some.inj (hnative'.symm.trans hnative))
  generalize st'.nextTemp = a at hfits hnext hk ⊢
  obtain ⟨memory, hpops, hwords, hother⟩ := steps_pops c.node hk.left.left hws hstack
    fun j hj => ⟨(hfits j (by omega)).1, hsize ▸ (hfits j (by omega)).2⟩
  have hcall := hk.left.right
  rw [size_pops] at hcall
  have hbelow : ∀ i ∈ ((a + n) :: (List.range n).map (a + ·)) ++ List.replicate (n + 1) 1, i < 65536 := by
    intro i hi
    rcases List.mem_append.mp hi with hi | hi
    · obtain ⟨j, hj, rfl⟩ : ∃ j < n + 1, a + j = i := by
        rcases List.mem_cons.mp hi with rfl | hi
        · exact ⟨n, Nat.lt_succ_self n, rfl⟩
        · obtain ⟨j, hj, rfl⟩ := List.mem_map.mp hi
          exact ⟨j, Nat.lt_succ_of_lt (List.mem_range.mp hj), rfl⟩
      have hlt := (hfits j hj).1
      omega
    · rw [List.eq_of_mem_replicate hi]
      decide
  obtain ⟨_, pc, -, hsteps, hpc, -, hstep⟩ := steps_native
    (m := { m with memory, stack := rest, pc := m.pc + n }) (hlen.trans (List.length_replicate ..).symm)
    hsizes (by simp [hlen]) (Node.native?_id hnative hcount) hbelow hcall hroom
  refine ⟨memory, _, hpops.trans hsteps, hpops.memory_size.trans hsize, hwords,
    fun j hj => hother j (by omega), ?_, ?_, hstep⟩
  · rw [Code.size_append, Code.size_append, size_pops]
    show pc + 2 = m.pc + (n + _ + 1)
    simp only [Nat.add_assoc] at hpc ⊢
    omega
  · have hload := hk.right
    rw [Code.size_append, size_pops, ← Nat.add_assoc, ← hpc] at hload
    exact hload

/-- With three words on the stack, the product of the first two divided by the
last one takes their place, or the machine stops at a divisor of zero. Of memory
only the temporaries that the call takes change. -/
theorem callOnValues_muldiv (h : c.callOnValues "math.muldiv" 3 true span st = .ok (k, st'))
    (hcount : c.node.nativeFunctions.length ≤ 4096) {m : State} {x y z : Cell} {rest : List Cell}
    (hk : k.Stands m.image m.pc) (hstack : m.stack = z :: y :: x :: rest)
    (hsize : m.memory.size = c.node.maxVarSize) {id : Word} {f : NativeFunction}
    (hnative : c.node.native? "math.muldiv" = some (id, f))
    (hroom : rest.length + f.words ≤ Machine.stackSize) :
    match Machine.muldivCell x y z with
    | some v => ∃ memory, Steps c.node m { m with memory, stack := v :: rest, pc := m.pc + size k } ∧
        ∀ j, j < st'.nextTemp ∨ st.nextTemp ≤ j → memory[j]? = m.memory[j]?
    | none => ∃ m' m'', Steps c.node m m' ∧
        (Machine.step c.node).run m' = .error (.divisionByZero m'.pc) m'' := by
  obtain ⟨hnext, -, hfits, _, f', _, _, hnative', hlen, -⟩ := callOnValues_eq_ok h
  obtain ⟨-, rfl⟩ := Prod.mk.inj (Option.some.inj (hnative'.symm.trans hnative))
  have hpushed : m.stack = [x, y, z].reverse ++ rest := hstack
  obtain ⟨memory, m1, hsteps, hmemory, hwords, hother, hpc, hload, hstep⟩ :=
    callOnValues_steps h hcount hk rfl hpushed hsize hnative hroom
  generalize st'.nextTemp = a at hfits hnext hwords hother hload hstep ⊢
  have hadd : a + 3 < 4096 := (hfits 3 (by omega)).1
  have hd : a + 3 < memory.size := by
    rw [hmemory]
    exact (hfits 3 (by omega)).2
  have hx : memory[a]? = some x := hwords 0 (by omega)
  have hy : memory[a + 1]? = some y := hwords 1 (by omega)
  have hz : memory[a + 2]? = some z := hwords 2 (by omega)
  let m2 : State := { m with memory, stack := rest, pc := m1.pc }
  have hperform := Machine.run_perform_muldiv (m := m2) (Node.native?_eq_some hnative).1
    (List.replicate 3 1) hx hy hz hd
  have hstep : (Machine.step c.node).run m1 =
      ((f'.perform [a + 3, a, a + 1, a + 2] (1 :: List.replicate 3 1)) >>= fun _ =>
        Exec.advance 1 >>= fun _ => pure true : Exec Bool).run m2 := hstep
  rw [EStateM.run_bind, hperform] at hstep
  cases hvalue : Machine.muldivCell x y z with
  | none =>
    rw [hvalue] at hstep
    exact ⟨m1, _, hsteps, hstep⟩
  | some v =>
    rw [hvalue] at hstep
    let m3 : State := { m2.setWord (a + 3) v with pc := m1.pc + 1 }
    have hmoved : (Machine.step c.node).run m1 = .ok true m3 := hstep
    have hfound : m3.memory[(UInt16.ofNat (a + 3)).toNat % 4096]? = some v := by
      rw [Machine.operand_eq hadd]
      exact Array.getElem?_setIfInBounds_self_of_lt hd
    have hfour : 4 ≤ f'.words := by
      rw [NativeFunction.words, hlen]
      omega
    have hlast : (Machine.step c.node).run m3 = _ := Code.Stands.step_load (p := 0) hload ⟨[], [], rfl, rfl⟩ rfl
      hfound (by show rest.length < Machine.stackSize; omega)
    refine ⟨m3.memory, hsteps.trans (.head hmoved (.head hlast ?_)), fun j hj => ?_⟩
    · rw [← hpc]
      exact .refl _
    · have hne : m3.memory[j]? = memory[j]? := Array.getElem?_setIfInBounds_ne (by omega)
      rw [hne]
      exact hother j hj

end Coder

/-! ### Products and quotients -/

/-- The products and quotients that are scaled: those of two fixed-point numbers,
and whole numbers divided by a fixed-point number. -/
def Scaled (b : Binary) (xTy yTy : Ty) : Prop := (b = .div ∨ b = .mult ∧ xTy = .fixed) ∧ yTy = .fixed

instance (b : Binary) (xTy yTy : Ty) : Decidable (Scaled b xTy yTy) := inferInstanceAs (Decidable (_ ∧ _))

/-- What is evaluated for a scaled product or quotient, in turn: the operands, and
a constant behind or between them. -/
def Coder.scaledParts {α : Type} (c : Coder) (b : Binary) (xTy : Ty) (constant : Cell → α) (x y : α) : List α :=
  let factor := c.settings.factor
  match b, xTy == .fixed with
  | .mult, _ => [x, y, constant factor]
  | _, true => [x, constant factor, y]
  | _, false => [x, constant (toCell (factor.toInt32 * factor.toInt32)), y]

/-- The number that is divided, of cells `x` and `y` and the factor `f`. -/
def scaledDividend (b : Binary) (xTy : Ty) (f x y : Int) : Int :=
  match b, xTy == .fixed with
  | .mult, _ => x * y
  | _, true => x * f
  | _, false => x * (f * f).bmod 65536

/-- The number that it is divided by. -/
def scaledDivisor (b : Binary) (f y : Int) : Int := if b = .mult then f else y

/-- The code of a scaled product or quotient evaluates its parts and calls the
firmware function on their values. -/
theorem Expr.code_scaled {c : Coder} {i : Info} {b : Binary} {x y : Expr} {st st' : Coding.State} {k : Code}
    (hcode : (Expr.op i (.binary b) [x, y]).code c .value st = .ok (k, st')) (hscaled : Scaled b x.ty y.ty) :
    ∃ kx ky kc s1 s2, x.code c .value st = .ok (kx, s1) ∧ y.code c .value s1 = .ok (ky, s2) ∧
      c.callOnValues "math.muldiv" 3 true i.span s2 = .ok (kc, st') ∧
      k = (c.scaledParts b x.ty (fun n => plain [.immediate n]) kx ky).flatten ++ kc := by
  unfold Expr.code at hcode
  obtain ⟨kx, s1, hx, h1⟩ := Coding.bind_eq_ok hcode
  obtain ⟨ky, s2, hy, h2⟩ := Coding.bind_eq_ok h1
  obtain ⟨k', s3, hk, h3⟩ := Coding.bind_eq_ok h2
  cases h3
  have hcall (parts : Code)
      (h : (do return parts ++ (← c.callOnValues "math.muldiv" 3 true i.span)) s2 = .ok (k, st')) :
      ∃ kc, c.callOnValues "math.muldiv" 3 true i.span s2 = .ok (kc, st') ∧ k = parts ++ kc := by
    obtain ⟨kc, s4, hkc, h4⟩ := Coding.bind_eq_ok h
    cases h4
    exact ⟨kc, hkc, rfl⟩
  obtain ⟨hb, hyTy⟩ := hscaled
  have hyFixed : (y.ty == .fixed) = true := beq_iff_eq.mpr hyTy
  unfold Coder.arithmetic at hk
  dsimp only at hk
  rw [hyFixed] at hk
  rcases hb with rfl | ⟨rfl, hxTy⟩
  · cases hxFixed : x.ty == .fixed with
    | true =>
      rw [hxFixed] at hk
      obtain ⟨kc, hkc, rfl⟩ := hcall _ hk
      exact ⟨kx, ky, kc, s1, s2, hx, hy, hkc, by simp [Coder.scaledParts, hxFixed]⟩
    | false =>
      rw [hxFixed] at hk
      obtain ⟨kc, hkc, rfl⟩ := hcall _ hk
      exact ⟨kx, ky, kc, s1, s2, hx, hy, hkc, by simp [Coder.scaledParts, hxFixed]⟩
  · have hxFixed : (x.ty == .fixed) = true := beq_iff_eq.mpr hxTy
    rw [hxFixed] at hk
    obtain ⟨kc, hkc, rfl⟩ := hcall _ hk
    exact ⟨kx, ky, kc, s1, s2, hx, hy, hkc, by simp [Coder.scaledParts]⟩

/-- Of the values of the parts, in order, the firmware function makes the scaled
product or quotient. -/
theorem Coder.scaledParts_muldiv (c : Coder) {b : Binary} {xTy yTy : Ty} (hscaled : Scaled b xTy yTy)
    (x y : Cell) : ∃ u v w, c.scaledParts b xTy (fun n => n) x y = [u, v, w] ∧
      Machine.muldivCell u v w = if scaledDivisor b c.settings.factor.toInt y.toInt = 0 then none
        else some (Int16.ofInt ((scaledDividend b xTy c.settings.factor.toInt x.toInt y.toInt).tdiv
          (scaledDivisor b c.settings.factor.toInt y.toInt))) := by
  rcases hscaled.1 with rfl | ⟨rfl, -⟩
  · cases hx : xTy == .fixed with
    | true =>
      refine ⟨x, c.settings.factor, y, by simp [Coder.scaledParts, hx], ?_⟩
      unfold scaledDividend
      rw [Machine.muldivCell_eq, hx]
      rfl
    | false =>
      refine ⟨x, toCell (c.settings.factor.toInt32 * c.settings.factor.toInt32), y,
        by simp [Coder.scaledParts, hx], ?_⟩
      unfold scaledDividend
      rw [Machine.muldivCell_eq, hx, Machine.toInt_square]
      rfl
  · exact ⟨_, _, _, rfl, Machine.muldivCell_eq ..⟩

/-- The code of a scaled product or quotient leaves what exact integers make of the
values `X` and `Y` of its operands and the factor, rounded toward zero and cut to
a cell, in place of the values; a divisor of zero stops the machine. It changes
temporaries only, behind all that is declared. The square of the factor, by which
a whole number is multiplied, is exact up to a factor of 181 and cut to a cell
beyond. -/
theorem scaled_arithmetic_exact {c : Coder} {i : Info} {b : Binary} {x y : Expr} {st st' : Coding.State}
    {k : Code} (hcode : (Expr.op i (.binary b) [x, y]).code c .value st = .ok (k, st'))
    (hscaled : Scaled b x.ty y.ty) (hcount : c.node.nativeFunctions.length ≤ 4096) :
    ∃ kx ky s₁ s₂ id f, x.code c .value st = .ok (kx, s₁) ∧ y.code c .value s₁ = .ok (ky, s₂) ∧
      c.node.native? "math.muldiv" = some (id, f) ∧ c.moduleSize ≤ st'.nextTemp ∧
      ∀ (m n : State) (X Y : Cell), k.Stands m.image m.pc → m.memory.size = c.node.maxVarSize →
        m.stack.length + f.words ≤ Machine.stackSize →
        StacksEach c.node m.pc k (c.scaledParts b x.ty (fun v => plain [.immediate v]) kx ky)
          (c.scaledParts b x.ty (fun v => v) X Y) m n →
        let F := c.settings.factor.toInt
        ((F * F).bmod 65536 = F * F ↔ F.natAbs ≤ 181) ∧
        if scaledDivisor b F Y.toInt = 0 then
          ∃ m' m'', Steps c.node n m' ∧
            (Machine.step c.node).run m' = .error (.divisionByZero m'.pc) m''
        else ∃ memory,
          Steps c.node n { n with
            stack := Int16.ofInt ((scaledDividend b x.ty F X.toInt Y.toInt).tdiv
              (scaledDivisor b F Y.toInt)) :: m.stack
            pc := m.pc + size k, memory } ∧
          ∀ j, j < st'.nextTemp ∨ s₂.nextTemp ≤ j → memory[j]? = n.memory[j]? := by
  obtain ⟨kx, ky, kc, s₁, s₂, hx, hy, hkc, rfl⟩ := Expr.code_scaled hcode hscaled
  obtain ⟨-, hbase, -, id, f, groups, free, hnative, -⟩ := Coder.callOnValues_eq_ok hkc
  refine ⟨kx, ky, s₁, s₂, id, f, hx, hy, hnative, hbase, fun m n X Y hk hsize hroom hparts => ?_⟩
  obtain ⟨u, v, w, hvalues, hresult⟩ := c.scaledParts_muldiv hscaled X Y
  have hpushes := hparts.pushes
  rw [hvalues] at hpushes
  have hrest : kc.Stands n.image n.pc := by
    rw [hpushes.pc]
    exact hpushes.code.right
  have hmuldiv := Coder.callOnValues_muldiv hkc hcount hrest hpushes.stack
    (hpushes.steps.memory_size.trans hsize) hnative hroom
  rw [hresult] at hmuldiv
  refine ⟨Machine.bmod_square _, ?_⟩
  by_cases hzero : scaledDivisor b c.settings.factor.toInt Y.toInt = 0
  · rw [if_pos hzero] at hmuldiv ⊢
    exact hmuldiv
  · rw [if_neg hzero] at hmuldiv ⊢
    obtain ⟨memory, hsteps, hother⟩ := hmuldiv
    refine ⟨memory, ?_, hother⟩
    rw [Code.size_append, ← Nat.add_assoc, ← hpushes.pc]
    exact hsteps

/-- The whole number 3 divided by the fixed-point number that is kept as 2, with
the largest factor whose square is exact. -/
theorem scaled_arithmetic_exact_whole :
    ∃ (c : Coder) (x y : Expr) (st st' : Coding.State) (k : Code) (m n : State) (memory : Array Cell),
      c.settings.factor = 181 ∧ x.ty = .int ∧ y.ty = .fixed ∧
      (Expr.op default (.binary .div) [x, y]).code c .value st = .ok (k, st') ∧
      Scaled .div x.ty y.ty ∧ c.node.nativeFunctions.length ≤ 4096 ∧ k.Stands m.image m.pc ∧
      n.stack = [2, 32761, 3] ∧
      Steps c.node n { n with stack := [Int16.ofInt ((3 * (181 * 181) : Int).tdiv 2)], pc := size k, memory } := by
  let muldiv : NativeFunction := ⟨"math.muldiv", [-1, -1, -1, -1]⟩
  let c : Coder := ⟨⟨"", 10, [], [], [⟨"math.fill", [-1, 1]⟩, muldiv]⟩, ⟨.l2, 181, []⟩, 2, none, .stop⟩
  let x : Expr := .var ⟨default, .int, []⟩ ⟨"x", some ⟨0, [], .int, .absolute⟩⟩
  let y : Expr := .var ⟨default, .fixed, []⟩ ⟨"y", some ⟨1, [], .fixed, .absolute⟩⟩
  let st : Coding.State := ⟨8, default⟩
  let k : Code := plain [.load 0, .immediate 32761, .load 1] ++ (plain (pops 4 3) ++
    (plain ([1, 6, 5, 4, 7].map pushNat) ++ plain [.callNative 1]) ++ plain [.load 7])
  have hcode : (Expr.op default (.binary .div) [x, y]).code c .value st = .ok (k, ⟨4, default⟩) :=
    eq_ok_of_toOption (by decide +kernel)
  have hnative : c.node.native? "math.muldiv" = some (1, muldiv) := by decide +kernel
  have hscaled : Scaled .div x.ty y.ty := by decide
  have hcount : c.node.nativeFunctions.length ≤ 4096 := by decide
  obtain ⟨kx, ky, s₁, s₂, id, f, hx, hy, hf, -, hrun⟩ := scaled_arithmetic_exact hcode hscaled hcount
  obtain ⟨rfl, rfl⟩ := Prod.mk.inj (Except.ok.inj hx)
  obtain ⟨rfl, rfl⟩ := Prod.mk.inj (Except.ok.inj hy)
  obtain ⟨rfl, rfl⟩ := Prod.mk.inj (Option.some.inj (hf.symm.trans hnative))
  have hwords : muldiv.words = 5 := by decide +kernel
  let m : State := { State.start c.node k.words with memory := #[3, 2, 0, 0, 0, 0, 0, 0, 0, 0] }
  let n : State := { m with stack := [2, 32761, 3], pc := 4 }
  have hW : k.Stands m.image 0 := k.stands_words
  have hconstant : Stacks c.node 0 k (plain [.immediate 32761]) [32761] { m with stack := [3], pc := 1 }
      { m with stack := [32761, 3], pc := 3 } :=
    .immediate (p := 1) hW ⟨[_], _, rfl, rfl⟩ rfl (by decide)
  have hsquare : toCell (c.settings.factor.toInt32 * c.settings.factor.toInt32) = 32761 := by decide +kernel
  have hparts {α : Type} (constant : Cell → α) (u v : α) :
      c.scaledParts .div x.ty constant u v = [u, constant 32761, v] := by
    rw [← hsquare]
    rfl
  have hpushes : StacksEach c.node 0 k [plain [.load 0], plain [.immediate 32761], plain [.load 1]]
      [3, 32761, 2] m n :=
    .cons (.load (p := 0) hW ⟨[], _, rfl, rfl⟩ rfl rfl (by decide)) <| .cons hconstant <|
    .cons (.load (p := 3) hW ⟨[_, _], _, rfl, rfl⟩ rfl rfl (by decide)) <| .nil hW
  have hresult := (hrun m n 3 2 hW rfl (by rw [hwords]; decide) (by rw [hparts, hparts]; exact hpushes)).2
  rw [if_neg (by decide)] at hresult
  obtain ⟨memory, hsteps, -⟩ := hresult
  refine ⟨c, x, y, st, _, k, m, n, memory, rfl, rfl, rfl, hcode, hscaled, hcount, hW, rfl, ?_⟩
  have hvalue : (scaledDividend .div x.ty c.settings.factor.toInt (3 : Cell).toInt (2 : Cell).toInt).tdiv
      (scaledDivisor .div c.settings.factor.toInt (2 : Cell).toInt) = (3 * (181 * 181) : Int).tdiv 2 := by
    decide +kernel
  have hend : m.pc + size k = size k := Nat.zero_add _
  rw [hvalue, hend] at hsteps
  exact hsteps

end RobotScript
