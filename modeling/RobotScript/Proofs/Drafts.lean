/-
# Drafts of code

A draft is the code of an expression or a statement with notes in it. They say
what the words of the image do not show: whose element is about to be used,
which temporaries are taken, where a call begins and where the frame pointer
is that of the called function. `Emits` and `Stmt.Emits` say, one rule for each
form, which draft belongs to an expression and to a statement. The number of
the last temporary handed out goes from rule to rule.

Key definitions: `Note`, `Draft`, `Emits`, `Stmt.Emits`.
-/
import RobotScript.Code.Stmt

namespace RobotScript

open Machine (Instr Unary Binary)

/-! ### Code with notes -/

/-- What the word of a variable is wanted for. -/
inductive Use where
  | load
  | store
  /-- Its address is pushed. -/
  | address
  deriving DecidableEq, Repr

/-- A call of a function. -/
structure Site where
  callee : Signature
  args : List Expr
  /-- The frame of the calling function, in a function. -/
  frame : Option Nat
  /-- The last temporary handed out when the arguments have been pushed. -/
  temps : Nat
  /-- The number of words of code of each argument. -/
  sizes : List Nat
  /-- Whether the result is pushed. -/
  used : Bool

/-- What is to be known of the code from an address on. -/
inductive Note where
  /-- The position of an element of the variable is on top of the stack. -/
  | element (s : Storage) (use : Use)
  /-- An element of the variable at a fixed position is used. -/
  | constant (s : Storage) (k : Nat)
  /-- The temporaries from a word on are written to; the frame is that of the
  function at hand. -/
  | temps (frame : Option Nat) (base : Nat)
  /-- The arguments of a call are pushed, then the function is called. -/
  | call (site : Site)
  /-- The frame pointer is that of a called function. -/
  | moved

/-- An item of code, or a note on what follows. -/
inductive NotedItem where
  | item (i : Item)
  | note (n : Note)

abbrev Draft := List NotedItem

/-- The item at the address `here` of a loop that is closed. -/
def Item.close (next stop here : Nat) : Item → Option Item
  | .exit .leave 0 => (jumpBy? ((stop : Int) - here)).map .instr
  | .exit .again 0 => (jumpBy? ((next : Int) - here)).map .instr
  | .exit kind (d + 1) => some (.exit kind d)
  | item => some item

namespace Draft

/-- Plain instructions. -/
def plain (is : List Instr) : Draft := is.map fun i => .item (.instr i)

/-- Items under which the frame pointer is that of a called function. -/
def moved (items : List Item) : Draft := items.flatMap fun i => [.note .moved, .item i]

/-- The code of the draft. -/
def code (k : Draft) : Code := k.filterMap fun
  | .item i => some i
  | .note _ => none

/-- The number of words of the draft. -/
def size (k : Draft) : Nat := Code.size k.code

/-- The notes of a draft from the address `here` on, each with its address. -/
def notes : Nat → Draft → List (Nat × Note)
  | _, [] => []
  | here, .item i :: k => notes (here + i.size) k
  | here, .note n :: k => (here, n) :: notes here k

@[simp] theorem code_nil : code [] = [] := rfl

@[simp] theorem code_item (i : Item) (k : Draft) : code (.item i :: k) = i :: code k := rfl

@[simp] theorem code_note (n : Note) (k : Draft) : code (.note n :: k) = code k := rfl

@[simp] theorem code_append (k l : Draft) : code (k ++ l) = code k ++ code l :=
  List.filterMap_append

@[simp] theorem code_plain (is : List Instr) : code (plain is) = Code.plain is := by
  induction is with
  | nil => rfl
  | cons i is ih => exact congrArg (Item.instr i :: ·) ih

@[simp] theorem code_moved (items : List Item) : code (moved items) = items := by
  induction items with
  | nil => rfl
  | cons i items ih => exact congrArg (i :: ·) ih

@[simp] theorem size_nil : size [] = 0 := rfl

@[simp] theorem size_item (i : Item) (k : Draft) : size (.item i :: k) = i.size + size k := rfl

@[simp] theorem size_note (n : Note) (k : Draft) : size (.note n :: k) = size k := rfl

@[simp] theorem size_append (k l : Draft) : size (k ++ l) = size k + size l := by
  rw [size, code_append, Code.size_append]
  rfl

/-- The code of a loop from the address `here` on, with the jumps out of it
resolved: `leave` goes to `stop` and `again` to `next`. -/
def closeLoop (next stop : Nat) : Nat → Draft → Option Draft
  | _, [] => some []
  | here, .note n :: k => return .note n :: (← closeLoop next stop here k)
  | here, .item i :: k =>
    return .item (← i.close next stop here) :: (← closeLoop next stop (here + i.size) k)

/-- Code that pushes a value without an effect, made to fit a goal. -/
def reachPure (goal : Goal) (k : Draft) : Draft :=
  match goal with
  | .value => k
  | .effect => []
  | .test => k ++ plain [.immediate 0]

/-- Code that has pushed a value unless only the effect is wanted. -/
def reachUsed (goal : Goal) (k : Draft) : Draft :=
  match goal with
  | .test => k ++ plain [.immediate 0]
  | _ => k

end Draft

open Draft (plain)

/-! ### Variables -/

/-- An address of the variable memory that an operand can have. -/
def Coder.Fits (c : Coder) (addr : Nat) : Prop := addr < 0x1000 ∧ addr < c.node.maxVarSize

/-- Which word of a variable is meant, in storage order. -/
inductive Spot where
  | known (k : Nat)
  /-- The word whose position is computed from the indices. -/
  | computed (indices : List Expr)
  /-- The word whose position a temporary holds. -/
  | saved (temp : Nat)

/-- The position that indices give at once. -/
def Expr.knownIndex? : List Expr → Option Nat
  | [.number _ n] => if 0 ≤ n then some n.toInt.toNat else none
  | _ => none

namespace Use

/-- Use the word at an address. -/
def direct (addr : Nat) : Use → Instr
  | load => .load (UInt16.ofNat addr)
  | store => .store (UInt16.ofNat addr)
  | address => Coder.pushNat addr

/-- Use the word that lies as far behind an address as the stack says; that
itself is the address for no other use. -/
def indirect (addr : Nat) (size : Word) : Use → List Instr
  | load => [.loadIndirect (UInt16.ofNat addr) size]
  | store => [.storeIndirect (UInt16.ofNat addr) size]
  | address => []

end Use

namespace Storage

variable (c : Coder) (s : Storage)

/-- Push the address that a reference parameter holds. -/
def held : List Instr := [.load c.frameSlot, .loadIndirect (UInt16.ofNat s.offset) c.memorySize]

/-- Push the address of a variable in the frame. -/
def framed : List Instr := [.load c.frameSlot, Coder.pushNat s.offset, .binary .add]

/-- The use of a word at a fixed position, where it needs no position on the
stack. -/
def fixed? (use : Use) (k : Nat) : Option (List Instr) :=
  match s.mode, use, k with
  | .absolute, use, k => some [use.direct (s.offset + k)]
  | .frame, .address, 0 => some (s.framed c)
  | .frame, .address, _ => none
  | .frame, use, k => some (.load c.frameSlot :: use.indirect (s.offset + k) c.memorySize)
  | .reference, use, 0 => some (s.held c ++ use.indirect 0 c.memorySize)
  | .reference, _, _ => none

/-- What comes before the position of a word. -/
def front (use : Use) : List Instr :=
  match s.mode, use with
  | .absolute, .address => [Coder.pushNat s.offset]
  | .frame, .address => s.framed c
  | .reference, _ => s.held c
  | _, _ => []

/-- The use of a word whose position is on the stack. -/
def back (use : Use) : List Instr :=
  match s.mode, use with
  | _, .address => [.binary .add]
  | .absolute, use => use.indirect s.offset (UInt16.ofNat s.size)
  | .frame, use => [.load c.frameSlot, .binary .add] ++ use.indirect s.offset c.memorySize
  | .reference, use => .binary .add :: use.indirect 0 c.memorySize

/-- The operands that the use of a word needs can be had. -/
def Usable (use : Use) (k : Nat) : Prop :=
  match s.mode, use with
  | .reference, _ => c.Fits s.offset
  | _, .address => True
  | _, _ => c.Fits (s.offset + k)

/-- The use of the word at a spot as it is at once. -/
def direct? (use : Use) : Spot → Option (List Instr)
  | .known k => s.fixed? c use k
  | _ => none

end Storage

/-! ### Uses of places -/

/-- Generating code fails unless an operand can have the address. -/
def Coder.check (c : Coder) (addr : Nat) : Coding Unit := do
  let _ ← c.address addr

theorem Coder.address_bind {α : Type} (c : Coder) (addr : Nat) (f : Word → Coding α) :
    c.address addr >>= f = c.check addr >>= fun _ => f (UInt16.ofNat addr) := by
  unfold check address
  split
  · simp only [bind_assoc]
    rfl
  · rfl

/-- Generating code fails unless the operands that the use of a word needs can be had. -/
def Storage.check (c : Coder) (s : Storage) (use : Use) (k : Nat) : Coding Unit :=
  match s.mode, use with
  | .reference, _ => c.check s.offset
  | _, .address => return
  | _, _ => c.check (s.offset + k)

namespace Place

variable (c : Coder) (p : Place) (u : Use)

/-- Use the word of a place. -/
def use : Use → Coding Code
  | .load => p.load c
  | .store => p.store c
  | .address => p.push c

/-- The position of the word, if that is known. -/
def known : Nat :=
  match p.element with
  | .known k => k
  | _ => 0

/-- The use of the word as it is at once. -/
def direct? : Option (List Instr) :=
  match p.element with
  | .known k => p.storage.fixed? c u k
  | _ => none

/-- A word is used at once, or its position is computed between what comes before it and the use. -/
theorem use_eq : p.use c u = match p.direct? c u with
    | some is => do
      p.storage.check c u p.known
      return .plain is
    | none => do
      p.storage.check c u 0
      return .plain (p.storage.front c u) ++ (← p.position) ++ .plain (p.storage.back c u) := by
  obtain ⟨⟨offset, dims, ty, mode⟩, element⟩ := p
  have hzero : UInt16.ofNat 0 = 0 := rfl
  cases mode <;> cases u <;> rcases element with (_ | k) | x | temp <;>
    simp only [use, load, store, push, access, referenced, direct?, known, position, Storage.fixed?,
      Storage.check, Storage.front, Storage.back, Storage.held, Storage.framed, Use.direct, Use.indirect,
      hzero, Coder.address_bind, bind_assoc, pure_bind, Nat.add_zero, Code.plain, List.map_nil,
      List.append_assoc, List.nil_append, List.append_nil, List.map_cons, List.cons_append]

end Place

/-! ### Calls -/

namespace Coder

variable (c : Coder)

/-- Pop `n` words into the words from `base` on, the last one first. -/
def pops (base n : Nat) : List Instr :=
  (List.range n).reverse.map fun k => .store (UInt16.ofNat (base + k))

/-- The number of temporaries in use. -/
def live (next : Nat) : Nat := c.tempTop - next

/-- Where the frame of a called function starts: from the frame of a calling
function on, else from the start of memory on. The temporaries in use are saved
before it. -/
def calleeBase (next : Nat) : Nat := c.frameSize.getD c.moduleSize + c.live next

/-- Pop the arguments into the frame of the called function, save the
temporaries in use and set the frame pointer. -/
def callFront (s : Signature) (next : Nat) : List Instr :=
  let callee := c.calleeBase next
  match c.frameSize with
  | some frame =>
    (s.params.reverse.flatMap fun p =>
      [.load c.frameSlot, .storeIndirect (UInt16.ofNat (callee + p.offset)) c.memorySize]) ++
    ((List.range (c.live next)).flatMap fun k =>
      [.load (UInt16.ofNat (next + k)), .load c.frameSlot,
        .storeIndirect (UInt16.ofNat (frame + k)) c.memorySize]) ++
    [.load c.frameSlot, pushNat callee, .binary .add, .store c.frameSlot]
  | none =>
    (s.params.reverse.flatMap fun p => [.store (UInt16.ofNat (callee + p.offset))]) ++
    ((List.range (c.live next)).flatMap fun k =>
      [.load (UInt16.ofNat (next + k)), .store (UInt16.ofNat (c.moduleSize + k))]) ++
    [pushNat callee, .store c.frameSlot]

/-- Set the frame pointer of a calling function again. -/
def callReset (next : Nat) : List Instr :=
  match c.frameSize with
  | some _ => [.load c.frameSlot, pushNat (c.calleeBase next), .binary .sub, .store c.frameSlot]
  | none => []

/-- Restore the temporaries that were saved. -/
def callRestore (next : Nat) : List Instr :=
  (List.range (c.live next)).flatMap fun k =>
    match c.frameSize with
    | some frame => [.load c.frameSlot, .loadIndirect (UInt16.ofNat (frame + k)) c.memorySize,
        .store (UInt16.ofNat (next + k))]
    | none => [.load (UInt16.ofNat (c.moduleSize + k)), .store (UInt16.ofNat (next + k))]

/-- Push the result of a function, if it is used. -/
def callResult (used : Bool) : List Instr := if used then [.load c.returnSlot] else []

/-- Call a function with the arguments on top of the stack. -/
def callDraft (s : Signature) (next : Nat) (used : Bool) (span : Span) : Draft :=
  plain (c.callFront s next) ++
    Draft.moved (.call s.name span :: (c.callReset next).map .instr) ++
    plain (c.callRestore next ++ c.callResult used)

/-- A firmware function can be called with arguments of the sizes given, and
gets the sizes of groups and of single arguments. -/
def Natively (name : String) (sizes : List Nat) (id : Word) (groups free : List Nat) : Prop :=
  ∃ f, c.node.native? name = some (id, f) ∧ f.args.length = sizes.length ∧
    nativeSizes? f.args sizes = some (groups, free)

/-- Push the sizes of arguments, then their addresses, and call a firmware
function. -/
def nativeDraft (id : Word) (groups free : List Nat) (addresses : Draft) : Draft :=
  plain (groups.map pushNat ++ free.reverse.map pushNat) ++ addresses ++ plain [.callNative id]

end Coder

/-- Call a firmware function on the words on top of the stack. -/
inductive OnValues (c : Coder) (name : String) (n : Nat) (used : Bool) : Nat → Draft → Nat → Prop
  | intro {id : Word} (hbase : c.moduleSize ≤ base)
    (hcall : c.Natively name (List.replicate (n + 1) 1) id groups free) :
    OnValues c name n used (base + (n + 1))
      (.note (.temps c.frameSize base) :: plain (Coder.pops base n) ++
        Coder.nativeDraft id groups free
          (plain (((base + n) :: (List.range n).map (base + ·)).reverse.map Coder.pushNat)) ++
        plain (if used then [.load (UInt16.ofNat (base + n))] else []))
      base

/-- Code that pushes a value, made to fit a goal. -/
inductive Fitted (c : Coder) : Goal → Draft → Nat → Draft → Nat → Prop
  | value : Fitted c .value k t k t
  | effect (ht : c.moduleSize ≤ t) :
    Fitted c .effect k (t + 1) (k ++ .note (.temps c.frameSize t) :: plain [.store (UInt16.ofNat t)]) t
  | test : Fitted c .test k t (k ++ plain [.immediate 0]) t

/-- The operands of a product or quotient that is left to the firmware. -/
def Coder.scaledOperands (c : Coder) (b : Binary) (xTy yTy : Ty) (x y : Draft) : Option Draft :=
  let factor := c.settings.factor
  match b, xTy == .fixed, yTy == .fixed with
  | .mult, true, true => some (x ++ y ++ plain [.immediate factor])
  | .div, true, true => some (x ++ plain [.immediate factor] ++ y)
  | .div, false, true =>
    some (x ++ plain [.immediate (toCell (factor.toInt32 * factor.toInt32))] ++ y)
  | _, _, _ => none

/-- Combine two values. -/
inductive Combines (c : Coder) (b : Binary) (xTy yTy : Ty) (x y : Draft) : Nat → Draft → Nat → Prop
  | plainly (h : c.scaledOperands b xTy yTy x y = none) :
    Combines c b xTy yTy x y t (x ++ y ++ plain [.binary b]) t
  | scaled (h : c.scaledOperands b xTy yTy x y = some k)
    (hn : OnValues c "math.muldiv" 3 true t k' t') : Combines c b xTy yTy x y t (k ++ k') t'

/-! ### Expressions -/

/-- An argument of a firmware function. -/
inductive Passed where
  | place (s : Storage) (spot : Spot)
  /-- Words on the stack. -/
  | words (n : Nat)

/-- Where an argument of a firmware function is found. -/
inductive Found where
  | place (s : Storage) (spot : Spot)
  | temp (base : Nat)

/-- What code is wanted for. -/
inductive Job where
  | expr (goal : Goal) (e : Expr)
  /-- Push the position of the element with the given indices, of which there
  are `k` before. -/
  | indices (dims : List Nat) (k stride : Nat) (es : List Expr)
  | position (dims : List Nat) (spot : Spot)
  /-- What comes before the uses of a place. -/
  | place (reused : Bool) (e : Expr) (s : Storage) (spot : Spot)
  | access (use : Use) (s : Storage) (spot : Spot)
  /-- Push the word of a place if it is wanted. -/
  | kept (used : Bool) (s : Storage) (spot : Spot)
  | values (es : List Expr)
  | argument (p : Param) (e : Expr)
  /-- Push the words at fixed positions. -/
  | each (s : Storage) (ks : List Nat)
  /-- Push the words of a value, of which there are `n`. -/
  | words (e : Expr) (n : Nat)
  | nativeArgs (es : List Expr) (args : List Passed)
  /-- Push the addresses of arguments, the last one first. -/
  | addresses (args : List Found)

/-- The unary operator of the machine. -/
def Op.unary? : Op → Option Unary
  | .negate => some .neg
  | .abs => some .abs
  | .bitNot => some .bitNot
  | _ => none

/-- The drafts for a job, with the last temporary handed out before and behind
it. -/
inductive Emits (c : Coder) : Job → Nat → Draft → Nat → Prop
  | number : Emits c (.expr goal (.number i n)) t (.reachPure goal (plain [.immediate n])) t
  | fixed :
    Emits c (.expr goal (.fixed i f)) t (.reachPure goal (plain [.immediate (c.settings.scaled f)])) t
  | placeholder : Emits c (.expr goal (.placeholder i)) t (.reachPure goal []) t
  | unusedVar : Emits c (.expr .effect (.var i v)) t [] t
  | var (hgoal : goal ≠ .effect) (hv : v.storage = some s) (hsize : s.size = 1)
    (hk : Emits c (.access .load s (.known 0)) t k t') :
    Emits c (.expr goal (.var i v)) t (.reachUsed goal k) t'
  | index (hk : Emits c (.place false (.index i v es) s spot) t k t1)
    (hk' : Emits c (.access .load s spot) t1 k' t2) (hl : Fitted c goal (k ++ k') t2 l t') :
    Emits c (.expr goal (.index i v es)) t l t'
  | call (ks : Nat → Draft) (ts : Nat → Nat) (hlength : es.length = s.params.length)
    (hks : ∀ j p e, s.params[j]? = some p → es[j]? = some e →
      Emits c (.argument p e) (ts j) (ks j) (ts (j + 1))) :
    Emits c (.expr goal (.call i name (some (.function s)) es)) (ts 0)
      (.reachUsed goal (.note (.call ⟨s, es, c.frameSize, ts es.length,
          (List.range es.length).map fun j => (ks j).size, goal ≠ .effect⟩) ::
        ((List.range es.length).flatMap ks ++
          c.callDraft s (ts es.length) (goal ≠ .effect) i.span)))
      (ts es.length)
  | native (hb : b.native? = some native) (hk : Emits c (.values es) t k t1)
    (hk' : OnValues c native es.length (goal ≠ .effect) t1 k' t') :
    Emits c (.expr goal (.call i name (some (.builtin b)) es)) t (.reachUsed goal (k ++ k')) t'
  | absolute (hb : b.native? = none) (hk : Emits c (.expr .value x) t k t1)
    (hl : Fitted c goal (k ++ plain [.unary .abs]) t1 l t') :
    Emits c (.expr goal (.call i name (some (.builtin b)) [x])) t l t'
  | comparison (hb : b.isComparison = true) (hk : Emits c (.expr .value x) t k t1)
    (hk' : Emits c (.expr .value y) t1 k' t') :
    Emits c (.expr .test (.op i (.binary b) [x, y])) t (k ++ k') t'
  | binary (hgoal : ¬(goal = .test ∧ b.isComparison = true))
    (hk : Emits c (.expr .value x) t k t1) (hk' : Emits c (.expr .value y) t1 k' t2)
    (hl : Combines c b x.ty y.ty k k' t2 l t3) (hl' : Fitted c goal l t3 l' t') :
    Emits c (.expr goal (.op i (.binary b) [x, y])) t l' t'
  | logic (ho : o = .logicAnd ∨ o = .logicOr) (hk : Emits c (.expr .value x) t k t1)
    (hk' : Emits c (.expr .value y) t1 k' t2) (hskip : jumpBy? (1 + k'.size) = some skip)
    (hl : Fitted c goal (k ++ plain [.store c.returnSlot, .load c.returnSlot, .immediate 0,
        .branch (if o = .logicAnd then .eq else .ne) false 4, .load c.returnSlot] ++
      plain [skip] ++ k') t2 l t') :
    Emits c (.expr goal (.op i o [x, y])) t l t'
  | unary (ho : o.unary? = some u) (hk : Emits c (.expr .value x) t k t1)
    (hl : Fitted c goal (k ++ plain [.unary u]) t1 l t') :
    Emits c (.expr goal (.op i o [x])) t l t'
  | notTest (hk : Emits c (.expr .value x) t k t') :
    Emits c (.expr .test (.op i .not [x])) t (k ++ plain [.immediate 0]) t'
  | not (hgoal : goal ≠ .test) (hk : Emits c (.expr .value x) t k t1)
    (hl : Fitted c goal (k ++ plain [.immediate 0, .binary .eq]) t1 l t') :
    Emits c (.expr goal (.op i .not [x])) t l t'
  | cast (hk : Emits c (.expr .value x) t k t1)
    (hl : Fitted c goal (k ++ plain (c.convert x.ty ty)) t1 l t') :
    Emits c (.expr goal (.op i (.cast ty) [x])) t l t'
  | choice {cond : Expr} (hk : Emits c (.expr .test cond) t k t1)
    (hk1 : Emits c (.expr .value a) t1 k1 t2)
    (hbranch : branchBy? cond.testOp false (2 + k1.size + 1) = some branch)
    (hk2 : Emits c (.expr .value b) t2 k2 t3) (hskip : jumpBy? (1 + k2.size) = some skip)
    (hl : Fitted c goal (k ++ plain [branch] ++ k1 ++ plain [skip] ++ k2) t3 l t') :
    Emits c (.expr goal (.op i .conditional [cond, .op j .conditionalElse [a, b]])) t l t'
  | comma (hk : Emits c (.expr .effect a) t k t1)
    (hk' : Emits c (.expr (if goal = .effect then .effect else .value) b) t1 k' t') :
    Emits c (.expr goal (.op i .comma [a, b])) t (.reachUsed goal (k ++ k')) t'
  | assign (hk : Emits c (.place (goal ≠ .effect || Op.assign ≠ .assign) target s spot) t k t1)
    (hk1 : Emits c (.expr .value value) t1 k1 t2) (hk2 : Emits c (.access .store s spot) t2 k2 t3)
    (hk3 : Emits c (.kept (goal ≠ .effect) s spot) t3 k3 t') :
    Emits c (.expr goal (.op i .assign [target, value])) t (.reachUsed goal (k ++ (k1 ++ k2 ++ k3))) t'
  | post (ho : o = .postIncrement ∨ o = .postDecrement)
    (hk : Emits c (.place (goal ≠ .effect || o ≠ .assign) target s spot) t k t1)
    (hk1 : Emits c (.kept (goal ≠ .effect) s spot) t1 k1 t2)
    (hk2 : Emits c (.access .load s spot) t2 k2 t3) (hk3 : Emits c (.expr .value value) t3 k3 t4)
    (hk4 : Emits c (.access .store s spot) t4 k4 t') :
    Emits c (.expr goal (.op i o [target, value])) t
      (.reachUsed goal (k ++ (k1 ++ k2 ++ k3 ++ k4))) t'
  | update (hassign : o.isAssignment = true)
    (ho : o ≠ .assign ∧ o ≠ .postIncrement ∧ o ≠ .postDecrement)
    (hk : Emits c (.place (goal ≠ .effect || o ≠ .assign) target s spot) t k t1)
    (hk1 : Emits c (.access .load s spot) t1 k1 t2) (hk2 : Emits c (.expr .value value) t2 k2 t3)
    (hk3 : Emits c (.access .store s spot) t3 k3 t4)
    (hk4 : Emits c (.kept (goal ≠ .effect) s spot) t4 k4 t') :
    Emits c (.expr goal (.op i o [target, value])) t
      (.reachUsed goal (k ++ (k1 ++ k2 ++ k3 ++ k4))) t'
  | noIndex : Emits c (.indices dims k stride []) t [] t
  | indexOf (hk : Emits c (.expr .value e) t k t1)
    (hk' : Emits c (.indices dims (j + 1) (stride * dims[j]?.getD 1) es) t1 k' t') :
    Emits c (.indices dims j stride (e :: es)) t
      (k ++ plain ((if stride = 1 then [] else [Coder.pushNat stride, .binary .mult]) ++
        (if j = 0 then [] else [.binary .add])) ++ k') t'
  | known : Emits c (.position dims (.known j)) t (plain [Coder.pushNat j]) t
  | computed
    (hk : Emits c (.indices dims 0 1 es) t k t') : Emits c (.position dims (.computed es)) t k t'
  | saved : Emits c (.position dims (.saved temp)) t (plain [.load (UInt16.ofNat temp)]) t
  | varPlace (hv : v.storage = some s) : Emits c (.place reused (.var i v) s (.known 0)) t [] t
  | knownPlace (hv : v.storage = some s) (hes : Expr.knownIndex? es = some j) :
    Emits c (.place reused (.index i v es) s (.known j)) t [] t
  | computedPlace (hv : v.storage = some s) (hes : Expr.knownIndex? es = none)
    (hpure : reused = true → Expr.allPure es = true) :
    Emits c (.place reused (.index i v es) s (.computed es)) t [] t
  | savedPlace (hv : v.storage = some s) (hes : Expr.knownIndex? es = none)
    (hk : Emits c (.indices s.dims 0 1 es) t k (t' + 1)) (ht : c.moduleSize ≤ t') :
    Emits c (.place true (.index i v es) s (.saved t')) t
      (k ++ .note (.temps c.frameSize t') :: plain [.store (UInt16.ofNat t')]) t'
  | direct (h : s.fixed? c use j = some is) (hs : s.Usable c use j) :
    Emits c (.access use s (.known j)) t (.note (.constant s j) :: plain is) t
  | indexed (h : s.direct? c use spot = none) (hs : s.Usable c use 0)
    (hk : Emits c (.position s.dims spot) t k t') :
    Emits c (.access use s spot) t
      (plain (s.front c use) ++ k ++ .note (.element s use) :: plain (s.back c use)) t'
  | notKept : Emits c (.kept false s spot) t [] t
  | kept (hk : Emits c (.access .load s spot) t k t') : Emits c (.kept true s spot) t k t'
  | noValue : Emits c (.values []) t [] t
  | valueOf (hk : Emits c (.expr .value e) t k t1) (hk' : Emits c (.values es) t1 k' t') :
    Emits c (.values (e :: es)) t (k ++ k') t'
  | reference (hp : p.byRef = true) (hk : Emits c (.place false e s spot) t k t1)
    (hk' : Emits c (.access .address s spot) t1 k' t') : Emits c (.argument p e) t (k ++ k') t'
  | argument (hp : p.byRef = false)
    (hk : Emits c (.expr .value e) t k t') : Emits c (.argument p e) t k t'
  | none : Emits c (.each s []) t [] t
  | each (hk : Emits c (.access .load s (.known j)) t k t1) (hk' : Emits c (.each s js) t1 k' t') :
    Emits c (.each s (j :: js)) t (k ++ k') t'
  | arrayWords (hk : Emits c (.values items) t k t') :
    Emits c (.words (.array i items) items.length) t k t'
  | varWords (hsize : (Expr.var i v).size ≠ 1) (hv : v.storage = some s)
    (hk : Emits c (.each s (List.range s.size)) t k t') :
    Emits c (.words (.var i v) s.size) t k t'
  | word (hk : Emits c (.expr .value e) t k t') : Emits c (.words e 1) t k t'
  | noArg : Emits c (.nativeArgs [] []) t [] t
  | placeArg (hk : Emits c (.place false e s spot) t k t1)
    (hk' : Emits c (.nativeArgs es args) t1 k' t') :
    Emits c (.nativeArgs (e :: es) (.place s spot :: args)) t (k ++ k') t'
  | wordsArg (he : e.isPlace = false) (hk : Emits c (.words e n) t k t1)
    (hk' : Emits c (.nativeArgs es args) t1 k' t') :
    Emits c (.nativeArgs (e :: es) (.words n :: args)) t (k ++ k') t'
  | noAddress : Emits c (.addresses []) t [] t
  | placeAddress
    (hk : Emits c (.addresses args) t k t1) (hk' : Emits c (.access .address s spot) t1 k' t') :
    Emits c (.addresses (.place s spot :: args)) t (k ++ k') t'
  | tempAddress (hk : Emits c (.addresses args) t k t') :
    Emits c (.addresses (.temp base :: args)) t (k ++ plain [Coder.pushNat base]) t'

/-- Pop the words of arguments into temporaries, the last argument first. -/
inductive Popped (c : Coder) : List Passed → Nat → Draft → List Found → Nat → Prop
  | nil : Popped c [] t [] [] t
  | place (h : Popped c args t k found t') :
    Popped c (.place s spot :: args) t k (.place s spot :: found) t'
  | words (h : Popped c args t k found (base + n)) (hbase : c.moduleSize ≤ base) :
    Popped c (.words n :: args) t
      (k ++ .note (.temps c.frameSize base) :: plain (Coder.pops base n)) (.temp base :: found) base

/-! ### Statements -/

/-- A condition, if there is one. -/
inductive Tests (c : Coder) : Option Expr → Nat → Draft → Nat → Prop
  | none : Tests c none t [] t
  | some (h : Emits c (.expr .test e) t k t') : Tests c (some e) t k t'

/-- The branch over a distance that ends a test, if there is one. -/
inductive Branches (op : Option Binary) (distance : Nat) : Draft → Prop
  | none (h : op = none) : Branches op distance []
  | some (h : op = some b) (hi : branchBy? b false distance = some i) :
    Branches op distance (plain [i])

/-- The step of a loop, if there is one. -/
inductive Advances (c : Coder) : Option Expr → Nat → Draft → Nat → Prop
  | none : Advances c none t [] t
  | some (h : Emits c (.expr .effect e) c.tempTop k t') : Advances c (some e) t k t'

/-- The tests of a switch in order, each without its branch. -/
inductive CaseTests (c : Coder) : List Stmt → Nat → List Draft → Nat → Prop
  | nil : CaseTests c [] t [] t
  | case {span : Span} (hk : Emits c (.expr .value value) t k t1) (hks : CaseTests c ss t1 ks t') :
    CaseTests c (.case span value :: ss) t ((plain [.load c.returnSlot] ++ k) :: ks) t'
  | other (hs : ∀ span value, s ≠ .case span value) (hks : CaseTests c ss t ks t') :
    CaseTests c (s :: ss) t ks t'

/-- The tests of a switch with their branches. -/
def Draft.joinTests : List Draft → List Instr → Draft
  | test :: tests, branch :: branches => test ++ plain [branch] ++ joinTests tests branches
  | _, _ => []

/-- Where the words of an event are sent from. -/
inductive Sends (c : Coder) : Option Expr → Nat → Draft → Nat → Nat → Prop
  | nothing : Sends c none t [] 0 t
  | inPlace (hv : v.storage = some s)
    (hs : s.mode = .absolute) : Sends c (some (.var i v)) t [] s.offset t
  | words (hk : Emits c (.words e n) t k (base + n)) (hbase : c.moduleSize ≤ base) :
    Sends c (some e) t (k ++ .note (.temps c.frameSize base) :: plain (Coder.pops base n)) base base

namespace Stmt

/-- What the code of statements is wanted for. -/
inductive Job where
  | stmt (flows : List Flow) (s : Stmt)
  /-- A statement behind the mark of its place. -/
  | inner (flows : List Flow) (s : Stmt)
  | arms (flows : List Flow) (arms : Arms)
  | block (flows : List Flow) (ss : List Stmt)
  /-- The body of a switch from an address on, with the branches of its tests
  and the address of its last `default`. -/
  | cases (flows : List Flow) (gaps : List Nat) (here : Nat) (ss : List Stmt)
    (branches : List Instr) (start : Option Nat)

/-- The drafts for statements, with the last temporary handed out before and
behind them. -/
inductive Emits (c : Coder) : Job → Nat → Draft → Nat → Prop
  | stmt (hk : Emits c (.inner flows s) c.tempTop k t') :
    Emits c (.stmt flows s) t (if s.isMarked then .item (.mark s.span) :: k else k) t'
  | nothing (hs : (∃ span d, s = .varDecl span d) ∨
      (∃ span name e, s = .constDecl span name e) ∨ (∃ span, s = .empty span) ∨
      (∃ span e, s = .case span e) ∨ ∃ span, s = .default span) : Emits c (.inner flows s) t [] t
  | expr {span : Span} (hk : RobotScript.Emits c (.expr .effect e) t k t') :
    Emits c (.inner flows (.expr span e)) t k t'
  | branch {span : Span}
    (hk : Emits c (.arms flows arms) t k t') : Emits c (.inner flows (.branch span arms)) t k t'
  | whenever {span : Span} {cond : Expr} (hk : RobotScript.Emits c (.expr .test cond) t k t1)
    (hk' : Emits c (.block flows body) t1 k' t')
    (hi : branchBy? cond.testOp true (2 + k'.size) = some i) :
    Emits c (.inner flows (.whenever span cond body)) t (k ++ plain [i] ++ k') t'
  | whileLoop {span : Span} {cond : Option Expr} (hk : Tests c cond t k t1)
    (hk' : Emits c (.block (⟨tag, false⟩ :: flows) body) t1 k' t')
    (hb : Branches (cond.map (·.testOp)) (2 + k'.size + 1) b)
    (hi : jumpBy? (-((k ++ b ++ k').size : Int)) = some i)
    (hl : Draft.closeLoop 0 (k ++ b ++ k' ++ plain [i]).size 0 (k ++ b ++ k' ++ plain [i]) = some l) :
    Emits c (.inner flows (.whileLoop span tag cond body)) t l t'
  | doWhile {span : Span} {cond : Expr} (hk : Emits c (.block (⟨tag, false⟩ :: flows) body) t k t1)
    (hk' : RobotScript.Emits c (.expr .test cond) t1 k' t')
    (hi : jumpBy? (-((k ++ k' ++ plain [.branch cond.testOp false 3]).size : Int)) = some i)
    (hl : Draft.closeLoop k.size (k ++ k' ++ plain [.branch cond.testOp false 3] ++ plain [i]).size 0
      (k ++ k' ++ plain [.branch cond.testOp false 3] ++ plain [i]) = some l) :
    Emits c (.inner flows (.doWhile span tag body cond)) t l t'
  | rangeFor {span : Span} (hn : n = (step.bind Expr.number?).getD 1)
    (hk : RobotScript.Emits c (.place false var s spot) t k t1)
    (hk1 : RobotScript.Emits c (.expr .value first) t1 k1 t2)
    (hk2 : RobotScript.Emits c (.access .store s spot) t2 k2 t3)
    (hk3 : RobotScript.Emits c (.access .load s spot) t3 k3 t4)
    (hk4 : RobotScript.Emits c (.expr .value last) t4 k4 t5)
    (hk5 : Emits c (.block (⟨tag, false⟩ :: flows) body) t5 k5 t6)
    (hk6 : RobotScript.Emits c (.access .load s spot) t6 k6 t7)
    (hk7 : RobotScript.Emits c (.access .store s spot) t7 k7 t')
    (hb : Branches (some (if 0 ≤ n then .le else .ge))
      (2 + k5.size + (k6 ++ plain [.immediate n, .binary .add] ++ k7).size + 1) b)
    (hi : jumpBy? (-((k3 ++ k4 ++ b ++ k5 ++
      (k6 ++ plain [.immediate n, .binary .add] ++ k7)).size : Int)) = some i)
    (hl : Draft.closeLoop (k3 ++ k4 ++ b ++ k5).size
      (k3 ++ k4 ++ b ++ k5 ++ (k6 ++ plain [.immediate n, .binary .add] ++ k7) ++ plain [i]).size 0
      (k3 ++ k4 ++ b ++ k5 ++ (k6 ++ plain [.immediate n, .binary .add] ++ k7) ++ plain [i]) =
        some l) :
    Emits c (.inner flows (.rangeFor span tag var first last step body)) t (k ++ k1 ++ k2 ++ l) t'
  | forLoop {span : Span}
    {cond : Option Expr} (hk : Emits c (.block flows init) t k t1) (hk1 : Tests c cond t1 k1 t2)
    (hk2 : Emits c (.block (⟨tag, false⟩ :: flows) body) t2 k2 t3) (hk3 : Advances c step t3 k3 t')
    (hb : Branches (cond.map (·.testOp)) (2 + k2.size + k3.size + 1) b)
    (hi : jumpBy? (-((k1 ++ b ++ k2 ++ k3).size : Int)) = some i)
    (hl : Draft.closeLoop (k1 ++ b ++ k2).size (k1 ++ b ++ k2 ++ k3 ++ plain [i]).size 0
      (k1 ++ b ++ k2 ++ k3 ++ plain [i]) = some l) :
    Emits c (.inner flows (.forLoop span tag init cond step body)) t (k ++ l) t'
  | switch {span : Span}
    (hk : RobotScript.Emits c (.expr .value subject) t k t1) (hks : CaseTests c body t1 ks t2)
    (hk' : Emits c (.cases (⟨tag, true⟩ :: flows) (Coder.testGaps (ks.map (·.code))) 0 body branches
      start) t2 k' t')
    (hskip : jumpBy? (1 + start.getD k'.size) = some skip)
    (hl : Draft.closeLoop
      (k ++ plain [.store c.returnSlot] ++ .joinTests ks branches ++ plain [skip] ++ k').size
      (k ++ plain [.store c.returnSlot] ++ .joinTests ks branches ++ plain [skip] ++ k').size 0
      (k ++ plain [.store c.returnSlot] ++ .joinTests ks branches ++ plain [skip] ++ k') = some l) :
    Emits c (.inner flows (.switch span tag subject body)) t l t'
  | block {span : Span}
    (hk : Emits c (.block flows body) t k t') : Emits c (.inner flows (.block span body)) t k t'
  | label {span : Span} : Emits c (.inner flows (.label span name)) t [.item (.label name)] t
  | goto {span : Span} : Emits c (.inner flows (.goto span name)) t [.item (.goto name span)] t
  | exit {span : Span} (hd : Flow.depth flows kind tag span = .ok d) :
    Emits c (.inner flows (.exit span kind tag)) t [.item (.exit kind d)] t
  | native {span : Span}
    {id : Word}
    (hk : RobotScript.Emits c (.nativeArgs args passed) t k t1) (hk1 : Popped c passed t1 k1 found t2)
    (hcall : c.Natively name (args.map (·.size)) id groups free)
    (hk2 : RobotScript.Emits c (.addresses found) t2 k2 t') :
    Emits c (.inner flows (.native span name args)) t
      (k ++ k1 ++ Coder.nativeDraft id groups free k2) t'
  | callSub {span : Span} :
    Emits c (.inner flows (.callSub span name)) t [.item (.call name span)] t
  | emit {span : Span}
    {id : Word}
    (hevent : c.settings.userEvent? event = some (id, decl)) (hk : Sends c value t k addr t') :
    Emits c (.inner flows (.emit span event value)) t
      (k ++ plain [.emit id (UInt16.ofNat addr) (UInt16.ofNat ((value.map (·.size)).getD 0))]) t'
  | ret {span : Span} : Emits c (.inner flows (.ret span none)) t (plain [c.exit]) t
  | retValue {span : Span} (hk : RobotScript.Emits c (.expr .value e) t k t') :
    Emits c (.inner flows (.ret span (some e))) t (k ++ plain [.store c.returnSlot, c.exit]) t'
  | noArm : Emits c (.arms flows .done) t [] t
  | otherwise
    (hk : Emits c (.block flows body) t k t') : Emits c (.arms flows (.otherwise body)) t k t'
  | arm {span : Span} {cond : Expr}
    (hk : RobotScript.Emits c (.expr .test cond) t k t1) (hk1 : Emits c (.block flows body) t1 k1 t2)
    (hi : branchBy? cond.testOp false (2 + k1.size + if rest.isDone then 0 else 1) = some i)
    (hk2 : Emits c (.arms flows rest) t2 k2 t')
    (hskip : rest.isDone = true ∧ skip = [] ∨
      rest.isDone = false ∧ ∃ j, jumpBy? (1 + k2.size) = some j ∧ skip = [j]) :
    Emits c (.arms flows (.arm span cond body rest)) t (k ++ plain [i] ++ k1 ++ plain skip ++ k2) t'
  | nil : Emits c (.block flows []) t [] t
  | cons (hk : Emits c (.stmt flows s) t k t1) (hk' : Emits c (.block flows ss) t1 k' t') :
    Emits c (.block flows (s :: ss)) t (k ++ k') t'
  | noCase {gaps : List Nat} {here : Nat} : Emits c (.cases flows gaps here [] [] none) t [] t
  | case {gap : Nat} {gaps : List Nat} {here : Nat} {span : Span}
    (hi : branchBy? .ne false (gap + here) = some i)
    (hk : Emits c (.cases flows gaps here ss branches start) t k t') :
    Emits c (.cases flows (gap :: gaps) here (.case span value :: ss) (i :: branches) start) t k t'
  | lateCase {here : Nat} {span : Span}
    (hk : Emits c (.cases flows [] here ss branches start) t k t') :
    Emits c (.cases flows [] here (.case span value :: ss) branches start) t k t'
  | default {gaps : List Nat} {here : Nat} {span : Span}
    (hk : Emits c (.cases flows gaps here ss branches start) t k t') :
    Emits c (.cases flows gaps here (.default span :: ss) branches (some (start.getD here))) t k t'
  | among {gaps : List Nat} {here : Nat}
    (hs : (∀ span value, s ≠ .case span value) ∧ ∀ span, s ≠ .default span)
    (hk : Emits c (.stmt flows s) t k t1)
    (hk' : Emits c (.cases flows gaps (here + k.size) ss branches start) t1 k' t') :
    Emits c (.cases flows gaps here (s :: ss) branches start) t (k ++ k') t'

end Stmt
end RobotScript
