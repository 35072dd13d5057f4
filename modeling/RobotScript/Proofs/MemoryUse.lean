/-
# The memory that statements take

Laying out statements takes memory in one place only, the declaration of a
variable; blocks give back what was taken of a frame inside them. `Stmt.Take`
says that for laid out statements, without the scopes, names and checks that
laying out goes through; `storage_disjoint` and `reserved_words_apart` start from
it.

Key definitions: `Memory.Takes`, `Stmt.Take`, `Stmt.declared`.
Key theorems: `Stmt.layAll_takes`.
-/
import RobotScript.Program.Allocation
import RobotScript.Proofs.Outcome

namespace RobotScript

/-! ### Declarations and blocks -/

/-- The blocks of the arms of an `if`. -/
def Arms.blocks : Arms → List (List Stmt)
  | .done => []
  | .otherwise body => [body]
  | .arm _ _ body rest => body :: rest.blocks

namespace Stmt

/-- What a statement itself declares. -/
def declares : Stmt → List VarDecl
  | varDecl _ d => [d]
  | _ => []

/-- The blocks of a statement. The body of a `for` loop stands behind what the
head of the loop declares. -/
def blocks : Stmt → List (List Stmt)
  | branch _ arms => arms.blocks
  | whenever _ _ body | whileLoop _ _ _ body | doWhile _ _ body _ | rangeFor _ _ _ _ _ _ body
  | switch _ _ _ body | block _ body => [body]
  | forLoop span _ init _ _ body => [init ++ [.block span body]]
  | _ => []

mutual

/-- All declarations in a statement, in order. -/
def declared : Stmt → List VarDecl
  | varDecl _ d => [d]
  | branch _ arms => armsDeclared arms
  | whenever _ _ body | whileLoop _ _ _ body | doWhile _ _ body _ | rangeFor _ _ _ _ _ _ body
  | switch _ _ _ body | block _ body => allDeclared body
  | forLoop _ _ init _ _ body => allDeclared init ++ allDeclared body
  | _ => []

def armsDeclared : Arms → List VarDecl
  | .done => []
  | .otherwise body => allDeclared body
  | .arm _ _ body rest => allDeclared body ++ armsDeclared rest

def allDeclared : List Stmt → List VarDecl
  | [] => []
  | s :: ss => declared s ++ allDeclared ss

end

theorem allDeclared_append : ∀ {ss ts : List Stmt},
    allDeclared (ss ++ ts) = allDeclared ss ++ allDeclared ts
  | [], _ => rfl
  | s :: ss, ts => by
    rw [List.cons_append, allDeclared, allDeclared, allDeclared_append, List.append_assoc]

theorem allDeclared_single {t : Stmt} : allDeclared [t] = declared t := List.append_nil _

theorem armsDeclared_eq : ∀ arms : Arms, armsDeclared arms = arms.blocks.flatMap allDeclared
  | .done => rfl
  | .otherwise body => by simp [armsDeclared, Arms.blocks]
  | .arm _ _ body rest => by simp [armsDeclared, Arms.blocks, armsDeclared_eq rest]

/-- What is declared in a statement is declared by itself or in a block. -/
theorem declared_eq (t : Stmt) : declared t = t.declares ++ t.blocks.flatMap allDeclared := by
  cases t with
  | branch span arms => exact armsDeclared_eq arms
  | forLoop span tag init cond step body =>
    simp [declared, declares, blocks, allDeclared_append, allDeclared_single]
  | _ => simp [declared, declares, blocks]

end Stmt

/-! ### Taking memory -/

/-- Where the words of a variable end, as it is counted. -/
def Storage.stop (v : Storage) : Nat := counted (v.offset + v.size)

/-- Which memory a layout has taken. -/
structure Memory where
  moduleTop : Nat
  frame : Option Frame

def Layout.memory (l : Layout) : Memory := ⟨l.moduleTop, l.frame⟩

namespace Memory

/-- At the end of a block the words of a frame taken in it are free. -/
def closeTo (before after : Memory) : Memory where
  moduleTop := after.moduleTop
  frame := match after.frame, before.frame with
    | some f, some b => some ⟨b.top, f.high⟩
    | f, _ => f

theorem closeTo_none {before after : Memory} (h : after.frame = none) :
    (before.closeTo after).frame = none := by
  unfold closeTo
  rw [h]

theorem closeTo_some {before after : Memory} {b f : Frame} (hb : before.frame = some b)
    (hf : after.frame = some f) : (before.closeTo after).frame = some ⟨b.top, f.high⟩ := by
  unfold closeTo
  rw [hb, hf]

/-- A variable takes the words it is kept in. -/
inductive Takes (node : Node) : Memory → Storage → Memory → Prop where
  | words {v : Storage} : v.mode = .absolute → v.stop ≤ node.returnSlot →
      Takes node ⟨v.offset, none⟩ v ⟨v.stop, none⟩
  | frame {v : Storage} {top high : Nat} : v.mode = .frame →
      Takes node ⟨top, some ⟨v.offset, high⟩⟩ v ⟨top, some ⟨v.stop, max high v.stop⟩⟩

end Memory

mutual

/-- Statements with storage, and the memory taken before and after them. -/
inductive Stmt.Take (node : Node) : Memory → List Stmt → Memory → Prop where
  | nil {m : Memory} : Stmt.Take node m [] m
  | append {m m' m'' : Memory} {ss ts : List Stmt} :
      Stmt.Take node m ss m' → Stmt.Take node m' ts m'' → Stmt.Take node m (ss ++ ts) m''
  | decl {m m' : Memory} {t : Stmt} {d : VarDecl} (v : Storage) :
      t.declares = [d] → t.blocks = [] → d.storage = some v → m.Takes node v m' →
      Stmt.Take node m [t] m'
  | blocks {m m' : Memory} {t : Stmt} :
      t.declares = [] → Stmt.BlocksTake node m t.blocks m' → Stmt.Take node m [t] m'

/-- Blocks one behind another, and the memory taken before and after them. -/
inductive Stmt.BlocksTake (node : Node) : Memory → List (List Stmt) → Memory → Prop where
  | nil {m : Memory} : Stmt.BlocksTake node m [] m
  | cons {m m1 m' : Memory} {body : List Stmt} {bodies : List (List Stmt)} :
      Stmt.Take node m body m1 → Stmt.BlocksTake node (m.closeTo m1) bodies m' →
      Stmt.BlocksTake node m (body :: bodies) m'

end

theorem Stmt.BlocksTake.append {node : Node} {m m' m'' : Memory} {bs cs : List (List Stmt)} :
    Stmt.BlocksTake node m bs m' → Stmt.BlocksTake node m' cs m'' →
    Stmt.BlocksTake node m (bs ++ cs) m''
  | .nil, h => h
  | .cons hbody hrest, h => .cons hbody (hrest.append h)

/-! ### Steps that leave the layout as it is -/

namespace Laying

/-- A step of laying out that does not change what is seen of the layout; its
value is `good`. -/
def Quietly {V α : Type} (view : Layout → V) (good : α → Prop) (x : Laying α) : Prop :=
  ∀ v : V, Yields (fun _ => True) (fun l : Layout => view l = v) good x

/-- A step of laying out that does not change what is seen of the layout. -/
abbrev Quiet {V α : Type} (view : Layout → V) (x : Laying α) : Prop := Quietly view (fun _ => True) x

namespace Quietly

variable {V α β : Type} {view : Layout → V} {x : Laying α} {good : α → Prop}

theorem pure {a : α} (h : good a) : Quietly view good (pure a) := fun _ => .pure h

theorem lift {r : Result α} : Quiet view (liftM r : Laying α) := fun _ => .lift (.any r)

theorem get : Quiet view (MonadState.get : Laying Layout) :=
  fun _ => Yields.get.mono fun _ _ => trivial

theorem bind {f : α → Laying β} {good' : β → Prop} (h : Quiet view x)
    (hf : ∀ a, Quietly view good' (f a)) : Quietly view good' (x >>= f) :=
  fun m => (h m).bind fun a _ => hf a m

theorem mapM {f : α → Laying β} {xs : List α} (h : ∀ a ∈ xs, Quiet view (f a)) : Quiet view (xs.mapM f) :=
  fun m => (Yields.mapM xs fun a ha => h a ha m).mono fun _ _ => trivial

theorem run (h : Quietly view good x) {l l' : Layout} {a : α} (hrun : x l = .ok (a, l')) :
    good a ∧ view l' = view l :=
  (h (view l) l rfl).of_ok hrun

end Quietly
end Laying

open Laying (Quietly Quiet)

namespace Layout

variable {V : Type} {view : Layout → V}

/-- Nothing is seen of a declaration if nothing is seen of names. -/
theorem declare_quiet (name : String) (binding : Binding) (span : Span)
    (h : ∀ l s ss names, l.scopes = s :: ss →
      view { l with scopes := { s with names := names } :: ss } = view l) :
    Quiet view (declare name binding span) := by
  intro m
  refine Yields.get.bind fun l hl => ?_
  split
  · exact .pure trivial
  · rename_i s ss hscopes
    split
    · exact Quietly.lift m
    · exact .set ((h l s ss _ hscopes).trans hl)

theorem declare_memory (name : String) (binding : Binding) (span : Span) :
    Quiet memory (declare name binding span) :=
  declare_quiet name binding span fun _ _ _ _ _ => rfl

theorem declareLabel_quiet (name : String) (span : Span) : Quiet memory (declareLabel name span) := by
  intro m
  refine Yields.get.bind fun l hl => ?_
  split
  · exact .pure trivial
  · split
    · exact Quietly.lift m
    · exact .set hl

theorem labelName_quiet (own : Bool) (name : String) (span : Span) :
    Quiet view (labelName own name span) := by
  refine Quietly.get.bind fun l => ?_
  dsimp only
  split
  · exact .pure trivial
  · exact .lift

end Layout

open Layout

theorem declareLabels_quiet : ∀ ss : List Stmt, Quiet memory (declareLabels ss)
  | [] => .pure trivial
  | s :: ss => by
    have hrest := declareLabels_quiet ss
    cases s with
    | label span name => exact (declareLabel_quiet name span).bind fun _ => hrest
    | _ => exact hrest

section Expressions

variable {V : Type} {view : Layout → V}

namespace Expr

theorem lay_quiet (e : Expr) : Quiet view e.lay := Quietly.get.bind fun _ => .lift

theorem lay?_quiet : ∀ e : Option Expr, Quiet view (lay? e)
  | none => .pure trivial
  | some e => (lay_quiet e).bind fun _ => .pure trivial

theorem layAll_quiet (es : List Expr) : Quiet view (layAll es) := Quietly.get.bind fun _ => .lift

end Expr

namespace Surroundings

variable {s : Surroundings}

theorem constant_quiet (what : String) (e : Expr) : Quiet view (s.constant what e) := by
  refine (Expr.lay_quiet e).bind fun bound => Quietly.lift.bind fun typed => ?_
  refine Quietly.lift.bind fun folded => ?_
  split
  · exact .pure trivial
  · exact .pure trivial
  · exact .lift

theorem dimension_quiet (what : String) (e : Expr) : Quiet view (s.dimension what e) := by
  refine (constant_quiet what e).bind fun n => ?_
  split
  · exact .pure trivial
  · exact .lift

theorem dimensions_quiet (init : Option Expr) (span : Span) :
    ∀ dims : List (Option Expr), Quiet view (s.dimensions init span dims)
  | [] => .pure trivial
  | some e :: dims => by
    unfold dimensions
    refine (dimension_quiet _ e).bind fun n => ?_
    exact (dimensions_quiet init span dims).bind fun ns => .pure trivial
  | none :: dims => by
    unfold dimensions
    cases init with
    | none => exact .lift
    | some value =>
      refine Quietly.lift.bind fun typed => ?_
      exact (dimensions_quiet (some value) span dims).bind fun ns => .pure trivial

end Surroundings

end Expressions

/-! ### Laying out -/

namespace Laying

variable {α β : Type} {x : Laying α} {node : Node}

/-- The step lays out statements that take memory and declare what is
given by name. -/
def Takes (node : Node) (names : List String) (x : Laying (List Stmt)) : Prop :=
  ∀ l ss l', x l = .ok (ss, l') →
    Stmt.Take node l.memory ss l'.memory ∧ (Stmt.allDeclared ss).map (·.name) = names

/-- The step lays out blocks, found in its value. -/
def TakesIn (node : Node) (names : List String) (blocks : α → List (List Stmt)) (x : Laying α) :
    Prop :=
  ∀ l a l', x l = .ok (a, l') →
    Stmt.BlocksTake node l.memory (blocks a) l'.memory ∧
      ((blocks a).flatMap Stmt.allDeclared).map (·.name) = names

/-- A statement has the given blocks and declares nothing itself. -/
abbrev Holds (bodies : List (List Stmt)) (ts : List Stmt) : Prop :=
  ∃ t, ts = [t] ∧ t.declares = [] ∧ t.blocks = bodies

variable {names names' : List String} {blocks : α → List (List Stmt)}

theorem Takes.after {f : α → Laying (List Stmt)} (hx : Quiet memory x) (hf : ∀ a, Takes node names (f a)) :
    Takes node names (x >>= f) := by
  intro l ss l' hrun
  obtain ⟨⟨a, l₁⟩, ha, hrest⟩ := bind_eq_ok.mp hrun
  obtain ⟨-, hmemory⟩ := Quietly.run hx ha
  rw [← hmemory]
  exact hf a l₁ ss l' hrest

theorem TakesIn.after {f : β → Laying α} {y : Laying β} (hy : Quiet memory y)
    (hf : ∀ b, TakesIn node names blocks (f b)) : TakesIn node names blocks (y >>= f) := by
  intro l a l' hrun
  obtain ⟨⟨b, l₁⟩, hb, hrest⟩ := bind_eq_ok.mp hrun
  obtain ⟨-, hmemory⟩ := Quietly.run hy hb
  rw [← hmemory]
  exact hf b l₁ a l' hrest

/-- A statement with blocks. -/
theorem TakesIn.bind {f : α → Laying (List Stmt)} (h : TakesIn node names blocks x)
    (hf : ∀ a, Quietly memory (Holds (blocks a)) (f a)) : Takes node names (x >>= f) := by
  intro l ss l' hrun
  obtain ⟨⟨a, l₁⟩, ha, hrest⟩ := bind_eq_ok.mp hrun
  obtain ⟨htake, hnames⟩ := h l a l₁ ha
  obtain ⟨⟨t, rfl, hdeclares, hblocks⟩, hmemory⟩ := (hf a).run hrest
  rw [← hblocks] at htake hnames
  rw [hmemory, Stmt.allDeclared_single, Stmt.declared_eq, hdeclares]
  exact ⟨.blocks hdeclares htake, hnames⟩

/-- A statement without blocks. -/
theorem Takes.plain {t : Stmt} (hdeclares : t.declares = []) (hblocks : t.blocks = []) :
    Takes node [] (pure [t]) := by
  rintro l ss l' ⟨⟩
  rw [Stmt.allDeclared_single, Stmt.declared_eq, hdeclares, hblocks]
  exact ⟨.blocks hdeclares (hblocks ▸ .nil), rfl⟩

theorem Takes.nil : Takes node [] (pure []) := by
  rintro l ss l' ⟨⟩
  exact ⟨.nil, rfl⟩

theorem Takes.append {x y : Laying (List Stmt)} (hx : Takes node names x) (hy : Takes node names' y) :
    Takes node (names ++ names') (do return (← x) ++ (← y)) := by
  intro l ss l' hrun
  obtain ⟨⟨ts, l₁⟩, hts, hrun⟩ := bind_eq_ok.mp hrun
  obtain ⟨⟨us, l₂⟩, hus, hrun⟩ := bind_eq_ok.mp hrun
  cases hrun
  obtain ⟨htake, hnames⟩ := hx l ts l₁ hts
  obtain ⟨htake', hnames'⟩ := hy l₁ us l' hus
  refine ⟨.append htake htake', ?_⟩
  rw [Stmt.allDeclared_append, List.map_append, hnames, hnames']

/-- What is laid out inside a block starts in a scope of its own, if blocks have
one, and what the block took is closed behind it. -/
theorem enclosed_eq_ok {blockScoping : Bool} {l l' : Layout} {a : α}
    (h : enclosed blockScoping x l = .ok (a, l')) :
    ∃ l₁, x (if blockScoping then l.pushScope else l) = .ok (a, l₁) ∧ l' = closeTo l blockScoping l₁ := by
  have hinside : ∀ l0 : Layout, (x >>= fun a => (do modify (closeTo l blockScoping); return a)) l0 =
      .ok (a, l') → ∃ l₁, x l0 = .ok (a, l₁) ∧ l' = closeTo l blockScoping l₁ := by
    intro l0 h
    obtain ⟨⟨b, l₁⟩, hx, hrest⟩ := bind_eq_ok.mp h
    cases hrest
    exact ⟨l₁, hx, rfl⟩
  cases blockScoping with
  | true => exact hinside l.pushScope h
  | false => exact hinside l h

/-- A scope takes no memory. -/
theorem memory_entered (blockScoping : Bool) (l : Layout) :
    (if blockScoping then l.pushScope else l).memory = l.memory := by
  split
  · rfl
  · rfl

theorem Takes.block {s : Surroundings} {body : List Stmt} {x : Laying (List Stmt)}
    (h : Takes node names x) : TakesIn node names (fun ss => [ss]) (layBlock s body x) := by
  intro l ss l' hrun
  obtain ⟨l₁, hx, rfl⟩ := enclosed_eq_ok hrun
  obtain ⟨htake, hnames⟩ := Takes.after (declareLabels_quiet body) (fun _ => h) _ ss l₁ hx
  rw [memory_entered] at htake
  refine ⟨.cons htake .nil, ?_⟩
  rw [← hnames]
  simp

end Laying

open Laying (Takes TakesIn)

namespace Layout

theorem reserve_takes {node : Node} {size : Nat} {span : Span} {l l' : Layout} {offset : Nat}
    {mode : Addressing} (h : reserve node size span l = .ok ((offset, mode), l')) {v : Storage}
    (hoffset : v.offset = offset) (hsize : v.size = size) (hmode : v.mode = mode) :
    l.memory.Takes node v l'.memory := by
  obtain ⟨scopes, nextId, moduleTop, frame⟩ := l
  cases frame with
  | some f =>
    obtain ⟨top, high⟩ := f
    cases h
    subst hoffset hsize
    exact .frame hmode
  | none =>
    change (if node.returnSlot < counted (moduleTop + size) then
        (liftM (semantic .outOfMemory span) : Laying (Nat × Addressing))
      else fun _ => .ok ((moduleTop, Addressing.absolute),
        ⟨scopes, nextId, counted (moduleTop + size), none⟩)) ⟨scopes, nextId, moduleTop, none⟩ = _ at h
    split at h
    · cases h
    · rename_i hroom
      cases h
      subst hoffset hsize
      exact .words hmode (Nat.le_of_not_lt hroom)

end Layout

theorem Surroundings.varDecl_takes (s : Surroundings) (span : Span) (d : VarDecl) :
    Takes s.node [d.name] (s.varDecl span d) := by
  unfold varDecl
  refine Takes.after (Expr.lay?_quiet d.init) fun init => ?_
  refine Takes.after (dimensions_quiet init span d.dims) fun dims => ?_
  intro l ss l' hrun
  obtain ⟨⟨⟨offset, mode⟩, l₁⟩, hreserve, hrun⟩ := bind_eq_ok.mp hrun
  obtain ⟨⟨_, l₂⟩, hdeclare, hrun⟩ := bind_eq_ok.mp hrun
  obtain ⟨-, hmemory⟩ := (declare_memory _ _ _).run hdeclare
  have htakes := reserve_takes hreserve (v := ⟨offset, dims, d.ty, mode⟩) rfl rfl rfl
  rw [← hmemory] at htakes
  have hdecl : Stmt.Take s.node l.memory
      [.varDecl span ⟨d.name, d.ty, [], none, some ⟨offset, dims, d.ty, mode⟩⟩] l₂.memory :=
    .decl _ rfl rfl rfl htakes
  cases init with
  | none =>
    cases hrun
    exact ⟨hdecl, rfl⟩
  | some value =>
    cases hrun
    exact ⟨.append hdecl (.blocks rfl .nil), rfl⟩

namespace Stmt

variable {s : Surroundings}

/-- The names that statements declare. -/
abbrev allNames (ss : List Stmt) : List String := (allDeclared ss).map (·.name)

mutual

/-- A statement is laid out to statements that take memory for its variables. -/
theorem lay_takes : ∀ t : Stmt, Takes s.node ((declared t).map (·.name)) (lay s t)
  | .varDecl span d => s.varDecl_takes span d
  | .constDecl _ _ value =>
    .after (Surroundings.constant_quiet _ value) fun _ => .after (declare_memory _ _ _) fun _ => .nil
  | .expr _ e => .after e.lay_quiet fun _ => .plain rfl rfl
  | .branch _ arms => (layArms_takes arms).bind fun _ _ => .pure ⟨_, rfl, rfl, rfl⟩
  | .whenever _ cond body =>
    .after cond.lay_quiet fun _ => (layAll_takes body).block.bind fun _ _ => .pure ⟨_, rfl, rfl, rfl⟩
  | .whileLoop _ _ cond body =>
    .after (Expr.lay?_quiet cond) fun _ =>
      (layAll_takes body).block.bind fun _ _ => .pure ⟨_, rfl, rfl, rfl⟩
  | .doWhile _ _ body cond =>
    (layAll_takes body).block.bind fun _ => cond.lay_quiet.bind fun _ _ => .pure ⟨_, rfl, rfl, rfl⟩
  | .rangeFor _ _ var first last step body =>
    .after var.lay_quiet fun _ => .after first.lay_quiet fun _ => .after last.lay_quiet fun _ =>
      .after (Expr.lay?_quiet step) fun _ =>
        (layAll_takes body).block.bind fun _ _ => .pure ⟨_, rfl, rfl, rfl⟩
  | .forLoop span tag init cond step body => by
    intro l ss l' hrun
    obtain ⟨l₂, hx, rfl⟩ := Laying.enclosed_eq_ok hrun
    obtain ⟨⟨init', l3⟩, hinit, hx⟩ := bind_eq_ok.mp hx
    obtain ⟨htake, hnames⟩ := layAll_takes init _ init' l3 hinit
    rw [Laying.memory_entered] at htake
    -- Behind the head of the loop, its body takes memory as a block does.
    have hbody : Takes s.node (allNames body) (do
        let cond ← Expr.lay? cond
        let step ← Expr.lay? step
        let body ← layBlock s body (layAll s body)
        return [.block span body]) :=
      .after (Expr.lay?_quiet cond) fun _ => .after (Expr.lay?_quiet step) fun _ =>
        (layAll_takes body).block.bind fun _ _ => .pure ⟨_, rfl, rfl, rfl⟩
    obtain ⟨⟨cond', l4⟩, hcond, hx⟩ := bind_eq_ok.mp hx
    obtain ⟨⟨step', l5⟩, hstep, hx⟩ := bind_eq_ok.mp hx
    obtain ⟨⟨body', l6⟩, hblock, hx⟩ := bind_eq_ok.mp hx
    cases hx
    obtain ⟨htake', hnames'⟩ := hbody l3 [.block span body'] l₂
      (bind_eq_ok.mpr ⟨_, hcond, bind_eq_ok.mpr ⟨_, hstep, bind_eq_ok.mpr ⟨_, hblock, rfl⟩⟩⟩)
    refine ⟨.blocks rfl (.cons (.append htake htake') .nil), ?_⟩
    rw [allDeclared_single] at hnames' ⊢
    rw [declared, declared, List.map_append, List.map_append, hnames]
    exact congrArg _ hnames'
  | .switch _ _ subject body =>
    .after subject.lay_quiet fun _ =>
      (layAll_takes body).block.bind fun _ _ => .pure ⟨_, rfl, rfl, rfl⟩
  | .case _ value => .after value.lay_quiet fun _ => .plain rfl rfl
  | .block _ body => (layAll_takes body).block.bind fun _ _ => .pure ⟨_, rfl, rfl, rfl⟩
  | .label span name | .goto span name => .after (labelName_quiet _ name span) fun _ => .plain rfl rfl
  | .native _ _ args => .after (Expr.layAll_quiet args) fun _ => .plain rfl rfl
  | .emit _ _ value => .after (Expr.lay?_quiet value) fun _ => .plain rfl rfl
  | .ret _ value => .after .lift fun _ => .after (Expr.lay?_quiet value) fun _ => .plain rfl rfl
  | .default _ | .exit _ _ _ | .callSub _ _ | .empty _ => .plain rfl rfl

theorem layArms_takes : ∀ arms : Arms,
    TakesIn s.node ((armsDeclared arms).map (·.name)) Arms.blocks (layArms s arms)
  | .done => by
    rintro l a l' ⟨⟩
    exact ⟨.nil, rfl⟩
  | .otherwise body => by
    intro l a l' hrun
    obtain ⟨⟨body', l₁⟩, hbody, hrun⟩ := bind_eq_ok.mp hrun
    cases hrun
    exact (layAll_takes body).block l body' l' hbody
  | .arm span cond body rest => by
    refine TakesIn.after cond.lay_quiet fun cond' => ?_
    intro l a l' hrun
    obtain ⟨⟨body', l₁⟩, hbody, hrun⟩ := bind_eq_ok.mp hrun
    obtain ⟨⟨rest', l₂⟩, hrest, hrun⟩ := bind_eq_ok.mp hrun
    cases hrun
    obtain ⟨hfirst, hnames⟩ := (layAll_takes body).block l body' l₁ hbody
    obtain ⟨hothers, hnames'⟩ := layArms_takes rest l₁ rest' l' hrest
    refine ⟨hfirst.append hothers, ?_⟩
    rw [armsDeclared, List.map_append, Arms.blocks, List.flatMap_cons, List.map_append, hnames']
    exact congrArg (· ++ _) (by simpa using hnames)

/-- Statements are laid out to statements that take memory for all their
variables, in order. -/
theorem layAll_takes : ∀ ss : List Stmt, Takes s.node (allNames ss) (layAll s ss)
  | [] => .nil
  | t :: ts => by
    unfold allNames
    rw [allDeclared, List.map_append]
    exact (lay_takes t).append (layAll_takes ts)

end

end Stmt
end RobotScript
