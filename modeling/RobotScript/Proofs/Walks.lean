/-
# Reading by an index

Reading ends because the tokens left get fewer with each step. Here
expressions are read once more by an index into all the tokens, which is moved
on without asking whether there is a token. All that bounds a walk is how deep
its calls may nest, and where that is not deep enough it has no outcome: a walk
that went on for ever would have none, however deep. From every index, with a
depth of some four times the tokens left, it comes to what reading those tokens
comes to: it ends, and the index stays within the tokens.

Key definitions: `Walk`, `Walk.Tracks`.
Key theorems: `Walk.tracks_expression`, `Walk.tracks_arguments`, `Walk.tracks_tableRows`.
-/
import RobotScript.Proofs.Printing

namespace RobotScript

/-- Reading at an index into all the tokens. -/
abbrev Walk (α : Type) : Type := StateT Nat (ExceptT SyntaxError Option) α

namespace Walk

/-- How a walk ends: with a failure, or a value and the index behind it. -/
abbrev Ending (α : Type) : Type := Except SyntaxError (α × Nat)

variable {α β : Type}

/-- Fail at a place. -/
def refuseAt (fault : SyntaxFault) (span : Span) : Walk α :=
  throw ((Diagnostic.ofCause fault).placedAt span)

/-- Go past the next token, whether there is one or not. -/
def skip : Walk Unit := modify (· + 1)

/-- No outcome. -/
def endless : Walk α := fun _ => (none : Option (Ending α))

/-- Add what was being done to a failure. -/
def whileDoing (context : String) (w : Walk α) : Walk α := fun i =>
  (Option.map (RobotScript.whileDoing context) (w i) : Option (Ending α))

section

variable (r : Reading) (all : List Token)

/-- The next token, if there is one. -/
def peek : Walk (Option Token) := return all[← get]?

/-- The next token, which must come. -/
def token (wanted : Wanted) : Walk Token := do
  match ← peek all with
  | some t => return t
  | none => refuseAt (.unexpectedEnd (some wanted)) r.endSpan

/-- Go past a keyword if it comes next. -/
def accept (text : String) : Walk Bool := do
  match ← peek all with
  | some t =>
    if t.isKeyword text then
      skip
      return true
    else return false
  | none => return false

/-- Go past a keyword that must come. -/
def keyword (text : String) : Walk Span := do
  let t ← token r all (.token (.keyword text))
  if t.isKeyword text then
    skip
    return t.span
  else refuseAt (.expected (.token (.keyword text)) t.kind) t.span

-- The grammar of expressions. No measure of the tokens goes down: `depth` is how deep the calls
-- may nest, and where they would nest deeper there is no outcome.
mutual

def expression : Nat → Nat → Walk Expr
  | 0, _ => endless
  | depth + 1, priority => do
    let first ← (primary depth).whileDoing "parsing expression"
    operators depth priority first

def primary : Nat → Walk Expr
  | 0 => endless
  | depth + 1 => do
    let t ← token r all (.described "expression")
    match t.kind with
    | .float value =>
      skip
      return .real value t.span
    | .number value =>
      skip
      return .int value t.span
    | .name =>
      skip
      if ← accept all "(" then return .call (.bare t.span) t.text none (← arguments depth ")")
      else return .var (.bare t.span) ⟨t.text, none⟩
    | .keyword "(" =>
      skip
      let inner ← expression depth Priority.parenthesis
      let _ ← (keyword r all ")").whileDoing "parsing subexpression"
      return inner
    | .keyword "[" =>
      skip
      let rows ← (tableRows depth none).whileDoing "parsing array"
      return .array ⟨t.span, .undefined, tableDims rows⟩ (columnMajor rows)
    | .keyword text =>
      match r.language.operator? text .prefixOp with
      | some op =>
        skip
        return .op (.bare t.span) op [← expression depth Priority.unary]
      | none =>
        match r.language.operator? text .constant with
        | some op =>
          skip
          return .op (.bare t.span) op []
        | none => refuseAt .unexpectedToken t.span

def operators : Nat → Nat → Expr → Walk Expr
  | 0, _, _ => endless
  | depth + 1, priority, left => do
    match ← peek all with
    | none => return left
    | some t =>
      match r.language.continuation priority t with
      | .postfixOp op =>
        skip
        operators depth priority (.op (.bare t.span) op [left])
      | .infixOp op =>
        skip
        operators depth priority (.op (.bare t.span) op [left, ← expression depth op.priority])
      | .bracket =>
        match left with
        | .var info v =>
          skip
          operators depth priority (.index (.bare info.span) v (← arguments depth "]"))
        | _ => refuseAt .unexpectedIndexing t.span
      | .stop => return left

def arguments : Nat → String → Walk (List Expr)
  | 0, _ => endless
  | depth + 1, close => do
    if ← accept all close then return [] else argumentsFrom depth close

def argumentsFrom : Nat → String → Walk (List Expr)
  | 0, _ => endless
  | depth + 1, close => do
    let first ← expression depth Priority.comma
    if ← accept all "," then return first :: (← argumentsFrom depth close)
    else
      let _ ← keyword r all close
      return [first]

def tableRows : Nat → Option Nat → Walk (List (List Expr))
  | 0, _ => endless
  | depth + 1, width => do
    let (items, last) ← tableRow depth
    if width.any (· != items.length) then refuseAt .raggedArray last.span
    else if last.isKeyword "]" then return [items]
    else return items :: (← tableRows depth (some (width.getD items.length)))

def tableRow : Nat → Walk (List Expr × Token)
  | 0 => endless
  | depth + 1 => do
    let first ← expression depth Priority.comma
    let mark ← token r all afterItem
    if mark.isKeyword "," then
      skip
      let (items, last) ← tableRow depth
      return (first :: items, last)
    else if mark.isKeyword "]" || mark.isKeyword ";" then
      skip
      return ([first], mark)
    else refuseAt (.expected afterItem mark.kind) mark.span

end

end

/-! ### Indices and the tokens left -/

/-- The tokens from an index on. -/
structure At (all : List Token) (i : Nat) (toks : List Token) : Prop where
  le : i ≤ all.length
  left : all.drop i = toks

variable {all toks ts : List Token} {t : Token} {i n : Nat}

theorem At.peek (h : At all i toks) : all[i]? = toks.head? := by
  rw [← h.left, List.head?_drop]

theorem At.length (h : At all i toks) : toks.length = all.length - i := by
  rw [← h.left, List.length_drop]

theorem At.tail (h : At all i (t :: ts)) : At all (i + 1) ts where
  le := Nat.lt_of_sub_pos (h.length ▸ Nat.succ_pos _)
  left := by rw [← List.tail_drop, h.left, List.tail_cons]

/-- The walk from an index comes to the same as reading the tokens from there on. -/
def Tracks (all : List Token) (w : Walk α) (i : Nat) : Except SyntaxError (Parsed α n) → Prop
  | .error e => w i = (some (.error e) : Option (Ending α))
  | .ok p => ∃ j, i ≤ j ∧ At all j p.rest ∧ w i = (some (.ok (p.value, j)) : Option (Ending α))

namespace Tracks

variable {m : Nat} {w : Walk α} {x : Except SyntaxError (Parsed α n)}

theorem ok {a : α} {p : Parsed α n} (ha : p.value = a) (h : At all i p.rest) :
    Tracks all (pure a) i (.ok p) :=
  ha ▸ ⟨i, Nat.le_refl i, h, rfl⟩

theorem refuse {fault : SyntaxFault} {span : Span} :
    Tracks all (refuseAt fault span : Walk α) i (refuse fault span : Except _ (Parsed α n)) := rfl

theorem bind {f : α → Walk β} {g : Parsed α n → Except SyntaxError (Parsed β m)} (h : Tracks all w i x)
    (hf : ∀ p j, x = .ok p → At all j p.rest → Tracks all (f p.value) j (g p)) :
    Tracks all (w >>= f) i (x >>= g) := by
  cases x with
  | error e =>
    change (w i >>= _ : ExceptT _ _ _) = _
    rw [show w i = _ from h]
    rfl
  | ok p =>
    obtain ⟨j, hij, hj, hw⟩ := h
    have hw : (w >>= f) i = f p.value j := by
      change (w i >>= _ : ExceptT _ _ _) = _
      rw [hw]
      rfl
    have hg := hf p j rfl hj
    change Tracks all (w >>= f) i (g p)
    generalize g p = y at hg ⊢
    cases y with
    | error e => exact hw.trans hg
    | ok q =>
      obtain ⟨k, hjk, hk, hf⟩ := hg
      exact ⟨k, Nat.le_trans hij hjk, hk, hw.trans hf⟩

/-- What is read last is the whole. -/
theorem last {g : Parsed α n → Parsed α m} (h : Tracks all w i x)
    (hg : ∀ p, (g p).value = p.value ∧ (g p).rest = p.rest) : Tracks all w i (do return g (← x)) := by
  rw [← bind_pure w]
  exact h.bind fun p j _ hj => .ok (hg p).1 ((hg p).2 ▸ hj)

theorem whileDoing {context : String} (h : Tracks all w i x) :
    Tracks all (w.whileDoing context) i (RobotScript.whileDoing context x) := by
  unfold Walk.whileDoing
  cases x with
  | error e => exact congrArg (Option.map _) h
  | ok p =>
    obtain ⟨j, hij, hj, hw⟩ := h
    exact ⟨j, hij, hj, congrArg (Option.map _) hw⟩

theorem skip {f : Unit → Walk α} (h : Tracks all (f ()) (i + 1) x) : Tracks all (skip >>= f) i x := by
  cases x with
  | error e => exact h
  | ok p =>
    obtain ⟨j, hij, hj, hw⟩ := h
    exact ⟨j, Nat.le_of_succ_le hij, hj, hw⟩

theorem peek {f : Option Token → Walk α} (ht : At all i toks) (h : Tracks all (f toks.head?) i x) :
    Tracks all (peek all >>= f) i x := by
  rw [← ht.peek] at h
  exact h

theorem token {r : Reading} {wanted : Wanted} {f : Token → Walk α} (ht : At all i (t :: ts))
    (h : Tracks all (f t) i x) : Tracks all (token r all wanted >>= f) i x := by
  unfold Walk.token
  rw [bind_assoc]
  exact peek ht h

theorem no_token {r : Reading} {wanted : Wanted} {f : Token → Walk α} (ht : At all i []) :
    Tracks all (Walk.token r all wanted >>= f) i
      (RobotScript.refuse (.unexpectedEnd (some wanted)) r.endSpan : Except _ (Parsed α n)) := by
  unfold Walk.token
  rw [bind_assoc]
  exact peek ht rfl

/-- A token is looked at before it is passed. -/
theorem next {r : Reading} {wanted : Wanted} {f : Token → Walk α}
    {g : Parsed Token toks.length → Except SyntaxError (Parsed α n)} (ht : At all i toks)
    (h : ∀ p, At all (i + 1) p.rest → Tracks all (f p.value) i (g p)) :
    Tracks all (Walk.token r all wanted >>= f) i (r.token wanted toks >>= g) := by
  cases toks with
  | nil => exact no_token ht
  | cons t ts => exact token ht (h (.head t t ts) ht.tail)

theorem accepted {text : String} {f : Bool → Walk α} (ht : At all i toks)
    (hyes : startsWith text toks = true → Tracks all (f true) (i + 1) x)
    (hno : ¬ startsWith text toks = true → Tracks all (f false) i x) :
    Tracks all (accept all text >>= f) i x := by
  unfold Walk.accept
  rw [bind_assoc]
  refine peek ht ?_
  cases toks with
  | nil => exact hno nofun
  | cons t ts =>
    dsimp only [List.head?_cons]
    split
    · rename_i htext
      rw [bind_assoc]
      exact .skip (hyes htext)
    · rename_i htext
      exact hno htext

theorem accept (text : String) (h : At all i toks) :
    Tracks all (accept all text) i (Reader.accept text toks) := by
  rw [← bind_pure (Walk.accept all text)]
  cases toks with
  | nil => exact accepted h nofun fun _ => .ok rfl h
  | cons t ts =>
    unfold Reader.accept
    dsimp only
    split
    · rename_i htext
      exact accepted h (fun _ => .ok rfl h.tail) fun hno => absurd htext hno
    · rename_i htext
      exact accepted h (fun hyes => absurd hyes htext) fun _ => .ok rfl h

theorem keyword {r : Reading} (text : String) (h : At all i toks) :
    Tracks all (keyword r all text) i (r.keyword text toks) := by
  cases toks with
  | nil => exact .no_token h
  | cons t ts =>
    refine .token h ?_
    unfold Reading.keyword
    dsimp only
    split
    · exact .skip (.ok rfl h.tail)
    · exact .refuse

end Tracks

theorem rest_of_accept {text : String} {p : Parsed Bool (toks.length + 1)}
    (h : Reader.accept text toks = .ok p) (hp : ¬ p.value = true) : p.rest = toks := by
  cases toks with
  | nil => cases h; rfl
  | cons t ts =>
    unfold Reader.accept at h
    dsimp only at h
    split at h <;> cases h
    · exact absurd rfl hp
    · rfl

section

variable {r : Reading}

-- By induction on how deep the calls may nest, which is more than what is left to read allows.
mutual

theorem tracks_expression {toks : List Token} {i depth : Nat} (priority : Nat)
    (h : At all i toks) (hd : 4 * toks.length + 2 < depth) :
    Tracks all (expression r all depth priority) i (RobotScript.expression r priority toks) := by
  obtain ⟨more, rfl⟩ := Nat.exists_eq_add_of_lt hd
  rw [expression, RobotScript.expression]
  refine (tracks_primary h (by omega)).whileDoing.bind fun first j _ hj => ?_
  have := first.within
  exact (tracks_operators priority _ hj (by omega)).last fun _ => ⟨rfl, rfl⟩
termination_by depth
decreasing_by all_goals omega

theorem tracks_primary {toks : List Token} {i depth : Nat} (h : At all i toks)
    (hd : 4 * toks.length + 1 < depth) : Tracks all (primary r all depth) i (RobotScript.primary r toks) := by
  obtain ⟨depth, rfl⟩ := Nat.exists_eq_add_one_of_ne_zero (Nat.ne_zero_of_lt hd)
  rw [primary]
  cases toks with
  | nil =>
    rw [RobotScript.primary]
    exact .no_token h
  | cons t ts =>
    rw [List.length_cons] at hd
    refine .token h ?_
    split
    all_goals rename_i hkind
    · rw [RobotScript.primary, hkind]
      exact .skip (.ok rfl h.tail)
    · rw [RobotScript.primary, hkind]
      exact .skip (.ok rfl h.tail)
    · rw [RobotScript.primary, hkind]
      refine .skip ((Tracks.accept "(" h.tail).bind fun call j _ hj => ?_)
      have := call.within
      split
      · exact (tracks_arguments ")" hj (by omega)).bind fun args k _ hk => .ok rfl hk
      · exact .ok rfl hj
    · rw [RobotScript.primary, hkind]
      refine .skip ((tracks_expression _ h.tail (by omega)).bind fun inner j _ hj => ?_)
      exact (Tracks.keyword ")" hj).whileDoing.bind fun close k _ hk => .ok rfl hk
    · rw [RobotScript.primary, hkind]
      refine .skip ((tracks_tableRows none h.tail ?_).whileDoing.bind fun table j _ hj => .ok rfl hj)
      omega
    · rename_i text hpar hbracket
      rw [primary_of_keyword hkind hpar hbracket]
      cases r.language.operator? text .prefixOp with
      | some op =>
        exact .skip ((tracks_expression _ h.tail (by omega)).bind fun arg j _ hj => .ok rfl hj)
      | none =>
        cases r.language.operator? text .constant with
        | some op => exact .skip (.ok rfl h.tail)
        | none => exact .refuse
termination_by depth
decreasing_by all_goals omega

theorem tracks_operators {toks : List Token} {i depth : Nat} (priority : Nat) (left : Expr)
    (h : At all i toks) (hd : 4 * toks.length + 1 < depth) :
    Tracks all (operators r all depth priority left) i
      (RobotScript.operators r priority left toks) := by
  obtain ⟨depth, rfl⟩ := Nat.exists_eq_add_one_of_ne_zero (Nat.ne_zero_of_lt hd)
  rw [operators]
  refine .peek h ?_
  cases toks with
  | nil =>
    rw [RobotScript.operators]
    exact .ok rfl h
  | cons t ts =>
    rw [List.length_cons] at hd
    unfold RobotScript.operators
    dsimp only [List.head?_cons]
    generalize r.language.continuation priority t = next
    split
    · exact .skip ((tracks_operators priority _ h.tail (by omega)).last fun _ => ⟨rfl, rfl⟩)
    · refine .skip ((tracks_expression _ h.tail (by omega)).bind fun right j _ hj => ?_)
      have := right.within
      exact (tracks_operators priority _ hj (by omega)).last fun _ => ⟨rfl, rfl⟩
    · cases left with
      | var info v =>
        refine .skip ((tracks_arguments "]" h.tail (by omega)).bind fun indices j _ hj => ?_)
        have := indices.within
        exact (tracks_operators priority _ hj (by omega)).last fun _ => ⟨rfl, rfl⟩
      | _ => exact .refuse
    · exact .ok rfl h
termination_by depth
decreasing_by all_goals omega

theorem tracks_arguments {toks : List Token} {i depth : Nat} (close : String)
    (h : At all i toks) (hd : 4 * toks.length + 4 < depth) :
    Tracks all (arguments r all depth close) i (RobotScript.arguments r close toks) := by
  obtain ⟨more, rfl⟩ := Nat.exists_eq_add_of_lt hd
  rw [arguments]
  have hfrom := tracks_argumentsFrom close h (Nat.lt_of_succ_lt_succ hd)
  cases toks with
  | nil =>
    rw [RobotScript.arguments]
    exact .accepted h nofun fun _ => hfrom
  | cons t ts =>
    unfold RobotScript.arguments
    split
    · rename_i hclose
      exact .accepted h (fun _ => .ok rfl h.tail) fun hopen => absurd hclose hopen
    · rename_i hopen
      exact .accepted h (fun hclose => absurd hclose hopen) fun _ => hfrom
termination_by depth
decreasing_by all_goals omega

theorem tracks_argumentsFrom {toks : List Token} {i depth : Nat} (close : String)
    (h : At all i toks) (hd : 4 * toks.length + 3 < depth) :
    Tracks all (argumentsFrom r all depth close) i (RobotScript.argumentsFrom r close toks) := by
  obtain ⟨more, rfl⟩ := Nat.exists_eq_add_of_lt hd
  rw [argumentsFrom, RobotScript.argumentsFrom]
  refine (tracks_expression _ h (by omega)).bind fun first j _ hj => ?_
  have := first.within
  refine (Tracks.accept "," hj).bind fun comma k hcomma hk => ?_
  have := comma.within
  split
  · exact (tracks_argumentsFrom close hk (by omega)).bind fun others l _ hl => .ok rfl hl
  · rename_i hno
    rw [rest_of_accept hcomma hno] at hk
    exact (Tracks.keyword close hk).bind fun last l _ hl => .ok rfl hl
termination_by depth
decreasing_by all_goals omega

theorem tracks_tableRows {toks : List Token} {i depth : Nat} (width : Option Nat)
    (h : At all i toks) (hd : 4 * toks.length + 4 < depth) :
    Tracks all (tableRows r all depth width) i (RobotScript.tableRows r width toks) := by
  obtain ⟨more, rfl⟩ := Nat.exists_eq_add_of_lt hd
  rw [tableRows, RobotScript.tableRows]
  refine (tracks_tableRow h (by omega)).bind fun row j _ hj => ?_
  have := row.within
  dsimp only
  split
  · exact .refuse
  · split
    · exact .ok rfl hj
    · exact (tracks_tableRows _ hj (by omega)).bind fun others k _ hk => .ok rfl hk
termination_by depth
decreasing_by all_goals omega

theorem tracks_tableRow {toks : List Token} {i depth : Nat} (h : At all i toks)
    (hd : 4 * toks.length + 3 < depth) :
    Tracks all (tableRow r all depth) i (RobotScript.tableRow r toks) := by
  obtain ⟨more, rfl⟩ := Nat.exists_eq_add_of_lt hd
  rw [tableRow, RobotScript.tableRow]
  refine (tracks_expression _ h (by omega)).bind fun first j _ hj => ?_
  have := first.within
  refine .next hj fun mark hmark => ?_
  have := mark.within
  split
  · exact .skip ((tracks_tableRow hmark (by omega)).bind fun others k _ hk => .ok rfl hk)
  · split
    · exact .skip (.ok rfl hmark)
    · exact .refuse
termination_by depth
decreasing_by all_goals omega

end

end

end Walk
end RobotScript
