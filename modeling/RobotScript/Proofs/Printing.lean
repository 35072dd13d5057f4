/-
# Reading what is printed

A tree is printed as tokens with parentheses wherever the priorities of the
operators ask for them, and anywhere else too. Reading the tokens gives the
tree back, with the places of the tokens in it, and leaves what follows.

Every printed form has a priority at which it holds together: that of the
operator it is made by, or the highest one for a form that nothing can break.
The proof is by induction on the printed form, for any loop of operators it is
read in and any tokens behind it that do not go on with its right end: reading
the form is then to go on in that loop with the tree as the left operand.

Key definitions: `Expr.unplaced`, `Prints`, `PrintsItems`, `PrintsRows`, `Gives`,
`Settles`.
Key theorems: `columnMajor_rowsOf`, `Prints.read`, `expression_inverts_printing`.
-/
import RobotScript.Expr.Parser

namespace RobotScript

/-! ### Trees without places -/

/-- What is known about a value, without its place. -/
def Info.unplaced (i : Info) : Info := { i with span := ⟨0, 0⟩ }

mutual

/-- The expression without the places it was read at. -/
def Expr.unplaced : Expr → Expr
  | .number i n => .number i.unplaced n
  | .fixed i f => .fixed i.unplaced f
  | .var i v => .var i.unplaced v
  | .index i v indices => .index i.unplaced v (allUnplaced indices)
  | .array i items => .array i.unplaced (allUnplaced items)
  | .op i o args => .op i.unplaced o (allUnplaced args)
  | .call i name callee args => .call i.unplaced name callee (allUnplaced args)
  | .placeholder i => .placeholder i.unplaced

def Expr.allUnplaced : List Expr → List Expr
  | [] => []
  | e :: es => e.unplaced :: allUnplaced es

end

theorem Expr.allUnplaced_eq_map : ∀ es : List Expr, allUnplaced es = es.map unplaced
  | [] => rfl
  | e :: es => by rw [allUnplaced, allUnplaced_eq_map es, List.map_cons]

/-! ### Tables by rows and by columns -/

/-- The rows of a table whose items stand column by column. -/
def rowsOf {α : Type} [Inhabited α] (height width : Nat) (items : List α) : List (List α) :=
  (List.range height).map fun i =>
    (List.range width).map fun j => items.getD (j * height + i) default

/-- The dimensions of a table; a single row is a list. -/
def shapeOf (height width : Nat) : List Nat := if height = 1 then [width] else [height, width]

section Tables

variable {α β : Type}

theorem columnMajor_map (f : α → β) (rows : List (List α)) :
    columnMajor (rows.map (·.map f)) = (columnMajor rows).map f := by
  have hwidth : ((rows.map (·.map f)).headD []).length = (rows.headD []).length := by
    cases rows with
    | nil => rfl
    | cons row rows => simp
  unfold columnMajor
  rw [hwidth, List.map_flatMap]
  congr 1
  funext c
  rw [List.filterMap_map, List.map_filterMap]
  congr 1
  funext row
  simp

theorem tableDims_map (f : α → β) (rows : List (List α)) :
    tableDims (rows.map (·.map f)) = tableDims rows := by
  unfold tableDims
  cases rows with
  | nil => rfl
  | cons row rows => simp

/-- One column after another is the whole list. -/
theorem flatMap_columns (f : Nat → α) (height : Nat) : ∀ width : Nat,
    ((List.range width).flatMap fun j => (List.range height).map fun i => f (j * height + i)) =
      (List.range (width * height)).map f
  | 0 => by simp
  | width + 1 => by
    rw [List.range_succ, List.flatMap_append, flatMap_columns f height width, Nat.succ_mul,
      List.range_add, List.map_append]
    simp

variable [Inhabited α] {height width : Nat} {items : List α}

theorem length_of_mem_rowsOf {row : List α} (h : row ∈ rowsOf height width items) : row.length = width := by
  obtain ⟨i, -, rfl⟩ := List.mem_map.mp h
  simp

theorem ne_nil_of_mem_rowsOf {row : List α} (hwidth : 0 < width)
    (h : row ∈ rowsOf height width items) : row ≠ [] := by
  rintro rfl
  rw [← length_of_mem_rowsOf h] at hwidth
  cases hwidth

theorem headD_rowsOf (hheight : 0 < height) : ((rowsOf height width items).headD []).length = width := by
  obtain ⟨n, rfl⟩ := Nat.exists_eq_add_of_le' hheight
  simp [rowsOf, List.range_succ_eq_map]

theorem tableDims_rowsOf (hheight : 0 < height) :
    tableDims (rowsOf height width items) = shapeOf height width := by
  unfold tableDims shapeOf
  rw [headD_rowsOf hheight]
  simp [rowsOf]

/-- Reading the rows of a table column by column gives its items. -/
theorem columnMajor_rowsOf (hheight : 0 < height) (hlength : items.length = height * width) :
    columnMajor (rowsOf height width items) = items := by
  have hcolumn (j : Nat) (hj : j ∈ List.range width) :
      (rowsOf height width items).filterMap (·[j]?) =
        (List.range height).map fun i => items.getD (j * height + i) default := by
    have hj : j < width := List.mem_range.mp hj
    unfold rowsOf
    rw [List.filterMap_map, ← List.filterMap_eq_map]
    congr 1
    funext i
    simp [hj]
  unfold columnMajor
  rw [headD_rowsOf hheight, List.flatMap_def, List.map_congr_left hcolumn, ← List.flatMap_def,
    flatMap_columns (items.getD · default), Nat.mul_comm, ← hlength]
  refine List.ext_getElem (by simp) fun i _ hi => ?_
  simp [hi]

end Tables

/-! ### Printed forms -/

/-- Whether a form that holds together at priority `q` needs no parentheses
left of an operator of priority `p`. Only assignments group to the right. -/
def Priority.fitsLeft (p q : Nat) : Prop := if p = Priority.assignment then p < q else p ≤ q

/-- Whether a form that holds together at priority `q` needs no parentheses
right of an operator of priority `p`. -/
def Priority.fitsRight (p q : Nat) : Prop := if p = Priority.assignment then p ≤ q else p < q

namespace Priority

instance (p q : Nat) : Decidable (fitsLeft p q) := inferInstanceAs (Decidable (ite _ _ _))

instance (p q : Nat) : Decidable (fitsRight p q) := inferInstanceAs (Decidable (ite _ _ _))

variable {p q : Nat}

theorem fitsRight_of_lt (h : p < q) : fitsRight p q := by
  unfold fitsRight
  split
  · exact Nat.le_of_lt h
  · exact h

theorem fitsRight.le (h : fitsRight p q) : p ≤ q := by
  unfold fitsRight at h
  split at h
  · exact h
  · exact Nat.le_of_lt h

/-- What an operand takes, it takes with all that stands to the left. -/
theorem fitsRight.left {priority : Nat} (h : fitsRight priority p) (hleft : fitsLeft p q) :
    fitsRight priority q := by
  unfold fitsRight fitsLeft at *
  split at h <;> split at hleft <;> split <;> omega

/-- An operator is not part of what it has to its left. -/
theorem fitsLeft.not_fitsRight (h : fitsLeft p q) : ¬ fitsRight q p := by
  unfold fitsRight
  unfold fitsLeft at h
  split at h <;> split <;> omega

/-- An operator that an operand leaves, its own right operands leave too. -/
theorem fitsRight.not_fitsRight {o : Nat} (h : fitsRight p q) (ho : ¬ fitsRight p o) : ¬ fitsRight q o := by
  unfold fitsRight at *
  split at h <;> split at ho <;> split <;> omega

end Priority

mutual

/-- Tokens that print an expression, which stands at any place, in a form that
holds together at a priority. -/
inductive Prints (language : Language) : (priority : Nat) → Expr → List Token → Prop where
  | number {t : Token} {value : Cell} {span : Span} :
      t.kind = .number value → Prints language Priority.constant (.int value span) [t]
  | real {t : Token} {value : Float} {span : Span} :
      t.kind = .float value → Prints language Priority.constant (.real value span) [t]
  | name {t : Token} {span : Span} :
      t.kind = .name → Prints language Priority.constant (.var (.bare span) ⟨t.text, none⟩) [t]
  | constant {t : Token} {text : String} {op : Op} {span : Span} :
      t.kind = .keyword text → language.operator? text .constant = some op →
      Prints language Priority.constant (.op (.bare span) op []) [t]
  | parentheses {q : Nat} {e : Expr} {opening closing : Token} {toks : List Token} :
      opening.kind = .keyword "(" → Prints language q e toks → closing.kind = .keyword ")" →
      Prints language Priority.constant e (opening :: (toks ++ [closing]))
  | call {t opening closing : Token} {args : List Expr} {toks : List Token} {span : Span} :
      t.kind = .name → opening.kind = .keyword "(" → PrintsItems language args toks →
      closing.kind = .keyword ")" →
      Prints language Priority.constant (.call (.bare span) t.text none args)
        (t :: opening :: (toks ++ [closing]))
  | index {info : Info} {v : Variable} {opening closing : Token} {indices : List Expr}
      {head toks : List Token} {span : Span} :
      Prints language Priority.constant (.var info v) head → opening.kind = .keyword "[" →
      PrintsItems language indices toks → closing.kind = .keyword "]" →
      Prints language Priority.constant (.index (.bare span) v indices)
        (head ++ opening :: (toks ++ [closing]))
  /-- An array is printed by rows; its items stand column by column. -/
  | array {height width : Nat} {items : List Expr} {opening closing : Token} {toks : List Token}
      {span : Span} :
      0 < height → 0 < width → items.length = height * width → opening.kind = .keyword "[" →
      PrintsRows language (rowsOf height width items) toks → closing.kind = .keyword "]" →
      Prints language Priority.constant (.array ⟨span, .undefined, shapeOf height width⟩ items)
        (opening :: (toks ++ [closing]))
  | prefixOp {q : Nat} {t : Token} {text : String} {op : Op} {e : Expr} {toks : List Token}
      {span : Span} :
      t.kind = .keyword text → language.operator? text .prefixOp = some op →
      Prints language q e toks → Priority.unary ≤ q →
      Prints language Priority.unary (.op (.bare span) op [e]) (t :: toks)
  /-- Behind its operand a postfix operator is applied at once, so a prefix
  operator in the operand is parenthesised. -/
  | postfixOp {q : Nat} {t : Token} {text : String} {op : Op} {e : Expr} {toks : List Token}
      {span : Span} :
      Prints language q e toks → Priority.unary < q →
      t.kind = .keyword text → language.operator? text .postfixOp = some op →
      Prints language Priority.constant (.op (.bare span) op [e]) (toks ++ [t])
  | infixOp {q q' : Nat} {t : Token} {text : String} {op : Op} {left right : Expr}
      {toks toks' : List Token} {span : Span} :
      Prints language q left toks → Priority.fitsLeft op.priority q →
      t.kind = .keyword text → language.operator? text .infixOp = some op →
      Prints language q' right toks' → Priority.fitsRight op.priority q' →
      Prints language op.priority (.op (.bare span) op [left, right]) (toks ++ t :: toks')

/-- Tokens that print expressions divided by commas. -/
inductive PrintsItems (language : Language) : List Expr → List Token → Prop where
  | nil : PrintsItems language [] []
  | single {q : Nat} {e : Expr} {toks : List Token} :
      Prints language q e toks → Priority.comma < q → PrintsItems language [e] toks
  | cons {q : Nat} {e e' : Expr} {es : List Expr} {comma : Token} {toks toks' : List Token} :
      Prints language q e toks → Priority.comma < q → comma.kind = .keyword "," →
      PrintsItems language (e' :: es) toks' →
      PrintsItems language (e :: e' :: es) (toks ++ comma :: toks')

/-- Tokens that print the rows of an array divided by semicolons, which only one
of the languages has. -/
inductive PrintsRows (language : Language) : List (List Expr) → List Token → Prop where
  | single {row : List Expr} {toks : List Token} :
      PrintsItems language row toks → PrintsRows language [row] toks
  | cons {row : List Expr} {rows : List (List Expr)} {divider : Token} {toks toks' : List Token} :
      PrintsItems language row toks → divider.kind = .keyword ";" →
      PrintsRows language rows toks' → PrintsRows language (row :: rows) (toks ++ divider :: toks')

end

/-! ### The tables of operators -/

variable {language : Language} {op : Op} {text close : String} {rows : List (List Expr)} {es : List Expr}

/-- The symbol of an operator is a keyword of the language. -/
theorem operator?_mem_keywords {fixity : Fixity} (h : language.operator? text fixity = some op) :
    text ∈ language.keywords := by
  rcases Option.or_eq_some_iff.mp h with h | ⟨-, h⟩
  · have hboth : text ∈ Language.keywords .simple ∧ text ∈ Language.keywords .l2 := by
      unfold Language.commonOperator? at h
      split at h
      case h_34 => cases h
      all_goals decide
    cases language with
    | simple => exact hboth.1
    | l2 => exact hboth.2
  · unfold Language.ownOperator? at h
    split at h
    case h_17 => cases h
    all_goals decide

/-- The brackets of expressions. -/
def brackets : List String := ["(", ")", "[", "]", ";"]

/-- What holds of all entries of the table holds of an operator. -/
@[elab_as_elim] theorem of_operator {fixity : Fixity} {motive : String → Op → Prop}
    (h : language.operator? text fixity = some op)
    (htable : ∀ text ∈ language.keywords, ∀ op ∈ language.operator? text fixity, motive text op) :
    motive text op :=
  htable text (operator?_mem_keywords h) op h

theorem of_prefixOp (h : language.operator? text .prefixOp = some op) : text ∉ brackets := by
  refine of_operator h ?_
  cases language with
  | _ => decide +kernel

theorem of_postfixOp (h : language.operator? text .postfixOp = some op) :
    text ∉ brackets ∧ op.priority = Priority.unary := by
  refine of_operator h ?_
  cases language with
  | _ => decide +kernel

theorem of_infixOp (h : language.operator? text .infixOp = some op) : text ∉ brackets ∧
    language.operator? text .postfixOp = none ∧
    Priority.comma ≤ op.priority ∧ op.priority < Priority.unary := by
  refine of_operator h ?_
  cases language with
  | _ => decide +kernel

theorem of_constant (h : language.operator? text .constant = some op) : text ∉ brackets ∧
    language.operator? text .prefixOp = none := by
  refine of_operator h ?_
  cases language with
  | _ => decide +kernel

/-! ### Steps of reading -/

/-- Reading gives a value and leaves some tokens. -/
def Gives {α : Type} {n : Nat} (x : Except SyntaxError (Parsed α n)) (a : α) (rest : List Token) :
    Prop :=
  ∃ h, x = .ok ⟨a, rest, h⟩

variable {r : Reading} {priority : Nat} {t : Token} {toks ts rest : List Token} {e left : Expr}

theorem isKeyword_of_kind (h : t.kind = .keyword text) (other : String) :
    t.isKeyword other = (text == other) := by
  rw [Token.isKeyword, h]

theorem isKeyword_of_not_mem {bracket : String} (h : t.kind = .keyword text) (htext : text ∉ brackets)
    (hbracket : bracket ∈ brackets) : t.isKeyword bracket = false := by
  rw [isKeyword_of_kind h]
  exact beq_false_of_ne fun heq => htext (heq ▸ hbracket)

theorem accept_of_kind (h : t.kind = .keyword text) :
    Reader.accept text (t :: ts) = .ok (Taken.head true t ts).loosen := by
  rw [Reader.accept, isKeyword_of_kind h, beq_self_eq_true, if_pos rfl]

theorem accept_of_not_startsWith (h : startsWith text ts = false) :
    Reader.accept text ts = .ok (.nothing false ts) := by
  cases ts with
  | nil => rfl
  | cons t ts =>
    have ht : t.isKeyword text = false := h
    rw [Reader.accept, ht, if_neg Bool.false_ne_true]

theorem keyword_of_kind (h : t.kind = .keyword text) :
    r.keyword text (t :: ts) = .ok (.head t.span t ts) := by
  rw [Reading.keyword, isKeyword_of_kind h, beq_self_eq_true, if_pos rfl]

theorem whileDoing_ok {α : Type} (context : String) (a : α) : whileDoing context (.ok a) = .ok a := rfl

theorem gives_expression {first : Expr} (hfirst : Gives (primary r toks) first ts)
    (hwhole : Gives (operators r priority first ts) e rest) : Gives (expression r priority toks) e rest := by
  obtain ⟨_, hfirst⟩ := hfirst
  obtain ⟨_, hwhole⟩ := hwhole
  rw [expression, hfirst]
  simp only [whileDoing_ok, bind, Except.bind, hwhole]
  exact ⟨_, rfl⟩

/-! Operands. -/

theorem gives_number {value : Cell} (h : t.kind = .number value) :
    Gives (primary r (t :: ts)) (.int value t.span) ts := by
  rw [primary, h]
  exact ⟨_, rfl⟩

theorem gives_real {value : Float} (h : t.kind = .float value) :
    Gives (primary r (t :: ts)) (.real value t.span) ts := by
  rw [primary, h]
  exact ⟨_, rfl⟩

theorem gives_name (h : t.kind = .name) (hcall : startsWith "(" ts = false) :
    Gives (primary r (t :: ts)) (.var (.bare t.span) ⟨t.text, none⟩) ts := by
  rw [primary, h]
  simp only [accept_of_not_startsWith hcall, bind, Except.bind]
  exact ⟨_, rfl⟩

theorem gives_call {opening : Token} {args : List Expr} (h : t.kind = .name)
    (hopening : opening.kind = .keyword "(") (hargs : Gives (arguments r ")" ts) args rest) :
    Gives (primary r (t :: opening :: ts)) (.call (.bare t.span) t.text none args) rest := by
  obtain ⟨_, hargs⟩ := hargs
  rw [primary, h]
  simp only [accept_of_kind hopening, bind, Except.bind, Taken.loosen, Taken.widen, Taken.head,
    hargs]
  exact ⟨_, rfl⟩

theorem gives_parentheses {closing : Token} (h : t.kind = .keyword "(")
    (hinner : Gives (expression r Priority.parenthesis ts) e (closing :: rest))
    (hclosing : closing.kind = .keyword ")") : Gives (primary r (t :: ts)) e rest := by
  obtain ⟨_, hinner⟩ := hinner
  rw [primary, h]
  simp only [hinner, bind, Except.bind, keyword_of_kind hclosing, whileDoing_ok]
  exact ⟨_, rfl⟩

theorem gives_array {rows : List (List Expr)} (h : t.kind = .keyword "[")
    (hrows : Gives (tableRows r none ts) rows rest) :
    Gives (primary r (t :: ts)) (.array ⟨t.span, .undefined, tableDims rows⟩ (columnMajor rows))
      rest := by
  obtain ⟨_, hrows⟩ := hrows
  rw [primary, h]
  simp only [hrows, bind, Except.bind, whileDoing_ok]
  exact ⟨_, rfl⟩

/-- A keyword that opens no bracket stands for an operator. -/
theorem primary_of_keyword {text : String} (h : t.kind = .keyword text) (hpar : text ≠ "(")
    (hbracket : text ≠ "[") : primary r (t :: ts) =
      match r.language.operator? text .prefixOp with
      | some op => do
        let arg ← expression r Priority.unary ts
        return (arg.map fun e => .op (.bare t.span) op [e]).past t
      | none =>
        match r.language.operator? text .constant with
        | some op => .ok (.head (.op (.bare t.span) op []) t ts)
        | none => refuse .unexpectedToken t.span := by
  rw [primary, h]
  split <;> rename_i heq <;> cases heq
  · exact absurd rfl hpar
  · exact absurd rfl hbracket
  · rfl

theorem gives_prefixOp (h : t.kind = .keyword text) (hop : r.language.operator? text .prefixOp = some op)
    (harg : Gives (expression r Priority.unary ts) e rest) :
    Gives (primary r (t :: ts)) (.op (.bare t.span) op [e]) rest := by
  obtain ⟨_, harg⟩ := harg
  have htext := of_prefixOp hop
  rw [primary_of_keyword h (fun he => htext (he ▸ by decide)) fun he => htext (he ▸ by decide), hop]
  simp only [harg, bind, Except.bind]
  exact ⟨_, rfl⟩

theorem gives_constant (h : t.kind = .keyword text) (hop : r.language.operator? text .constant = some op) :
    Gives (primary r (t :: ts)) (.op (.bare t.span) op []) ts := by
  obtain ⟨htext, hno⟩ := of_constant hop
  rw [primary_of_keyword h (fun he => htext (he ▸ by decide)) fun he => htext (he ▸ by decide), hno,
    hop]
  exact ⟨_, rfl⟩

/-! Operators behind an operand. -/

theorem gives_stop (h : ∀ t ∈ ts.head?, r.language.continuation priority t = .stop) :
    Gives (operators r priority left ts) left ts := by
  cases ts with
  | nil =>
    rw [operators]
    exact ⟨_, rfl⟩
  | cons t ts =>
    unfold operators
    rw [h t rfl]
    exact ⟨_, rfl⟩

theorem gives_postfixOp (h : r.language.continuation priority t = .postfixOp op)
    (hwhole : Gives (operators r priority (.op (.bare t.span) op [left]) ts) e rest) :
    Gives (operators r priority left (t :: ts)) e rest := by
  obtain ⟨_, hwhole⟩ := hwhole
  unfold operators
  rw [h]
  simp only [hwhole, bind, Except.bind]
  exact ⟨_, rfl⟩

theorem gives_infixOp {right : Expr} {ts' : List Token} (h : r.language.continuation priority t = .infixOp op)
    (hright : Gives (expression r op.priority ts) right ts')
    (hwhole : Gives (operators r priority (.op (.bare t.span) op [left, right]) ts') e rest) :
    Gives (operators r priority left (t :: ts)) e rest := by
  obtain ⟨_, hright⟩ := hright
  obtain ⟨_, hwhole⟩ := hwhole
  unfold operators
  rw [h]
  simp only [hright, hwhole, bind, Except.bind]
  exact ⟨_, rfl⟩

theorem gives_index {info : Info} {v : Variable} {indices : List Expr} {ts' : List Token}
    (h : r.language.continuation priority t = .bracket)
    (hindices : Gives (arguments r "]" ts) indices ts')
    (hwhole : Gives (operators r priority (.index (.bare info.span) v indices) ts') e rest) :
    Gives (operators r priority (.var info v) (t :: ts)) e rest := by
  obtain ⟨_, hindices⟩ := hindices
  obtain ⟨_, hwhole⟩ := hwhole
  unfold operators
  rw [h]
  simp only [hindices, hwhole, bind, Except.bind]
  exact ⟨_, rfl⟩

/-! Arguments and rows. -/

theorem gives_no_arguments (h : t.kind = .keyword close) : Gives (arguments r close (t :: ts)) [] ts := by
  rw [arguments, isKeyword_of_kind h, beq_self_eq_true, if_pos rfl]
  exact ⟨_, rfl⟩

theorem gives_arguments (h : startsWith close toks = false)
    (hfrom : Gives (argumentsFrom r close toks) es rest) : Gives (arguments r close toks) es rest := by
  cases toks with
  | nil =>
    rw [arguments]
    exact hfrom
  | cons t ts =>
    have ht : t.isKeyword close = false := h
    rw [arguments, ht, if_neg Bool.false_ne_true]
    exact hfrom

section

variable (hfirst : Gives (expression r Priority.comma toks) e (t :: ts))

include hfirst

theorem gives_last_argument (h : t.kind = .keyword close) (hclose : close ≠ ",") :
    Gives (argumentsFrom r close toks) [e] ts := by
  obtain ⟨_, hfirst⟩ := hfirst
  have hcomma : startsWith "," (t :: ts) = false := by
    rw [startsWith, isKeyword_of_kind h]
    exact beq_false_of_ne hclose
  rw [argumentsFrom, hfirst]
  simp only [bind, Except.bind, accept_of_not_startsWith hcomma, Taken.nothing, keyword_of_kind h]
  exact ⟨_, rfl⟩

theorem gives_argument (h : t.kind = .keyword ",") (hothers : Gives (argumentsFrom r close ts) es rest) :
    Gives (argumentsFrom r close toks) (e :: es) rest := by
  obtain ⟨_, hfirst⟩ := hfirst
  obtain ⟨_, hothers⟩ := hothers
  rw [argumentsFrom, hfirst]
  simp only [bind, Except.bind, accept_of_kind h, Taken.loosen, Taken.widen, Taken.head, hothers]
  exact ⟨_, rfl⟩

theorem gives_last_item (h : t.kind = .keyword "]" ∨ t.kind = .keyword ";") :
    Gives (tableRow r toks) ([e], t) ts := by
  obtain ⟨_, hfirst⟩ := hfirst
  rw [tableRow, hfirst]
  rcases h with h | h
  · simp only [bind, Except.bind, Reading.token, Taken.head, isKeyword_of_kind h]
    exact ⟨_, rfl⟩
  · simp only [bind, Except.bind, Reading.token, Taken.head, isKeyword_of_kind h]
    exact ⟨_, rfl⟩

theorem gives_item {last : Token} (h : t.kind = .keyword ",") (hothers : Gives (tableRow r ts) (es, last) rest) :
    Gives (tableRow r toks) (e :: es, last) rest := by
  obtain ⟨_, hfirst⟩ := hfirst
  obtain ⟨_, hothers⟩ := hothers
  rw [tableRow, hfirst]
  simp only [bind, Except.bind, Reading.token, Taken.head, isKeyword_of_kind h, beq_self_eq_true,
    if_true, hothers]
  exact ⟨_, rfl⟩

end

theorem any_width {n : Nat} {width : Option Nat} (h : ∀ m ∈ width, m = n) : width.any (· != n) = false := by
  cases width with
  | none => rfl
  | some m => simp [h m rfl]

theorem gives_last_row {row : List Expr} {width : Option Nat}
    (hrow : Gives (tableRow r toks) (row, t) ts) (hwidth : ∀ n ∈ width, n = row.length)
    (h : t.kind = .keyword "]") : Gives (tableRows r width toks) [row] ts := by
  obtain ⟨_, hrow⟩ := hrow
  rw [tableRows, hrow]
  simp only [bind, Except.bind, any_width hwidth, Bool.false_eq_true, if_false,
    isKeyword_of_kind h, beq_self_eq_true, if_true]
  exact ⟨_, rfl⟩

theorem gives_row {row : List Expr} {width : Option Nat} (hrow : Gives (tableRow r toks) (row, t) ts)
    (hwidth : ∀ n ∈ width, n = row.length) (h : t.kind = .keyword ";")
    (hothers : Gives (tableRows r (some row.length) ts) rows rest) :
    Gives (tableRows r width toks) (row :: rows) rest := by
  obtain ⟨_, hrow⟩ := hrow
  obtain ⟨_, hothers⟩ := hothers
  have hnext : width.getD row.length = row.length := by
    cases width with
    | none => rfl
    | some n => exact hwidth n rfl
  have hmark : t.isKeyword "]" = false := isKeyword_of_kind h "]"
  rw [tableRows, hrow]
  simp only [bind, Except.bind, any_width hwidth, Bool.false_eq_true, if_false, hmark, hnext,
    hothers]
  exact ⟨_, rfl⟩

/-! ### How an expression goes on -/

theorem bindsAt_eq : bindsAt priority op = true ↔ Priority.fitsRight priority op.priority := by
  unfold bindsAt Priority.fitsRight
  split <;> simp

namespace Language

theorem continuation_postfixOp (h : t.kind = .keyword text)
    (hop : language.operator? text .postfixOp = some op) (hpriority : priority ≤ Priority.unary) :
    language.continuation priority t = .postfixOp op := by
  have hkept : (some op).filter (priority ≤ ·.priority) = some op := by
    rw [Option.filter_some, (of_postfixOp hop).2, decide_eq_true hpriority, if_pos rfl]
  rw [continuation, h]
  simp only [hop, hkept]

theorem continuation_infixOp (h : t.kind = .keyword text) (hop : language.operator? text .infixOp = some op)
    (hbinds : Priority.fitsRight priority op.priority) : language.continuation priority t = .infixOp op := by
  have hkept : (some op).filter (bindsAt priority) = some op := by
    rw [Option.filter_some, bindsAt_eq.mpr hbinds, if_pos rfl]
  rw [continuation, h]
  simp only [(of_infixOp hop).2.1, Option.filter_none, hop, hkept]

theorem continuation_bracket (h : t.kind = .keyword "[") :
    language.continuation priority t = .bracket := by
  rw [continuation, h]
  cases language with
  | _ => rfl

/-- A token stops an expression that is read at a priority if it is neither an
operator that binds there nor the opening bracket of indices. -/
theorem continuation_eq_stop : language.continuation priority t = .stop ↔
    ∀ text, t.kind = .keyword text → text ≠ "[" ∧
      (∀ op, language.operator? text .postfixOp = some op → ¬ priority ≤ op.priority) ∧
      (∀ op, language.operator? text .infixOp = some op →
        ¬ Priority.fitsRight priority op.priority) := by
  unfold continuation
  cases hkind : t.kind with
  | number value => simp
  | float value => simp
  | name => simp
  | keyword text =>
    dsimp only
    split
    · rename_i op hbehind
      obtain ⟨hop, hle⟩ := Option.filter_eq_some_iff.mp hbehind
      refine ⟨by rintro ⟨⟩, fun h => ?_⟩
      exact absurd (of_decide_eq_true hle) ((h text rfl).2.1 op hop)
    · rename_i hbehind
      rw [Option.filter_eq_none_iff] at hbehind
      split
      · rename_i op hbinary
        obtain ⟨hop, hbinds⟩ := Option.filter_eq_some_iff.mp hbinary
        refine ⟨by rintro ⟨⟩, fun h => ?_⟩
        exact absurd (bindsAt_eq.mp hbinds) ((h text rfl).2.2 op hop)
      · rename_i hbinary
        rw [Option.filter_eq_none_iff] at hbinary
        by_cases hbracket : text = "["
        · rw [if_pos hbracket]
          exact ⟨by rintro ⟨⟩, fun h => absurd hbracket (h text rfl).1⟩
        · rw [if_neg hbracket]
          refine ⟨fun _ => ?_, fun _ => rfl⟩
          rintro _ ⟨⟩
          exact ⟨hbracket, fun op hop hle => hbehind op hop (decide_eq_true hle),
            fun op hop hbinds => hbinary op hop (bindsAt_eq.mpr hbinds)⟩

/-- Where an operator stops an expression read at a priority, it also stops one
read at a priority that binds tighter. -/
theorem stop_mono {priority' : Nat} (h : language.continuation priority t = .stop)
    (hfits : Priority.fitsRight priority priority') (hle : priority' ≤ Priority.unary) :
    language.continuation priority' t = .stop := by
  rw [continuation_eq_stop] at h ⊢
  intro text hkind
  obtain ⟨hbracket, hbehind, hbinary⟩ := h text hkind
  refine ⟨hbracket, fun op hop => ?_, fun op hop => hfits.not_fitsRight (hbinary op hop)⟩
  have hno := hbehind op hop
  rw [(of_postfixOp hop).2] at hno
  exact absurd (Nat.le_trans hfits.le hle) hno

/-- An operator stops what it has to its left. -/
theorem stop_of_fitsLeft {q : Nat} (h : t.kind = .keyword text)
    (hop : language.operator? text .infixOp = some op)
    (hfits : Priority.fitsLeft op.priority q) : language.continuation q t = .stop := by
  obtain ⟨hbrackets, hbehind, -⟩ := of_infixOp hop
  refine continuation_eq_stop.mpr fun text' htext => ?_
  cases h.symm.trans htext
  refine ⟨?_, fun op' hop' => ?_, fun op' hop' hbinds => ?_⟩
  · rintro rfl
    exact hbrackets (by decide)
  · rw [hbehind] at hop'
    cases hop'
  · cases hop.symm.trans hop'
    exact hfits.not_fitsRight hbinds

theorem stop_of_closing
    (h : t.kind = .keyword ")" ∨ t.kind = .keyword "]" ∨ t.kind = .keyword ";") :
    language.continuation priority t = .stop := by
  rcases h with h | h | h
  all_goals
    rw [continuation, h]
    cases language with
    | _ => rfl

theorem stop_of_comma (h : t.kind = .keyword ",") (hpriority : Priority.comma ≤ priority) :
    language.continuation priority t = .stop := by
  refine continuation_eq_stop.mpr fun text htext => ?_
  cases h.symm.trans htext
  refine ⟨by decide, fun op hop => ?_, fun op hop hbinds => ?_⟩
  · cases language with
    | _ => cases hop
  · cases language with
    | simple => cases hop
    | l2 =>
      cases hop
      have hleft : Priority.fitsLeft Priority.comma priority := hpriority
      exact hleft.not_fitsRight hbinds

end Language

/-! ### Reading printed forms -/

/-- Tokens that do not go on with a form that holds together at a priority and
stands in front of them. -/
structure Settles (language : Language) (q : Nat) (rest : List Token) : Prop where
  uncalled : startsWith "(" rest = false
  stops : q ≤ Priority.unary → ∀ t ∈ rest.head?, language.continuation q t = .stop

theorem Settles.of_stop {language : Language} {q : Nat} (hcall : t.isKeyword "(" = false)
    (hstop : q ≤ Priority.unary → language.continuation q t = .stop) :
    Settles language q (t :: rest) := by
  refine ⟨hcall, fun hq u hu => ?_⟩
  cases hu
  exact hstop hq

/-- The tokens are read as an expression: wherever operators are read at a
priority that takes the form as a whole, reading goes on behind the tokens with
the expression as the left operand. -/
structure ReadsAs (r : Reading) (q : Nat) (e : Expr) (toks : List Token) : Prop where
  goOn {priority : Nat} {rest : List Token} {whole : Expr} {rest' : List Token} :
    priority ≤ Priority.unary → (q < Priority.unary → Priority.fitsRight priority q) →
    Settles r.language q rest → Gives (operators r priority e rest) whole rest' →
    Gives (expression r priority (toks ++ rest)) whole rest'

namespace ReadsAs

variable {q : Nat}

/-- The expression in front of a token that stops it. -/
theorem whole (h : ReadsAs r q e toks) (hpriority : priority ≤ Priority.unary)
    (hq : q < Priority.unary → Priority.fitsRight priority q) (hrest : Settles r.language q rest)
    (hstop : ∀ t ∈ rest.head?, r.language.continuation priority t = .stop) :
    Gives (expression r priority (toks ++ rest)) e rest :=
  h.goOn hpriority hq hrest (gives_stop hstop)

theorem of_primary
    (h : ∀ rest, startsWith "(" rest = false → Gives (primary r (toks ++ rest)) e rest) :
    ReadsAs r q e toks :=
  ⟨fun _ _ hrest hwhole => gives_expression (h _ hrest.uncalled) hwhole⟩

variable {opening : Token}

theorem parentheses {closing : Token}
    (hopening : opening.kind = .keyword "(")
    (h : ReadsAs r q e toks) (hq : Priority.comma ≤ q) (hclosing : closing.kind = .keyword ")") :
    ReadsAs r Priority.constant e (opening :: (toks ++ [closing])) := by
  refine of_primary fun rest _ => ?_
  have hstop (p : Nat) : r.language.continuation p closing = .stop :=
    Language.stop_of_closing (.inl hclosing)
  rw [List.cons_append, List.append_assoc]
  refine gives_parentheses hopening (h.whole (by decide) (fun _ => ?_) ?_ ?_) hclosing
  · exact Priority.fitsRight_of_lt (Nat.lt_of_lt_of_le (by decide) hq)
  · exact .of_stop (isKeyword_of_kind hclosing "(") fun _ => hstop q
  · intro u hu
    cases hu
    exact hstop _

theorem call {args : List Expr} (hname : t.kind = .name)
    (hopening : opening.kind = .keyword "(")
    (hargs : ∀ rest, Gives (arguments r ")" (toks ++ rest)) args rest) :
    ReadsAs r Priority.constant (.call (.bare t.span) t.text none args) (t :: opening :: toks) :=
  of_primary fun rest _ => gives_call hname hopening (hargs rest)

theorem index {info : Info} {v : Variable} {indices : List Expr} {head : List Token}
    (h : ReadsAs r Priority.constant (.var info v) head)
    (hopening : opening.kind = .keyword "[")
    (hindices : ∀ rest, Gives (arguments r "]" (toks ++ rest)) indices rest) :
    ReadsAs r Priority.constant (.index (.bare info.span) v indices) (head ++ opening :: toks) := by
  constructor
  intro priority rest whole rest' hpriority hq hrest hwhole
  have hsettles : Settles r.language Priority.constant (opening :: (toks ++ rest)) :=
    .of_stop (isKeyword_of_kind hopening "(") fun hle => absurd hle (by decide)
  rw [List.append_assoc]
  refine h.goOn hpriority hq hsettles ?_
  exact gives_index (Language.continuation_bracket hopening) (hindices rest) hwhole

theorem array {opening : Token} {rows : List (List Expr)} (hopening : opening.kind = .keyword "[")
    (hrows : ∀ rest, Gives (tableRows r none (toks ++ rest)) rows rest) :
    ReadsAs r Priority.constant
      (.array ⟨opening.span, .undefined, tableDims rows⟩ (columnMajor rows)) (opening :: toks) :=
  of_primary fun rest _ => gives_array hopening (hrows rest)

theorem prefixOp (hkind : t.kind = .keyword text) (hop : r.language.operator? text .prefixOp = some op)
    (h : ReadsAs r q e toks) (hq : Priority.unary ≤ q) :
    ReadsAs r Priority.unary (.op (.bare t.span) op [e]) (t :: toks) := by
  constructor
  intro priority rest whole rest' _ _ hrest hwhole
  have hstops := hrest.stops (Nat.le_refl _)
  refine gives_expression (gives_prefixOp hkind hop (h.whole (Nat.le_refl _) ?_ ?_ hstops)) hwhole
  · exact fun hlt => absurd hq (Nat.not_le_of_lt hlt)
  · refine ⟨hrest.uncalled, fun hle => ?_⟩
    rw [Nat.le_antisymm hle hq]
    exact hstops

theorem postfixOp (h : ReadsAs r q e toks) (hq : Priority.unary < q)
    (hkind : t.kind = .keyword text) (hop : r.language.operator? text .postfixOp = some op) :
    ReadsAs r Priority.constant (.op (.bare t.span) op [e]) (toks ++ [t]) := by
  constructor
  intro priority rest whole rest' hpriority _ _ hwhole
  rw [List.append_assoc]
  refine h.goOn hpriority (fun hlt => absurd hlt (Nat.lt_asymm hq)) (.of_stop ?_ fun hle => ?_)
    (gives_postfixOp (Language.continuation_postfixOp hkind hop hpriority) hwhole)
  · exact isKeyword_of_not_mem hkind (of_postfixOp hop).1 (by decide)
  · exact absurd hle (Nat.not_le_of_lt hq)

theorem infixOp {q' : Nat} {right : Expr} {toks' : List Token} (hleft : ReadsAs r q left toks)
    (hfitsLeft : Priority.fitsLeft op.priority q) (hkind : t.kind = .keyword text)
    (hop : r.language.operator? text .infixOp = some op) (hright : ReadsAs r q' right toks')
    (hfitsRight : Priority.fitsRight op.priority q') :
    ReadsAs r op.priority (.op (.bare t.span) op [left, right]) (toks ++ t :: toks') := by
  constructor
  intro priority rest whole rest' hpriority hp hrest hwhole
  obtain ⟨hbrackets, -, -, hlt⟩ := of_infixOp hop
  have hle := Nat.le_of_lt hlt
  have hstops := hrest.stops hle
  have hbinds := hp hlt
  -- What stops the whole form at the priority of its operator stops the right operand.
  have hrest' : Settles r.language q' rest := by
    refine ⟨hrest.uncalled, fun hq' u hu => ?_⟩
    exact Language.stop_mono (hstops u hu) hfitsRight hq'
  have hsettles : Settles r.language q (t :: (toks' ++ rest)) :=
    .of_stop (isKeyword_of_not_mem hkind hbrackets (by decide))
      fun _ => Language.stop_of_fitsLeft hkind hop hfitsLeft
  rw [List.append_assoc]
  refine hleft.goOn hpriority (fun _ => hbinds.left hfitsLeft) hsettles ?_
  refine gives_infixOp (Language.continuation_infixOp hkind hop hbinds) ?_ hwhole
  exact hright.whole hle (fun _ => hfitsRight) hrest' hstops

end ReadsAs

/-! Items and rows. -/

/-- A token that ends an item of a list. -/
def Token.EndsItem (t : Token) : Prop :=
  t.kind = .keyword "," ∨ t.kind = .keyword ")" ∨ t.kind = .keyword "]" ∨ t.kind = .keyword ";"

theorem ReadsAs.item {q : Nat} (h : ReadsAs r q e toks) (hq : Priority.comma < q)
    (ht : t.EndsItem) : Gives (expression r Priority.comma (toks ++ t :: rest)) e (t :: rest) := by
  have hstop (p : Nat) (hp : Priority.comma ≤ p) : r.language.continuation p t = .stop := by
    rcases ht with ht | ht
    · exact Language.stop_of_comma ht hp
    · exact Language.stop_of_closing ht
  refine h.whole (by decide) (fun _ => Priority.fitsRight_of_lt hq) (.of_stop ?_ ?_) ?_
  · rcases ht with ht | ht | ht | ht
    all_goals exact isKeyword_of_kind ht "("
  · exact fun _ => hstop q (Nat.le_of_lt hq)
  · intro u hu
    cases hu
    exact hstop _ (Nat.le_refl _)

/-- The tokens are read as expressions divided by commas, in brackets and in a
row of an array. -/
structure ReadsItems (r : Reading) (es : List Expr) (toks : List Token) : Prop where
  arguments {close : String} {closing : Token} (rest : List Token) :
    closing.kind = .keyword close → close = ")" ∨ close = "]" →
    Gives (argumentsFrom r close (toks ++ closing :: rest)) es rest
  row {closing : Token} (rest : List Token) :
    closing.kind = .keyword "]" ∨ closing.kind = .keyword ";" →
    Gives (tableRow r (toks ++ closing :: rest)) (es, closing) rest

theorem Token.EndsItem.of_close {close : String} (h : t.kind = .keyword close)
    (hclose : close = ")" ∨ close = "]") : t.EndsItem := by
  rcases hclose with rfl | rfl
  · exact .inr (.inl h)
  · exact .inr (.inr (.inl h))

namespace ReadsItems

variable {q : Nat}

theorem single (h : ReadsAs r q e toks) (hq : Priority.comma < q) : ReadsItems r [e] toks where
  arguments rest hkind hclose := by
    refine gives_last_argument (h.item hq (.of_close hkind hclose)) hkind ?_
    rcases hclose with rfl | rfl
    all_goals decide
  row rest hkind := gives_last_item (h.item hq (.inr (.inr hkind))) hkind

theorem cons {es : List Expr} {comma : Token} {toks' : List Token} (h : ReadsAs r q e toks)
    (hq : Priority.comma < q) (hcomma : comma.kind = .keyword ",") (hes : ReadsItems r es toks') :
    ReadsItems r (e :: es) (toks ++ comma :: toks') where
  arguments rest hkind hclose := by
    rw [List.append_assoc]
    exact gives_argument (h.item hq (.inl hcomma)) hcomma (hes.arguments rest hkind hclose)
  row rest hkind := by
    rw [List.append_assoc]
    exact gives_item (h.item hq (.inl hcomma)) hcomma (hes.row rest hkind)

end ReadsItems

/-- The tokens are read as the rows of an array. -/
structure ReadsRows (r : Reading) (rows : List (List Expr)) (toks : List Token) : Prop where
  table {n : Nat} {width : Option Nat} {closing : Token} (rest : List Token) :
    (∀ row ∈ rows, row.length = n) → (∀ m ∈ width, m = n) → closing.kind = .keyword "]" →
    Gives (tableRows r width (toks ++ closing :: rest)) rows rest

namespace ReadsRows

variable {row : List Expr}

theorem single (h : ReadsItems r row toks) : ReadsRows r [row] toks := by
  constructor
  intro n width closing rest hrows hwidth hkind
  obtain rfl := hrows row List.mem_cons_self
  exact gives_last_row (h.row rest (.inl hkind)) hwidth hkind

theorem cons {rows : List (List Expr)} {divider : Token} {toks' : List Token}
    (h : ReadsItems r row toks) (hdivider : divider.kind = .keyword ";")
    (hrows : ReadsRows r rows toks') : ReadsRows r (row :: rows) (toks ++ divider :: toks') := by
  constructor
  intro n width closing rest hlengths hwidth hkind
  obtain ⟨rfl, hothers⟩ := List.forall_mem_cons.mp hlengths
  rw [List.append_assoc]
  refine gives_row (h.row _ (.inr hdivider)) hwidth hdivider (hrows.table rest hothers ?_ hkind)
  rintro m ⟨⟩
  rfl

end ReadsRows

/-! ### All printed forms -/

section Forms

variable {q : Nat}

theorem Prints.comma_le (h : Prints language q e toks) : Priority.comma ≤ q := by
  cases h with
  | infixOp _ _ _ hop => exact (of_infixOp hop).2.2.1
  | _ => decide

/-- A printed form does not start with a closing bracket. -/
theorem Prints.head : ∀ {q : Nat} {e : Expr} {toks : List Token}, Prints language q e toks →
    ∃ t ts, toks = t :: ts ∧ t.isKeyword ")" = false ∧ t.isKeyword "]" = false
  | _, _, _, .number hkind => ⟨_, _, rfl, by simp [Token.isKeyword, hkind]⟩
  | _, _, _, .real hkind => ⟨_, _, rfl, by simp [Token.isKeyword, hkind]⟩
  | _, _, _, .name hkind => ⟨_, _, rfl, by simp [Token.isKeyword, hkind]⟩
  | _, _, _, .constant hkind hop =>
    ⟨_, _, rfl, isKeyword_of_not_mem hkind (of_constant hop).1 (by decide),
      isKeyword_of_not_mem hkind (of_constant hop).1 (by decide)⟩
  | _, _, _, .parentheses hkind _ _ =>
    ⟨_, _, rfl, isKeyword_of_kind hkind ")", isKeyword_of_kind hkind "]"⟩
  | _, _, _, .call hkind _ _ _ => ⟨_, _, rfl, by simp [Token.isKeyword, hkind]⟩
  | _, _, _, .array _ _ _ hkind _ _ =>
    ⟨_, _, rfl, isKeyword_of_kind hkind ")", isKeyword_of_kind hkind "]"⟩
  | _, _, _, .prefixOp hkind hop _ _ =>
    ⟨_, _, rfl, isKeyword_of_not_mem hkind (of_prefixOp hop) (by decide),
      isKeyword_of_not_mem hkind (of_prefixOp hop) (by decide)⟩
  | _, _, _, .index h _ _ _ => by
    obtain ⟨t, ts, rfl, ht⟩ := h.head
    exact ⟨t, _, rfl, ht⟩
  | _, _, _, .postfixOp h _ _ _ => by
    obtain ⟨t, ts, rfl, ht⟩ := h.head
    exact ⟨t, _, rfl, ht⟩
  | _, _, _, .infixOp h _ _ _ _ _ => by
    obtain ⟨t, ts, rfl, ht⟩ := h.head
    exact ⟨t, _, rfl, ht⟩

theorem PrintsItems.head {es : List Expr} {close : String} (h : PrintsItems language es toks)
    (hes : es ≠ []) (hclose : close = ")" ∨ close = "]") (rest : List Token) :
    startsWith close (toks ++ rest) = false := by
  have hfirst {q : Nat} {e : Expr} {ts : List Token} (more : List Token)
      (h : Prints language q e ts) : startsWith close (ts ++ more) = false := by
    obtain ⟨t, ts, rfl, hparen, hbracket⟩ := h.head
    rcases hclose with rfl | rfl
    · exact hparen
    · exact hbracket
  cases h with
  | nil => exact absurd rfl hes
  | single h _ => exact hfirst rest h
  | cons h _ _ _ =>
    rw [List.append_assoc]
    exact hfirst _ h

end Forms

/-- Expressions in brackets, or none. -/
theorem gives_bracketed {es es' : List Expr} {close : String} {closing : Token}
    (h : PrintsItems r.language es toks) (hes : es'.map Expr.unplaced = es.map Expr.unplaced)
    (hread : es ≠ [] → ReadsItems r es' toks) (hkind : closing.kind = .keyword close)
    (hclose : close = ")" ∨ close = "]") (rest : List Token) :
    Gives (arguments r close ((toks ++ [closing]) ++ rest)) es' rest := by
  rw [List.append_assoc]
  cases es with
  | nil =>
    cases h
    obtain rfl : es' = [] := List.map_eq_nil_iff.mp hes
    exact gives_no_arguments hkind
  | cons e es =>
    have hne : e :: es ≠ [] := List.cons_ne_nil e es
    exact gives_arguments (h.head hne hclose _) ((hread hne).arguments rest hkind hclose)

theorem Expr.op_unplaced {args args' : List Expr} (h : args'.map unplaced = args.map unplaced) (o : Op)
    (s s' : Span) : (Expr.op (.bare s') o args').unplaced = (Expr.op (.bare s) o args).unplaced := by
  rw [unplaced, unplaced, allUnplaced_eq_map, allUnplaced_eq_map, h]
  rfl

theorem lengths_of_map {f : Expr → Expr} {rows' : List (List Expr)} {n : Nat}
    (h : rows'.map (·.map f) = rows.map (·.map f)) (hrows : ∀ row ∈ rows, row.length = n) :
    ∀ row ∈ rows', row.length = n := by
  intro row hrow
  have hmem : row.map f ∈ rows.map (·.map f) := h ▸ List.mem_map_of_mem hrow
  obtain ⟨row', hrow', heq⟩ := List.mem_map.mp hmem
  have hlength := congrArg List.length heq
  rw [List.length_map, List.length_map, hrows row' hrow'] at hlength
  exact hlength.symm

theorem array_unplaced {height width : Nat} {items : List Expr} {rows' : List (List Expr)}
    (hheight : 0 < height) (hlength : items.length = height * width)
    (hmap : rows'.map (·.map Expr.unplaced) = (rowsOf height width items).map (·.map Expr.unplaced))
    (s s' : Span) : (Expr.array ⟨s', .undefined, tableDims rows'⟩ (columnMajor rows')).unplaced =
      (Expr.array ⟨s, .undefined, shapeOf height width⟩ items).unplaced := by
  have hdims : tableDims rows' = shapeOf height width := by
    rw [← tableDims_map Expr.unplaced rows', hmap, tableDims_map, tableDims_rowsOf hheight]
  have hitems : (columnMajor rows').map Expr.unplaced = items.map Expr.unplaced := by
    rw [← columnMajor_map, hmap, columnMajor_map, columnMajor_rowsOf hheight hlength]
  rw [Expr.unplaced, Expr.unplaced, Expr.allUnplaced_eq_map, Expr.allUnplaced_eq_map, hitems, hdims]
  rfl

theorem Expr.eq_var_of_unplaced {info : Info} {v : Variable}
    (h : e.unplaced = (Expr.var info v).unplaced) : ∃ info', e = .var info' v := by
  cases e with
  | var info' v' =>
    rw [unplaced, unplaced] at h
    exact ⟨info', by rw [(Expr.var.inj h).2]⟩
  | _ =>
    rw [unplaced, unplaced] at h
    cases h

mutual

/-- A printed form is read as the tree it prints, but for the places in it. -/
theorem Prints.read {q : Nat} {e : Expr} {toks : List Token} (h : Prints r.language q e toks) :
    ∃ e', e'.unplaced = e.unplaced ∧ ReadsAs r q e' toks := by
  match h with
  | .number hkind =>
    refine ⟨_, ?_, .of_primary fun _ _ => gives_number hkind⟩
    rfl
  | .real hkind =>
    refine ⟨_, ?_, .of_primary fun _ _ => gives_real hkind⟩
    rfl
  | .name hkind =>
    refine ⟨_, ?_, .of_primary fun _ hrest => gives_name hkind hrest⟩
    rfl
  | .constant hkind hop =>
    refine ⟨_, ?_, .of_primary fun _ _ => gives_constant hkind hop⟩
    rfl
  | .parentheses hopening hinner hclosing =>
    obtain ⟨e', he, hread⟩ := hinner.read
    exact ⟨e', he, hread.parentheses hopening hinner.comma_le hclosing⟩
  | .call hname hopening hargs hclosing =>
    obtain ⟨args', hmap, hread⟩ := hargs.read
    refine ⟨_, ?_, .call hname hopening (gives_bracketed hargs hmap hread hclosing (.inl rfl))⟩
    rw [Expr.unplaced, Expr.unplaced, Expr.allUnplaced_eq_map, Expr.allUnplaced_eq_map, hmap]
    rfl
  | .index hhead hopening hindices hclosing =>
    obtain ⟨e', he, hread⟩ := hhead.read
    obtain ⟨info', rfl⟩ := Expr.eq_var_of_unplaced he
    obtain ⟨indices', hmap, hitems⟩ := hindices.read
    refine ⟨_, ?_, .index hread hopening (gives_bracketed hindices hmap hitems hclosing (.inr rfl))⟩
    rw [Expr.unplaced, Expr.unplaced, Expr.allUnplaced_eq_map, Expr.allUnplaced_eq_map, hmap]
    rfl
  | .array hheight hwidth hlength hopening hrows hclosing =>
    obtain ⟨rows', hmap, hread⟩ := hrows.read fun row => ne_nil_of_mem_rowsOf hwidth
    have hwidths := lengths_of_map hmap fun row => length_of_mem_rowsOf
    refine ⟨_, array_unplaced hheight hlength hmap _ _, .array hopening fun rest => ?_⟩
    rw [List.append_assoc]
    exact hread.table rest hwidths nofun hclosing
  | .prefixOp hkind hop harg hq =>
    obtain ⟨e', he, hread⟩ := harg.read
    refine ⟨_, Expr.op_unplaced ?_ _ _ _, .prefixOp hkind hop hread hq⟩
    rw [List.map_singleton, List.map_singleton, he]
  | .postfixOp harg hq hkind hop =>
    obtain ⟨e', he, hread⟩ := harg.read
    refine ⟨_, Expr.op_unplaced ?_ _ _ _, .postfixOp hread hq hkind hop⟩
    rw [List.map_singleton, List.map_singleton, he]
  | .infixOp hleft hfitsLeft hkind hop hright hfitsRight =>
    obtain ⟨left', hl, hreadLeft⟩ := hleft.read
    obtain ⟨right', hr, hreadRight⟩ := hright.read
    refine ⟨_, Expr.op_unplaced ?_ _ _ _,
      .infixOp hreadLeft hfitsLeft hkind hop hreadRight hfitsRight⟩
    simp only [List.map_cons, List.map_nil, hl, hr]

theorem PrintsItems.read {es : List Expr} {toks : List Token} (h : PrintsItems r.language es toks) :
    ∃ es', es'.map Expr.unplaced = es.map Expr.unplaced ∧ (es ≠ [] → ReadsItems r es' toks) := by
  match h with
  | .nil => exact ⟨[], rfl, fun hne => absurd rfl hne⟩
  | .single h hq =>
    obtain ⟨e', he, hread⟩ := h.read
    exact ⟨[e'], by simp [he], fun _ => .single hread hq⟩
  | .cons h hq hcomma hes =>
    obtain ⟨e', he, hread⟩ := h.read
    obtain ⟨es', hmap, hitems⟩ := hes.read
    refine ⟨e' :: es', by rw [List.map_cons, List.map_cons, he, hmap], fun _ => ?_⟩
    exact .cons hread hq hcomma (hitems (List.cons_ne_nil _ _))

theorem PrintsRows.read {rows : List (List Expr)} {toks : List Token}
    (h : PrintsRows r.language rows toks) (hrows : ∀ row ∈ rows, row ≠ []) :
    ∃ rows', rows'.map (·.map Expr.unplaced) = rows.map (·.map Expr.unplaced) ∧
      ReadsRows r rows' toks := by
  match h with
  | .single hrow =>
    obtain ⟨row', hmap, hread⟩ := hrow.read
    exact ⟨[row'], by simp [hmap], .single (hread (hrows _ List.mem_cons_self))⟩
  | .cons hrow hdivider hothers =>
    obtain ⟨hne, hrest⟩ := List.forall_mem_cons.mp hrows
    obtain ⟨row', hmap, hread⟩ := hrow.read
    obtain ⟨rows', hmaps, hreads⟩ := hothers.read hrest
    exact ⟨row' :: rows', by rw [List.map_cons, List.map_cons, hmap, hmaps],
      .cons (hread hne) hdivider hreads⟩

end

/-- Whether a token behind an expression can go on with it. -/
def Language.continues (language : Language) (t : Token) : Bool :=
  match t.kind with
  | .keyword text =>
    (language.operator? text .postfixOp).isSome || (language.operator? text .infixOp).isSome ||
      text == "[" || text == "("
  | _ => false

theorem Language.stop_of_not_continues (h : language.continues t = false) (p : Nat) :
    language.continuation p t = .stop ∧ t.isKeyword "(" = false := by
  unfold continues at h
  cases hkind : t.kind with
  | keyword text =>
    simp only [hkind, Bool.or_eq_false_iff, Option.isSome_eq_false_iff, Option.isNone_iff_eq_none,
      beq_eq_false_iff_ne] at h
    obtain ⟨⟨⟨hbehind, hbinary⟩, hbracket⟩, hparen⟩ := h
    refine ⟨continuation_eq_stop.mpr fun text' htext => ?_, ?_⟩
    · cases hkind.symm.trans htext
      exact ⟨hbracket, by simp [hbehind], by simp [hbinary]⟩
    · rw [isKeyword_of_kind hkind]
      exact beq_false_of_ne hparen
  | _ => simp [continuation, Token.isKeyword, hkind]

theorem Settles.of_not_continues (h : ∀ t ∈ rest.head?, language.continues t = false) (q : Nat) :
    Settles language q rest := by
  cases rest with
  | nil => exact ⟨rfl, nofun⟩
  | cons t rest =>
    obtain ⟨hstop, hcall⟩ := Language.stop_of_not_continues (h t rfl) q
    exact .of_stop hcall fun _ => hstop

/-- Reading inverts printing: whatever parentheses stand where none are needed,
the tokens that print a tree are read as that tree, up to the end of the tokens
or to one that goes on with no expression. -/
theorem expression_inverts_printing {q : Nat} (h : Prints r.language q e toks)
    (hrest : ∀ t ∈ rest.head?, r.language.continues t = false) :
    ∃ p, expression r Priority.statement (toks ++ rest) = .ok p ∧
      p.value.unplaced = e.unplaced ∧ p.rest = rest := by
  obtain ⟨e', he, hread⟩ := h.read
  have hstops : ∀ t ∈ rest.head?, r.language.continuation Priority.statement t = .stop :=
    fun t ht => (Language.stop_of_not_continues (hrest t ht) _).1
  have hbinds : Priority.fitsRight Priority.statement q :=
    Priority.fitsRight_of_lt (Nat.lt_of_lt_of_le (by decide) h.comma_le)
  have hsettles := Settles.of_not_continues hrest q
  obtain ⟨hwithin, hok⟩ := hread.whole (by decide) (fun _ => hbinds) hsettles hstops
  exact ⟨_, hok, he, rfl⟩

/-- Two assignments, of a table of two rows and to an item of an array, with
parentheses that are not needed: `a - b - (c) = d[i] = -[1; 2]++;`. -/
theorem expression_inverts_printing_mixed :
    let word (text : String) : Token := ⟨.name, ⟨0, 0⟩, text, 1, 1⟩
    let mark (text : String) : Token := ⟨.keyword text, ⟨0, 0⟩, text, 1, 1⟩
    let digit (n : Cell) : Token := ⟨.number n, ⟨0, 0⟩, "", 1, 1⟩
    let var (name : String) : Expr := .var (.bare ⟨0, 0⟩) ⟨name, none⟩
    let op (o : Op) (args : List Expr) : Expr := .op (.bare ⟨0, 0⟩) o args
    let item : Expr := .index (.bare ⟨0, 0⟩) ⟨"d", none⟩ [var "i"]
    let table : Expr := .array ⟨⟨0, 0⟩, .undefined, [2, 1]⟩ [.int 1 ⟨0, 0⟩, .int 2 ⟨0, 0⟩]
    let tree : Expr := op .assign
      [op (.binary .sub) [op (.binary .sub) [var "a", var "b"], var "c"],
       op .assign [item, op .negate [op .postIncrement [table]]]]
    let toks : List Token :=
      [word "a", mark "-", word "b", mark "-", mark "(", word "c", mark ")", mark "=",
       word "d", mark "[", word "i", mark "]", mark "=", mark "-",
       mark "[", digit 1, mark ";", digit 2, mark "]", mark "++"]
    Prints .l2 Priority.assignment tree toks ∧
      ∃ p, expression ⟨⟨.l2, 1, []⟩, 0⟩ Priority.statement (toks ++ [mark ";"]) = .ok p ∧
        p.value.unplaced = tree.unplaced ∧ p.rest = [mark ";"] := by
  intro word mark digit var op item table tree toks
  have hname (text : String) : Prints .l2 Priority.constant (var text) [word text] :=
    .name (t := word text) rfl
  have hnumber (n : Cell) : Prints .l2 Priority.constant (.int n ⟨0, 0⟩) [digit n] :=
    .number (t := digit n) rfl
  have hfirst : Prints .l2 Priority.add (op (.binary .sub) [var "a", var "b"])
      [word "a", mark "-", word "b"] :=
    .infixOp (hname "a") (by decide) (t := mark "-") rfl rfl (hname "b") (by decide)
  have hc : Prints .l2 Priority.constant (var "c") [mark "(", word "c", mark ")"] :=
    .parentheses rfl (hname "c") rfl
  have hitem : Prints .l2 Priority.constant item [word "d", mark "[", word "i", mark "]"] :=
    .index (hname "d") (show (mark "[").kind = _ from rfl) (.single (hname "i") (by decide))
      (show (mark "]").kind = _ from rfl)
  have hrows : PrintsRows .l2 (rowsOf 2 1 [.int 1 ⟨0, 0⟩, .int 2 ⟨0, 0⟩])
      [digit 1, mark ";", digit 2] :=
    .cons (.single (hnumber 1) (by decide)) (show (mark ";").kind = _ from rfl)
      (.single (.single (hnumber 2) (by decide)))
  have htable : Prints .l2 Priority.constant table
      [mark "[", digit 1, mark ";", digit 2, mark "]"] :=
    .array (by decide) (by decide) rfl rfl hrows rfl
  have hnegated : Prints .l2 Priority.unary (op .negate [op .postIncrement [table]])
      [mark "-", mark "[", digit 1, mark ";", digit 2, mark "]", mark "++"] :=
    .prefixOp rfl rfl (.postfixOp htable (by decide) (t := mark "++") rfl rfl) (by decide)
  have hright : Prints .l2 Priority.assignment
      (op .assign [item, op .negate [op .postIncrement [table]]])
      [word "d", mark "[", word "i", mark "]", mark "=", mark "-",
       mark "[", digit 1, mark ";", digit 2, mark "]", mark "++"] :=
    .infixOp hitem (by decide) (t := mark "=") rfl rfl hnegated (by decide)
  have hprints : Prints .l2 Priority.assignment tree toks :=
    .infixOp (.infixOp hfirst (by decide) (t := mark "-") rfl rfl hc (by decide)) (by decide)
      (t := mark "=") rfl rfl hright (by decide)
  exact ⟨hprints, expression_inverts_printing hprints (by decide)⟩

end RobotScript
