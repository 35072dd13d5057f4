/-
# What reading gives

Reading takes tokens from the front of a list and leaves the others as they
are, so what is read stands at the places of the tokens, and so does every
failure, but for one at the end of the script. Operators are read with as many
operands as they have.

Key definitions: `SyntaxError.Placed`, `Token.Run`, `Reader.Reads`.
Key theorems: `expression_reads`, `arguments_reads`, `Reader.Reads.bind`.
-/
import RobotScript.Expr.Parser
import RobotScript.Proofs.Shapes

namespace RobotScript

/-- A failure that stands at a place `P`. -/
structure SyntaxError.Placed (P : Span → Prop) (e : SyntaxError) : Prop where
  span : ∃ s, e.span = some s ∧ P s
  snippet : e.snippet = none

/-- The tokens stand at places `P`. -/
def Token.AllAt (P : Span → Prop) (toks : List Token) : Prop := ∀ t ∈ toks, P t.span

/-- The tokens stand at places `P`, and what may be left of them is `Q`. -/
structure Token.Run (P : Span → Prop) (Q : List Token → Prop) (toks : List Token) : Prop where
  places : AllAt P toks
  ends : ∀ ts, ts <:+ toks → Q ts

/-- What was taken is `good`, the tokens left stand at places `P` and are `Q`. -/
structure Taken.Leaves {α : Type} {n : Nat} (P : Span → Prop) (Q : List Token → Prop) (good : α → Prop)
    (p : Parsed α n) : Prop where
  value : good p.value
  rest : Token.Run P Q p.rest

/-- Reading the tokens gives something `good`, or fails at a place `P`. -/
abbrev Gets {α : Type} {n : Nat} (P : Span → Prop) (Q : List Token → Prop) (good : α → Prop)
    (x : Except SyntaxError (Parsed α n)) : Prop :=
  Ends (SyntaxError.Placed P) (Taken.Leaves P Q good) x

variable {P : Span → Prop} {Q : List Token → Prop} {α β : Type}

theorem refuse_placed {good : α → Prop} (fault : SyntaxFault) {span : Span} (h : P span) :
    Ends (SyntaxError.Placed P) good (refuse fault span) := ⟨⟨span, rfl, h⟩, rfl⟩

theorem whileDoing_ends {good : α → Prop} {context : String} {x : Except SyntaxError α}
    (h : Ends (SyntaxError.Placed P) good x) : Ends (SyntaxError.Placed P) good (whileDoing context x) :=
  h.mapError fun _ he => ⟨he.span, he.snippet⟩

theorem Token.Run.tail {t : Token} {ts : List Token} (h : Run P Q (t :: ts)) : Run P Q ts where
  places := fun u hu => h.places u (List.mem_cons_of_mem _ hu)
  ends := fun us hus => h.ends us (hus.trans (List.suffix_cons t ts))

theorem Token.Run.head {t : Token} {ts : List Token} (h : Run P Q (t :: ts)) : P t.span :=
  h.places t List.mem_cons_self

namespace Reading

variable {r : Reading}
variable {toks : List Token}

theorem nextSpan_at (hend : P r.endSpan) (h : Token.Run P Q toks) : P (r.nextSpan toks) := by
  cases toks with
  | nil => exact hend
  | cons t ts => exact h.head

theorem keyword_gets (hend : P r.endSpan) (text : String) (h : Token.Run P Q toks) :
    Gets P Q (fun _ => True) (r.keyword text toks) := by
  cases toks with
  | nil => exact refuse_placed _ hend
  | cons t ts =>
    unfold keyword
    dsimp only
    split
    · exact Ends.ok ⟨trivial, h.tail⟩
    · exact refuse_placed _ h.head

theorem name_gets (hend : P r.endSpan) (h : Token.Run P Q toks) :
    Gets P Q (fun n => P n.2) (r.name toks) := by
  cases toks with
  | nil => exact refuse_placed _ hend
  | cons t ts =>
    unfold name
    dsimp only
    split
    · exact Ends.ok ⟨h.head, h.tail⟩
    · exact refuse_placed _ h.head

theorem token_gets (hend : P r.endSpan) (wanted : Wanted) (h : Token.Run P Q toks) :
    Gets P Q (fun t => P t.span) (r.token wanted toks) := by
  cases toks with
  | nil => exact refuse_placed _ hend
  | cons t ts => exact Ends.ok ⟨h.head, h.tail⟩

end Reading

/-! ### Readers one after another -/

namespace Reader

/-- The reader gives something `good`, or fails at a place `P`. -/
def Reads (P : Span → Prop) (Q : List Token → Prop) (good : α → Prop) (x : Reader α) : Prop :=
  ∀ toks, Token.Run P Q toks → Gets P Q good (x toks)

namespace Reads

variable {good : α → Prop} {good' : β → Prop} {x : Reader α}

theorem pure {a : α} (h : good a) : Reads P Q good (pure a : Reader α) :=
  fun _ htoks => Ends.ok ⟨h, htoks⟩

theorem bind {f : α → Reader β} (h : Reads P Q good x) (hf : ∀ a, good a → Reads P Q good' (f a)) :
    Reads P Q good' (x >>= f) := by
  intro toks htoks
  change Ends _ _ (x.andThen f toks)
  have hx := h toks htoks
  unfold andThen
  split
  · rename_i e he
    exact hx.of_error he
  · rename_i p hp
    have hp := hx.of_ok hp
    have hq := hf p.value hp.value p.rest hp.rest
    split
    · rename_i e he
      exact hq.of_error he
    · rename_i q hqq
      exact ⟨(hq.of_ok hqq).value, (hq.of_ok hqq).rest⟩

theorem map {f : α → β} (h : Reads P Q good x) (hf : ∀ a, good a → good' (f a)) : Reads P Q good' (f <$> x) :=
  h.bind fun a ha => pure (hf a ha)

theorem take {y : (toks : List Token) → Except SyntaxError (Parsed α toks.length)}
    (h : ∀ toks, Token.Run P Q toks → Gets P Q good (y toks)) : Reads P Q good (Reader.take y) := by
  intro toks htoks
  have hy := h toks htoks
  unfold Reader.take
  split
  · rename_i e he
    exact hy.of_error he
  · rename_i p hp
    exact ⟨(hy.of_ok hp).value, (hy.of_ok hp).rest⟩

theorem refuseAt (fault : SyntaxFault) {span : Span} (h : P span) :
    Reads P Q good (Reader.refuseAt fault span : Reader α) :=
  fun _ _ => refuse_placed fault h

theorem ahead : Reads P Q (Token.Run P Q) Reader.ahead := fun _ htoks => Ends.ok ⟨htoks, htoks⟩

theorem sees (text : String) : Reads P Q (fun _ => True) (Reader.sees text) :=
  ahead.bind fun _ _ => pure trivial

theorem accept (text : String) : Reads P Q (fun _ => True) (Reader.accept text) := by
  intro toks htoks
  unfold Reader.accept
  split
  · exact Ends.ok ⟨trivial, htoks⟩
  · split
    · exact Ends.ok ⟨trivial, htoks.tail⟩
    · exact Ends.ok ⟨trivial, htoks⟩

theorem during (context : String) (h : Reads P Q good x) : Reads P Q good (Reader.during context x) :=
  fun toks htoks => whileDoing_ends (h toks htoks)

end Reads
end Reader

/-! ### Expressions -/

/-- The operands that stand around an operator. -/
def Fixity.operands : Fixity → Nat
  | .prefixOp | .postfixOp => 1
  | .infixOp => 2
  | .constant => 0

variable {language : Language}

/-- An operator has as many operands as its position admits. -/
theorem Language.operator?_arity {symbol : String} {fixity : Fixity} {op : Op}
    (h : language.operator? symbol fixity = some op) : op.arity = fixity.operands := by
  unfold operator? at h
  rcases Option.or_eq_some_iff.mp h with h | ⟨-, h⟩
  · unfold commonOperator? at h
    split at h <;> cases h <;> rfl
  · unfold ownOperator? at h
    split at h <;> cases h <;> rfl

/-- There are conversions to the types of values only. -/
theorem Language.operator?_converts {symbol : String} {fixity : Fixity} {op : Op}
    (h : language.operator? symbol fixity = some op) : op.Converts := by
  unfold operator? at h
  rcases Option.or_eq_some_iff.mp h with h | ⟨-, h⟩
  · unfold commonOperator? at h
    split at h <;> cases h <;> trivial
  · unfold ownOperator? at h
    split at h <;> cases h
    case h_6 | h_7 | h_8 => exact ⟨nofun, nofun⟩
    all_goals trivial

theorem Language.continuation_reads {priority : Nat} {t : Token} {op : Op} :
    (language.continuation priority t = .postfixOp op → op.arity = 1 ∧ op.Converts) ∧
    (language.continuation priority t = .infixOp op → op.arity = 2 ∧ op.Converts) := by
  unfold continuation
  split
  · split
    · rename_i o ho
      have hop := Option.eq_some_of_filter_eq_some ho
      refine ⟨?_, by rintro ⟨⟩⟩
      rintro ⟨⟩
      exact ⟨Language.operator?_arity hop, Language.operator?_converts hop⟩
    · split
      · rename_i o ho
        have hop := Option.eq_some_of_filter_eq_some ho
        refine ⟨by rintro ⟨⟩, ?_⟩
        rintro ⟨⟩
        exact ⟨Language.operator?_arity hop, Language.operator?_converts hop⟩
      · split <;> exact ⟨by rintro ⟨⟩, by rintro ⟨⟩⟩
  · exact ⟨by rintro ⟨⟩, by rintro ⟨⟩⟩

theorem mem_columnMajor {rows : List (List α)} {a : α} (h : a ∈ columnMajor rows) :
    ∃ row ∈ rows, a ∈ row := by
  obtain ⟨c, -, hc⟩ := List.mem_flatMap.mp h
  obtain ⟨row, hrow, ha⟩ := List.mem_filterMap.mp hc
  exact ⟨row, hrow, List.mem_of_getElem? ha⟩

/-- The rows of a table all have the same width, which may be given. -/
structure Rectangular {α : Type} (width : Option Nat) (rows : List (List α)) : Prop where
  ne_nil : rows ≠ []
  even : ∃ n, (∀ row ∈ rows, row.length = n) ∧ ∀ w, width = some w → w = n

theorem Rectangular.volume_tableDims {width : Option Nat} {rows : List (List α)}
    (h : Rectangular width rows) : volume (tableDims rows) = (columnMajor rows).length := by
  obtain ⟨hne, n, hrows, -⟩ := h
  obtain ⟨row, rest, rfl⟩ := List.exists_cons_of_ne_nil hne
  have hwidth : row.length = n := hrows row List.mem_cons_self
  have hcolumn (c : Nat) (hc : c ∈ List.range n) :
      ((row :: rest).filterMap (·[c]?)).length = (row :: rest).length := by
    rw [List.filterMap_length_eq_length]
    intro r hr
    rw [List.getElem?_eq_getElem (hrows r hr ▸ List.mem_range.mp hc)]
    rfl
  have hsum : (columnMajor (row :: rest)).length = n * (row :: rest).length := by
    unfold columnMajor
    rw [List.length_flatMap, List.headD_cons, hwidth, List.map_congr_left hcolumn, List.map_const',
      List.sum_replicate_nat, List.length_range]
  rw [hsum]
  unfold tableDims
  rw [List.headD_cons, hwidth]
  dsimp only
  split
  · rename_i hone
    rw [hone]
    rfl
  · simp [volume, Nat.mul_comm]

/-- An expression as it is read. -/
abbrev Expr.Written (P : Span → Prop) : Expr → Prop := Expr.Tree P fun _ => True

section

variable {r : Reading}

mutual

theorem expression_reads (hend : P r.endSpan) (priority : Nat) (toks : List Token)
    (h : Token.Run P Q toks) : Gets P Q (Expr.Written P) (expression r priority toks) := by
  rw [expression]
  refine (whileDoing_ends (primary_reads hend toks h)).bind fun first hfirst => ?_
  have := first.within
  refine (operators_reads hend priority first.value first.rest hfirst.value hfirst.rest).bind
    fun whole hwhole => ?_
  exact Ends.pure ⟨hwhole.value, hwhole.rest⟩
termination_by 4 * toks.length + 2

theorem primary_reads (hend : P r.endSpan) (toks : List Token) (h : Token.Run P Q toks) :
    Gets P Q (Expr.Written P) (primary r toks) := by
  match toks, h with
  | [], _ =>
    rw [primary]
    exact refuse_placed _ hend
  | t :: ts, h =>
    unfold primary
    dsimp only
    split
    · exact Ends.ok ⟨.fixed h.head rfl rfl, h.tail⟩
    · exact Ends.ok ⟨.number h.head rfl rfl, h.tail⟩
    · refine (Reader.Reads.accept "(" ts h.tail).bind fun call hcall => ?_
      have := call.within
      split
      · refine (arguments_reads hend ")" call.rest hcall.rest).bind fun args hargs => ?_
        exact Ends.pure ⟨.call h.head hargs.value, hargs.rest⟩
      · exact Ends.pure ⟨.var h.head trivial, hcall.rest⟩
    · refine (expression_reads hend _ ts h.tail).bind fun inner hinner => ?_
      refine (whileDoing_ends (Reading.keyword_gets hend ")" hinner.rest)).bind fun close hclose => ?_
      exact Ends.pure ⟨hinner.value, hclose.rest⟩
    · refine (whileDoing_ends (tableRows_reads hend none ts h.tail)).bind fun table htable => ?_
      refine Ends.pure ⟨.array h.head htable.value.2.volume_tableDims fun e he => ?_, htable.rest⟩
      obtain ⟨row, hrow, he⟩ := mem_columnMajor he
      exact htable.value.1 row hrow e he
    · split
      · rename_i op hop
        refine (expression_reads hend _ ts h.tail).bind fun arg harg => ?_
        refine Ends.pure ⟨.op h.head (Language.operator?_arity hop).symm
          (Language.operator?_converts hop) ?_, harg.rest⟩
        simpa using harg.value
      · split
        · rename_i op hop
          exact Ends.ok ⟨.op h.head (Language.operator?_arity hop).symm
            (Language.operator?_converts hop) nofun, h.tail⟩
        · exact refuse_placed _ h.head
termination_by 4 * toks.length + 1

theorem operators_reads (hend : P r.endSpan) (priority : Nat) (left : Expr) (toks : List Token)
    (hleft : left.Written P) (h : Token.Run P Q toks) :
    Gets P Q (Expr.Written P) (operators r priority left toks) := by
  match toks, h with
  | [], h =>
    rw [operators]
    exact Ends.ok ⟨hleft, h⟩
  | t :: ts, h =>
    unfold operators
    dsimp only
    split
    · rename_i op hop
      obtain ⟨harity, hconv⟩ := Language.continuation_reads.1 hop
      have hwritten : Expr.Written P (.op (.bare t.span) op [left]) :=
        .op h.head harity.symm hconv (by simpa using hleft)
      refine (operators_reads hend priority _ ts hwritten h.tail).bind fun whole hwhole => ?_
      exact Ends.pure ⟨hwhole.value, hwhole.rest⟩
    · rename_i op hop
      obtain ⟨harity, hconv⟩ := Language.continuation_reads.2 hop
      refine (expression_reads hend op.priority ts h.tail).bind fun right hright => ?_
      have := right.within
      have hwritten : Expr.Written P (.op (.bare t.span) op [left, right.value]) :=
        .op h.head harity.symm hconv (by simpa using ⟨hleft, hright.value⟩)
      refine (operators_reads hend priority _ right.rest hwritten hright.rest).bind
        fun whole hwhole => ?_
      exact Ends.pure ⟨hwhole.value, hwhole.rest⟩
    · split
      · rename_i info v
        refine (arguments_reads hend "]" ts h.tail).bind fun indices hindices => ?_
        have := indices.within
        have hwritten : Expr.Written P (.index (.bare info.span) v indices.value) :=
          .index hleft.span trivial hindices.value
        refine (operators_reads hend priority _ indices.rest hwritten hindices.rest).bind
          fun whole hwhole => ?_
        exact Ends.pure ⟨hwhole.value, hwhole.rest⟩
      · exact refuse_placed _ h.head
    · exact Ends.ok ⟨hleft, h⟩
termination_by 4 * toks.length + 1

theorem arguments_reads (hend : P r.endSpan) (close : String) (toks : List Token) (h : Token.Run P Q toks) :
    Gets P Q (fun es => ∀ e ∈ es, Expr.Written P e) (arguments r close toks) := by
  match toks, h with
  | [], h =>
    rw [arguments]
    exact argumentsFrom_reads hend close [] h
  | t :: ts, h =>
    unfold arguments
    split
    · exact Ends.ok ⟨nofun, h.tail⟩
    · exact argumentsFrom_reads hend close (t :: ts) h
termination_by 4 * toks.length + 4

theorem argumentsFrom_reads (hend : P r.endSpan) (close : String) (toks : List Token)
    (h : Token.Run P Q toks) :
    Gets P Q (fun es => ∀ e ∈ es, Expr.Written P e) (argumentsFrom r close toks) := by
  rw [argumentsFrom]
  refine (expression_reads hend _ toks h).bind fun first hfirst => ?_
  have := first.within
  refine (Reader.Reads.accept "," first.rest hfirst.rest).bind fun comma hcomma => ?_
  have := comma.within
  split
  · refine (argumentsFrom_reads hend close comma.rest hcomma.rest).bind fun others hothers => ?_
    refine Ends.pure ⟨?_, hothers.rest⟩
    rintro e (_ | ⟨_, he⟩)
    · exact hfirst.value
    · exact hothers.value e he
  · refine (Reading.keyword_gets hend close hfirst.rest).bind fun last hlast => ?_
    refine Ends.pure ⟨?_, hlast.rest⟩
    rintro e (_ | ⟨_, ⟨⟩⟩)
    exact hfirst.value
termination_by 4 * toks.length + 3

theorem tableRows_reads (hend : P r.endSpan) (width : Option Nat) (toks : List Token)
    (h : Token.Run P Q toks) :
    Gets P Q (fun rows => (∀ row ∈ rows, ∀ e ∈ row, Expr.Written P e) ∧ Rectangular width rows)
      (tableRows r width toks) := by
  rw [tableRows]
  refine (tableRow_reads hend toks h).bind fun row hrow => ?_
  have := row.within
  dsimp only
  split
  · exact refuse_placed _ hrow.value.2
  · rename_i hwidth
    have hwidth : ∀ w, width = some w → w = row.value.1.length := by
      rintro w rfl
      simpa using hwidth
    split
    · refine Ends.pure ⟨⟨?_, nofun, row.value.1.length, ?_, hwidth⟩, hrow.rest⟩
      · rintro items (_ | ⟨_, ⟨⟩⟩)
        exact hrow.value.1
      · rintro items (_ | ⟨_, ⟨⟩⟩)
        rfl
    · refine (tableRows_reads hend _ row.rest hrow.rest).bind fun others hothers => ?_
      obtain ⟨-, n, heven, hn⟩ := hothers.value.2
      have hsame : row.value.1.length = n := by
        refine (hn _ rfl).symm.trans ?_ |>.symm
        cases width with
        | none => rfl
        | some w => exact hwidth w rfl
      refine Ends.pure ⟨⟨?_, nofun, n, ?_, fun w hw => (hwidth w hw).trans hsame⟩, hothers.rest⟩
      · rintro items (_ | ⟨_, hitems⟩)
        · exact hrow.value.1
        · exact hothers.value.1 items hitems
      · rintro items (_ | ⟨_, hitems⟩)
        · exact hsame
        · exact heven items hitems
termination_by 4 * toks.length + 4

theorem tableRow_reads (hend : P r.endSpan) (toks : List Token) (h : Token.Run P Q toks) :
    Gets P Q (fun row => (∀ e ∈ row.1, Expr.Written P e) ∧ P row.2.span) (tableRow r toks) := by
  rw [tableRow]
  refine (expression_reads hend _ toks h).bind fun first hfirst => ?_
  have := first.within
  refine (Reading.token_gets hend afterItem hfirst.rest).bind fun mark hmark => ?_
  have := mark.within
  split
  · refine (tableRow_reads hend mark.rest hmark.rest).bind fun others hothers => ?_
    refine Ends.pure ⟨⟨?_, hothers.value.2⟩, hothers.rest⟩
    rintro e (_ | ⟨_, he⟩)
    · exact hfirst.value
    · exact hothers.value.1 e he
  · split
    · refine Ends.pure ⟨⟨?_, hmark.value⟩, hmark.rest⟩
      rintro e (_ | ⟨_, ⟨⟩⟩)
      exact hfirst.value
    · exact refuse_placed _ hmark.value
termination_by 4 * toks.length + 3

end

end

end RobotScript
