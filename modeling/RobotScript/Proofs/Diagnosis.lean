/-
# Where failures stand

Reading walks the text character by character, so the offset of a cursor is
always that of a character or of the end, and so is the offset of every token.
All stages place their failures at spans of tokens, at the end of the source
or at its start. Looking such a place up in the source therefore always finds
a line, and no failure of compiling is one of the compiler's own.

Key definitions: `Source.Holds`, `Diagnostic.Located`.
Key theorems: `Lexer.readTokens_placed`, `Line.read_ends`, `compile_error_located`.
-/
import RobotScript.Proofs.Linking

namespace RobotScript

/-- The span starts at a character of the source or at its end. -/
def Source.Holds (source : Source) (span : Span) : Prop :=
  String.Pos.Raw.IsValid source.text ⟨span.offset⟩

theorem Source.Holds.le_size {source : Source} {span : Span} (h : source.Holds span) :
    span.offset ≤ source.size :=
  h.le_utf8ByteSize

/-- The diagnostic stands on a line of the source. -/
def Diagnostic.Located {κ : Type} (source : Source) (d : Diagnostic κ) : Prop :=
  ∃ s, d.span = some s ∧ source.Holds s ∧ d.position? = some (source.position s.offset)

namespace Diagnostic

variable {κ ι : Type} {source : Source} {d : Diagnostic κ} {s : Span}

theorem Located.of_span (hs : d.span = some s) (hnone : d.snippet = none) (h : source.Holds s) :
    (d.resolve source).Located source := by
  have hsize : ¬ source.size < s.offset := Nat.not_lt.mpr h.le_size
  have hresolve : d.resolve source = d.withSource s source := by
    unfold resolve
    rw [hs, hnone]
  rw [hresolve]
  refine ⟨s, rfl, h, ?_⟩
  simp only [position?, withSource, snippetOf, if_neg hsize]
  rfl

/-- A diagnostic whose line is known keeps it. -/
theorem Located.resolve (h : d.Located source) : d.resolve source = d := by
  obtain ⟨s, hs, -, hposition⟩ := h
  unfold Diagnostic.resolve
  rw [hs]
  cases hsnippet : d.snippet with
  | none => simp [position?, hsnippet] at hposition
  | some _ => rfl

theorem Located.mapCause (f : κ → ι) (h : d.Located source) : (d.mapCause f).Located source :=
  h

end Diagnostic

/-! ### Reading -/

namespace Lexer

variable {source : Source}

/-- The cursor stands in the text of the source. -/
def Cursor.In (source : Source) (c : Cursor) : Prop :=
  ∃ before, source.text.toList = before ++ c.rest ∧ c.offset = (String.ofList before).utf8ByteSize

namespace Cursor

variable {c : Cursor}

theorem In.start : In source (.start source.text.toList) := ⟨[], rfl, rfl⟩

theorem In.next (h : c.In source) : c.next.In source := by
  obtain ⟨before, htext, hoffset⟩ := h
  unfold Cursor.next
  split
  · exact ⟨before, htext, hoffset⟩
  · rename_i ch rest hrest
    have hsize : (String.ofList (before ++ [ch])).utf8ByteSize = c.offset + ch.utf8Size := by
      rw [String.ofList_append, String.utf8ByteSize_append, ← hoffset,
        ← String.singleton_eq_ofList, String.utf8ByteSize_singleton]
    split <;> exact ⟨before ++ [ch], by simpa [hrest] using htext, hsize.symm⟩

theorem In.skip (n : Nat) (h : c.In source) : (c.skip n).In source := by
  induction n generalizing c with
  | zero => exact h
  | succ n ih => exact ih h.next

/-- A span that starts at the cursor. -/
theorem In.holds (h : c.In source) (length : Nat) : source.Holds ⟨c.offset, length⟩ := by
  obtain ⟨before, htext, hoffset⟩ := h
  refine String.Pos.Raw.isValid_iff_exists_append.mpr
    ⟨String.ofList before, String.ofList c.rest, ?_, ?_⟩
  · rw [← String.ofList_append, ← htext, String.ofList_toList]
  · rw [hoffset]
    rfl

end Cursor
/-- A token or a fault of reading stands in the source. -/
theorem readToken_placed (language : Language) {c : Cursor} (h : c.In source) :
    match readToken language c with
    | .error e => ∃ s, e.span = some s ∧ source.Holds s ∧ e.snippet = none
    | .ok none => True
    | .ok (some (t, c')) => source.Holds t.span ∧ c'.In source := by
  have hcontexts (contexts : List String) (e : Diagnostic LexFault) :
      (contexts.foldl .addContext e).span = e.span ∧
        (contexts.foldl .addContext e).snippet = e.snippet := by
    induction contexts generalizing e with
    | nil => exact ⟨rfl, rfl⟩
    | cons context contexts ih => exact ih (e.addContext context)
  unfold readToken
  cases hblanks : blankLength language c.rest with
  | error n => exact ⟨_, rfl, (h.skip n).holds 1, rfl⟩
  | ok blanks =>
    have hstart := h.skip blanks
    dsimp only
    cases hlexeme : lexeme language (c.skip blanks).rest with
    | error e =>
      dsimp only
      obtain ⟨hspan, hsnippet⟩ := hcontexts e.contexts
        ((Diagnostic.ofCause e.fault).placedAt (.single ((c.skip blanks).skip e.place).offset))
      exact ⟨_, hspan, (hstart.skip e.place).holds 1, hsnippet⟩
    | ok lexeme =>
      cases lexeme with
      | none => trivial
      | some l => exact ⟨hstart.holds _, hstart.skip l.2⟩

/-- The tokens of a source stand in it, and so does the fault that ended
reading. -/
theorem readTokens_placed (language : Language) (c : Cursor) (h : c.In source) :
    Token.AllAt source.Holds (readTokens language c).1 ∧
      ∀ e, (readTokens language c).2 = some e →
        ∃ s, e.span = some s ∧ source.Holds s ∧ e.snippet = none := by
  fun_induction readTokens language c with
  | case1 c e hread =>
    have hplaced := readToken_placed language h
    rw [hread] at hplaced
    refine ⟨nofun, fun e' he' => ?_⟩
    obtain rfl := Option.some.inj he'
    exact hplaced
  | case2 c hread => exact ⟨nofun, nofun⟩
  | case3 c t c' hread tokens fault hrest ih =>
    have hplaced := readToken_placed language h
    rw [hread] at hplaced
    obtain ⟨htokens, hfault⟩ := ih hplaced.2
    rw [hrest] at htokens hfault
    refine ⟨fun t' ht' => ?_, hfault⟩
    rcases List.mem_cons.mp ht' with rfl | ht'
    · exact hplaced.1
    · exact htokens t' ht'

end Lexer

namespace Line

variable {source : Source} {settings : Settings}

theorem tokens_ends (language : Language) :
    Ends (fun e : SyntaxError => e.Located source) (Token.AllAt source.Holds)
      (tokens language source) := by
  have hstart : (Lexer.Cursor.start source.text.toList).In source := .start
  obtain ⟨htokens, hfault⟩ := Lexer.readTokens_placed language _ hstart
  unfold tokens Lexer.tokenize
  dsimp only
  cases hread : (Lexer.readTokens language (.start source.text.toList)).2 with
  | none => exact htokens
  | some e =>
    obtain ⟨s, hs, hholds, hsnippet⟩ := hfault e hread
    exact (Diagnostic.Located.of_span hs hsnippet hholds).mapCause _

/-- Reading a source gives lines that stand in it, or a failure that does. -/
theorem read_ends : Ends (fun e : SyntaxError => e.Located source)
    (fun lines => ∀ l ∈ lines, l.Written source.Holds) (read settings source) := by
  have hend : source.Holds (reading settings source).endSpan := String.Pos.Raw.isValid_rawEndPos
  have hlines : Ends (fun e : SyntaxError => (e.resolve source).Located source)
      (fun lines => ∀ l ∈ lines, l.Written source.Holds)
      (do ofTokens (reading settings source) (← tokens settings.language source)) := by
    refine ((tokens_ends settings.language).weaken fun e he => ?_).bind fun toks htoks => ?_
    · rw [he.resolve]
      exact he
    · refine (ofTokens_ends hend toks htoks).weaken fun e he => ?_
      obtain ⟨s, hs, hholds⟩ := he.span
      exact .of_span hs he.snippet hholds
  exact hlines.mapError fun _ he => he

end Line

/-! ### Compiling -/

/-- A failure that is the script's doing and stands on a line of its source. -/
structure CompileError.Reported (source : Source) (e : CompileError) : Prop where
  cause : ∀ f, e.cause ≠ .internal f
  located : e.Located source

variable {source : Source} {node : Node} {settings : Settings}

theorem CompileError.Placed.reported {e : CompileError} (h : e.Placed source.Holds) :
    CompileError.Reported source (e.resolve source) := by
  obtain ⟨s, hs⟩ := Option.isSome_iff_exists.mp h.placed
  refine ⟨fun f => ?_, .of_span hs h.snippet (h.span s hs)⟩
  have hcause : (e.resolve source).cause = e.cause := by
    unfold Diagnostic.resolve
    split <;> rfl
  rw [hcause]
  exact h.cause f

theorem readLines_ends : Ends (CompileError.Reported source)
    (fun lines => ∀ l ∈ lines, l.Written source.Holds) (readLines settings source) := by
  refine Line.read_ends.mapError fun e he => ⟨fun f => ?_, he.mapCause _⟩
  cases hcause : e.cause <;> simp [Diagnostic.mapCause, hcause, Fault.ofSyntax]

/-- Building the image of lines that stand in a source. -/
theorem link_lines_ends {lines : List Line} (h : ∀ l ∈ lines, l.Written source.Holds) :
    Ends (CompileError.Placed source.Holds) (fun _ => True)
      (do
        let program ← Program.ofLines node settings lines
        Image.link node (← program.assemble node settings)) := by
  let G : Ground := ⟨fun _ _ => True, fun _ => False, source.Holds⟩
  have hG : node.Provides G := fun _ _ _ _ => trivial
  have hstart : source.Holds (.single 0) := String.Pos.Raw.isValid_zero
  refine (Program.ofLines_ends node settings hstart h).bind fun program hprogram => ?_
  refine (Program.assemble_ends (G := G) hG hprogram.1 hprogram.2).bind fun units hunits => ?_
  exact (Image.link_ends hunits.1 hunits.2).mono fun _ _ => trivial

/-- The compiler never blames itself and always says where: a failure is not an
internal one, it stands at a character of the source or at its end, and its line
and column are known. -/
theorem compile_error_located (node : Node) (settings : Settings) (source : Source)
    (e : CompileError) (h : compile node settings source = .error e) :
    (∀ fault, e.cause ≠ .internal fault) ∧
      ∃ span, e.span = some span ∧ span.offset ≤ source.size ∧
        String.Pos.Raw.IsValid source.text ⟨span.offset⟩ ∧
        e.position? = some (source.position span.offset) := by
  suffices hreported : CompileError.Reported source e by
    obtain ⟨span, hspan, hholds, hposition⟩ := hreported.located
    exact ⟨hreported.cause, span, hspan, hholds.le_size, hholds, hposition⟩
  unfold compile at h
  split at h
  · rename_i e' hbuild
    obtain rfl := Except.error.inj h
    unfold buildImage at hbuild
    cases hlines : readLines settings source with
    | error e₁ =>
      have hreported := readLines_ends.of_error hlines
      obtain rfl : e₁ = e' := by simpa [hlines, bind, Except.bind] using hbuild
      rw [hreported.located.resolve]
      exact hreported
    | ok lines =>
      rw [hlines] at hbuild
      exact ((link_lines_ends (readLines_ends.of_ok hlines)).of_error hbuild).reported
  · cases h

/-- A variable that is not declared, behind characters of several bytes. -/
theorem compile_error_located_unknown :
    ∃ (node : Node) (settings : Settings) (source : Source) (e : CompileError),
      compile node settings source = .error e ∧ source.size = 12 ∧ e.span = some ⟨11, 1⟩ ∧
      (∀ fault, e.cause ≠ .internal fault) ∧ String.Pos.Raw.IsValid source.text ⟨11⟩ ∧
      e.position? = some ⟨1, 4⟩ := by
  have hfails : (match compile ⟨"", 8, [⟨"a", 1⟩], [], []⟩ ⟨.simple, 1, []⟩ ⟨"# äö\na = b", none⟩ with
      | .ok _ => none
      | .error e => e.span) = some ⟨11, 1⟩ := by
    decide +kernel
  have hposition : (Source.mk "# äö\na = b" none).position 11 = ⟨1, 4⟩ := by decide +kernel
  split at hfails
  · cases hfails
  · rename_i e he
    obtain ⟨hcause, span, hspan, -, hvalid, hknown⟩ := compile_error_located _ _ _ e he
    obtain rfl : span = ⟨11, 1⟩ := Option.some.inj (hspan.symm.trans hfails)
    exact ⟨_, _, _, e, he, by decide +kernel, hspan, hcause, hvalid, by rw [hknown, hposition]⟩

end RobotScript
