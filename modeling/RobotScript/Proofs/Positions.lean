/-
# Positions of tokens

Where a token stands is found in two ways. Reading counts lines and columns
while it walks over white space, comments and tokens, and a diagnostic counts
them again from the start of the source up to a byte offset. Both come to the
same line and column for every token, and the line that a diagnostic shows has
the first character of the token in that column.

Key definitions: `Cursor.Behind`.
Key theorems: `Cursor.Behind.skip`, `getElem?_linesOf`, `token_positions_agree`.
-/
import Mathlib.Data.List.TakeWhile
import RobotScript.Proofs.Lexing

namespace RobotScript

/-! ### Counting from the start -/

/-- A line break begins a line, and any other character takes a column. -/
theorem positionAfter_concat (before : List Char) (c : Char) :
    positionAfter (before ++ [c]) =
      if c = '\n' then ⟨(positionAfter before).line + 1, 0⟩
      else ⟨(positionAfter before).line, (positionAfter before).col + 1⟩ := by
  by_cases hc : c = '\n'
  · simp [positionAfter, hc]
  · simp [positionAfter, hc]

/-- A line break in front counts as a line and moves no column. -/
theorem positionAfter_newline (before : List Char) :
    positionAfter ('\n' :: before) =
      ⟨(positionAfter before).line + 1, (positionAfter before).col⟩ := by
  have hcol : (before.reverse ++ ['\n']).takeWhile (· != '\n') =
      before.reverse.takeWhile (· != '\n') := by
    rw [List.takeWhile_append]
    split
    · rename_i hall
      rw [(List.takeWhile_prefix _).eq_of_length hall]
      simp
    · rfl
  simp [positionAfter, hcol]

/-- Another character in front takes a column on the first line only. -/
theorem positionAfter_cons {c : Char} (hc : c ≠ '\n') (before : List Char) :
    positionAfter (c :: before) =
      ⟨(positionAfter before).line,
        if (positionAfter before).line = 0 then (positionAfter before).col + 1
        else (positionAfter before).col⟩ := by
  have hcount : (c :: before).count '\n' = before.count '\n' := List.count_cons_of_ne hc
  by_cases hbreak : '\n' ∈ before
  · have hcol : (before.reverse ++ [c]).takeWhile (· != '\n') =
        before.reverse.takeWhile (· != '\n') := by
      rw [List.takeWhile_append, if_neg]
      intro hall
      have hself := (List.takeWhile_prefix (· != '\n')).eq_of_length hall
      have hno := List.takeWhile_eq_self_iff.mp hself '\n' (List.mem_reverse.mpr hbreak)
      cases hno
    have hlines : (positionAfter before).line ≠ 0 := mt List.count_eq_zero.mp (not_not.mpr hbreak)
    rw [if_neg hlines]
    simp [positionAfter, hcount, hcol]
  · have hall (ds : List Char) (hds : '\n' ∉ ds) : ds.takeWhile (· != '\n') = ds :=
      List.takeWhile_eq_self_iff.mpr fun d hd => bne_iff_ne.mpr fun h => hds (h ▸ hd)
    have hlines : (positionAfter before).line = 0 := List.count_eq_zero.mpr hbreak
    have hmore : '\n' ∉ before.reverse ++ [c] := by simp [hbreak, hc.symm]
    rw [if_pos hlines]
    simp [positionAfter, hcount, hall _ hmore, hall before.reverse (by simpa using hbreak)]

/-- The byte offset behind some characters gives them back. -/
theorem charsBefore_bytes (before rest : List Char) :
    charsBefore (Lexer.bytes before) (before ++ rest) = before := by
  induction before with
  | nil => cases rest <;> rfl
  | cons c before ih =>
    have hpos := c.utf8Size_pos
    rw [List.cons_append, charsBefore, Lexer.bytes_cons, if_neg (by omega), Nat.add_sub_cancel_left, ih]

/-! ### Lines -/

/-- A character that does not belong to a line break opens its line. -/
theorem linesOf_cons {c : Char} {cs : List Char} (hc : c ≠ '\n') (hcr : ¬ (c = '\r' ∧ cs.head? = some '\n')) :
    linesOf (c :: cs) = (c :: (linesOf cs).head?.getD []) :: (linesOf cs).tail := by
  rw [linesOf]
  · cases linesOf cs <;> rfl
  · exact hc
  · rintro ds rfl rfl
    exact hcr ⟨rfl, rfl⟩

/-- A carriage return in front of a line feed is part of the line break. -/
theorem linesOf_return (cs : List Char) : linesOf ('\r' :: '\n' :: cs) = linesOf ('\n' :: cs) := by
  rw [linesOf, linesOf]

/-- The lines of a text hold a character that is no line break where counting
the characters in front of it says. -/
theorem getElem?_linesOf (before : List Char) {c : Char} (hc : c ≠ '\n') (hcr : c ≠ '\r') (rest : List Char) :
    ∃ row, (linesOf (before ++ c :: rest))[(positionAfter before).line]? = some row ∧
      row[(positionAfter before).col]? = some c := by
  induction before with
  | nil =>
    refine ⟨c :: (linesOf rest).head?.getD [], ?_, rfl⟩
    rw [List.nil_append, linesOf_cons hc fun h => hcr h.1]
    rfl
  | cons b before ih =>
    obtain ⟨row, hline, hcol⟩ := ih
    by_cases hb : b = '\n'
    · subst hb
      rw [positionAfter_newline, List.cons_append, linesOf]
      exact ⟨row, hline, hcol⟩
    rw [positionAfter_cons hb, List.cons_append]
    by_cases hreturn : b = '\r' ∧ (before ++ c :: rest).head? = some '\n'
    · -- The carriage return goes with the line feed behind it, which is not the character itself.
      obtain ⟨rfl, hhead⟩ := hreturn
      cases before with
      | nil => exact absurd (Option.some.inj hhead) hc
      | cons d before =>
        obtain rfl : d = '\n' := Option.some.inj hhead
        rw [List.cons_append, linesOf_return, ← List.cons_append]
        refine ⟨row, hline, ?_⟩
        rw [if_neg (by rw [positionAfter_newline]; exact Nat.succ_ne_zero _)]
        exact hcol
    · rw [linesOf_cons hb hreturn]
      cases hn : (positionAfter before).line with
      | zero =>
        rw [hn] at hline
        refine ⟨b :: row, ?_, ?_⟩
        · rw [List.getElem?_cons_zero, List.head?_eq_getElem?, hline, Option.getD_some]
        · rw [if_pos rfl, List.getElem?_cons_succ, hcol]
      | succ n =>
        rw [hn] at hline
        refine ⟨row, ?_, ?_⟩
        · rw [List.getElem?_cons_succ, List.getElem?_tail, hline]
        · rw [if_neg (Nat.succ_ne_zero n), hcol]

namespace Lexer

/-! ### Counting along the way -/

/-- A cursor that has walked over `before` in a text and has counted it. -/
structure Cursor.Behind (c : Cursor) (text before : List Char) : Prop where
  split : text = before ++ c.rest
  offset : c.offset = bytes before
  line : c.line = (positionAfter before).line + 1
  col : c.col = (positionAfter before).col + 1

namespace Cursor.Behind

variable {c : Cursor} {text before : List Char}

theorem start (text : List Char) : (Cursor.start text).Behind text [] := ⟨rfl, rfl, rfl, rfl⟩

theorem next (h : c.Behind text before) : ∃ before', c.next.Behind text before' := by
  cases hrest : c.rest with
  | nil =>
    refine ⟨before, ?_⟩
    have hsame : c.next = c := by rw [Cursor.next, hrest]
    rwa [hsame]
  | cons ch cs =>
    refine ⟨before ++ [ch], ?_⟩
    have hbytes : bytes (before ++ [ch]) = c.offset + ch.utf8Size := by
      rw [bytes_append, bytes_cons, h.offset]
      rfl
    have hsplit : text = before ++ [ch] ++ cs := by rw [h.split, hrest, List.append_assoc]; rfl
    by_cases hch : ch = '\n'
    · have hnext : c.next = ⟨cs, c.offset + ch.utf8Size, c.line + 1, 1⟩ := by
        rw [Cursor.next, hrest]
        exact if_pos hch
      have hpos := (positionAfter_concat before ch).trans (if_pos hch)
      rw [hnext]
      exact ⟨hsplit, hbytes.symm, by rw [hpos, h.line], by rw [hpos]⟩
    · have hnext : c.next = ⟨cs, c.offset + ch.utf8Size, c.line, c.col + 1⟩ := by
        rw [Cursor.next, hrest]
        exact if_neg hch
      have hpos := (positionAfter_concat before ch).trans (if_neg hch)
      rw [hnext]
      exact ⟨hsplit, hbytes.symm, by rw [hpos, h.line], by rw [hpos, h.col]⟩

theorem skip (n : Nat) (h : c.Behind text before) : ∃ before', (c.skip n).Behind text before' := by
  induction n generalizing c before with
  | zero => exact ⟨before, h⟩
  | succ n ih =>
    obtain ⟨before', hnext⟩ := h.next
    exact ih hnext

end Cursor.Behind

variable {language : Language} {t : Token} {before : List Char}

/-- A token carries the line, the column and the offset of the cursor it is
read from, and reading goes on behind it. -/
theorem readToken_stands {c c' : Cursor} (h : readToken language c = .ok (some (t, c'))) : ∃ n m,
    t.line = (c.skip n).line ∧ t.col = (c.skip n).col ∧ t.span.offset = (c.skip n).offset ∧
      (c.skip n).rest = t.text.toList ++ c'.rest ∧ c' = (c.skip n).skip m := by
  unfold readToken at h
  split at h
  · cases h
  · rename_i n _
    dsimp only at h
    split at h
    · cases h
    · cases h
    · rename_i m _
      cases h
      refine ⟨n, m, rfl, rfl, rfl, ?_, rfl⟩
      rw [String.toList_ofList, Cursor.rest_skip m, List.take_append_drop]

/-- A token whose line, column and offset are those behind `before` in a text,
and which starts there with `c`, a character that belongs to no line break. -/
structure Placed (text : List Char) (t : Token) (before : List Char) (c : Char) : Prop where
  split : ∃ more, text = before ++ c :: more
  offset : t.span.offset = bytes before
  line : t.line = (positionAfter before).line + 1
  col : t.col = (positionAfter before).col + 1
  first : t.text.toList.head? = some c
  inLine : c ≠ '\n' ∧ c ≠ '\r'

theorem readToken_behind {c c' : Cursor} {text : List Char} (hc : c.Behind text before)
    (h : readToken language c = .ok (some (t, c'))) :
    (∃ start ch, Placed text t start ch) ∧ ∃ before', c'.Behind text before' := by
  obtain ⟨gap, hreads⟩ := readToken_eq_some h
  obtain ⟨n, m, hline, hcol, hoffset, hrest, rfl⟩ := readToken_stands h
  obtain ⟨start, hstart⟩ := hc.skip n
  refine ⟨?_, hstart.skip m⟩
  cases htext : t.text.toList with
  | nil => exact absurd (String.toList_eq_nil_iff.mp htext) hreads.text_ne
  | cons ch chs =>
    have hfirst := hreads.first
    rw [htext] at hfirst hrest
    -- A token does not start with white space, and both parts of a line break are white space.
    obtain ⟨hblank, -⟩ := gapAt_eq_none.mp hfirst
    refine ⟨start, ch, ⟨_, hrest ▸ hstart.split⟩, hoffset.trans hstart.offset,
      hline.trans hstart.line, hcol.trans hstart.col, by rw [htext]; rfl, ?_, ?_⟩
    · rintro rfl
      cases hblank
    · rintro rfl
      cases hblank

/-- Every token is placed, also where reading stops at a fault. -/
theorem readTokens_behind {c : Cursor} {text : List Char} (hc : c.Behind text before) :
    ∀ t ∈ (readTokens language c).1, ∃ start ch, Placed text t start ch := by
  fun_induction readTokens language c generalizing before with
  | case1 => simp
  | case2 => simp
  | case3 c t c' hsome ts fault hts ih =>
    obtain ⟨ht, before', hc'⟩ := readToken_behind hc hsome
    have htail := ih hc'
    rw [hts] at htail
    exact List.forall_mem_cons.mpr ⟨ht, htail⟩

theorem Placed.position {source : Source} {c : Char} (h : Placed source.text.toList t before c) :
    source.position t.span.offset = positionAfter before := by
  obtain ⟨more, hsplit⟩ := h.split
  rw [Source.position, h.offset, hsplit, charsBefore_bytes]

theorem Placed.offset_le {source : Source} {c : Char} (h : Placed source.text.toList t before c) :
    t.span.offset ≤ source.size := by
  obtain ⟨more, hsplit⟩ := h.split
  rw [h.offset, Source.size, ← bytes_toList, hsplit, bytes_append]
  exact Nat.le_add_right _ _

/-- The line and the column that reading tracks for a token are those that its
offset gives, both counted from one instead of zero. The line a diagnostic
shows for the token is the line of the source with that number, and in that
column it has the first character of the token. This holds of every token,
also of those in front of a fault. -/
theorem token_positions_agree {language : Language} {source : Source} {t : Token}
    (ht : t ∈ (tokenize language source).1) :
    t.line = (source.position t.span.offset).line + 1 ∧
    t.col = (source.position t.span.offset).col + 1 ∧
    ∃ snippet row first,
      Diagnostic.snippetOf source t.span = some snippet ∧
      snippet.position = source.position t.span.offset ∧
      (linesOf source.text.toList)[snippet.position.line]? = some row ∧
      snippet.line = String.ofList row ∧
      t.text.toList.head? = some first ∧
      row[snippet.position.col]? = some first := by
  obtain ⟨before, first, hplaced⟩ := readTokens_behind (Cursor.Behind.start _) t ht
  obtain ⟨more, hsplit⟩ := hplaced.split
  obtain ⟨row, hline, hcol⟩ := getElem?_linesOf before hplaced.inLine.1 hplaced.inLine.2 more
  rw [← hsplit] at hline
  rw [Diagnostic.snippetOf, if_neg (Nat.not_lt.mpr hplaced.offset_le), hplaced.position]
  refine ⟨hplaced.line, hplaced.col, _, row, first, rfl, rfl, hline, ?_, hplaced.first, hcol⟩
  rw [Source.lineText, hline, Option.getD_some]

/-- A name behind a comment of two lines and a character of two bytes, in front
of a character that starts no token. -/
theorem token_positions_agree_comment :
    let source : Source := ⟨"a /*\r\nß */\tx@", none⟩
    (tokenize .l2 source).2.isSome = true ∧
    ∃ t ∈ (tokenize .l2 source).1, t.text = "x" ∧ t.span.offset = 12 ∧ t.line = 2 ∧ t.col = 6 ∧
      source.position 12 = ⟨1, 5⟩ ∧
      ∃ row, (linesOf source.text.toList)[1]? = some row ∧ row[5]? = some 'x' := by
  intro source
  have hx : ∃ t ∈ (tokenize .l2 source).1,
      t.text = "x" ∧ t.span.offset = 12 ∧ t.line = 2 ∧ t.col = 6 := by decide +kernel
  have hposition : source.position 12 = ⟨1, 5⟩ := by decide +kernel
  obtain ⟨t, ht, htext, hoffset, hline, hcol⟩ := hx
  obtain ⟨-, -, snippet, row, first, -, hsnippet, hlines, -, hfirst, hfound⟩ :=
    token_positions_agree ht
  rw [hsnippet, hoffset, hposition] at hlines hfound
  rw [htext] at hfirst
  cases hfirst
  exact ⟨by decide +kernel, t, ht, htext, hoffset, hline, hcol, hposition, row, hlines, hfound⟩

end Lexer
end RobotScript
