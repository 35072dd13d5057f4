/-
# Tokens and the text they stand in

Reading splits a text into tokens and gaps without losing a character, and a
gap is white space and complete comments only. Which token stands at a place
depends on its own characters and on the next one being none that a token of
its kind goes on with; a space never is. So the texts of the tokens, with one
space between them, are read as the same tokens.

Key definitions: `Skips`, `Stops`, `Reads`, `Covers`, `spaced`.
Key theorems: `blankLength_skips`, `lexeme_alone`, `readTokens_covers`,
`readTokens_spaced`, `tokens_cover_source`.
-/
import RobotScript.Proofs.Outcome
import RobotScript.Token.Lexer

namespace RobotScript.Lexer

/-! ### Gaps -/

/-- White space characters and complete comments, and the text behind them. A
comment in marks ends at the first closing mark; one up to the end of the line
leaves the line break, and does not start as a comment in marks does. -/
inductive Skips (language : Language) : (gap rest : List Char) → Prop where
  | nil {rest : List Char} : Skips language [] rest
  | blank {c : Char} {gap rest : List Char} :
      Text.isBlank c = true → Skips language gap rest → Skips language (c :: gap) rest
  | block {inside gap rest : List Char} :
      ¬ language.blockComment.2.toList <:+: inside ++ language.blockComment.2.toList.dropLast →
      Skips language gap rest →
      Skips language
        (language.blockComment.1.toList ++ (inside ++ language.blockComment.2.toList) ++ gap) rest
  | line {inside gap rest : List Char} :
      '\n' ∉ inside → ¬ language.blockComment.1.toList <+: language.lineComment.toList ++ inside →
      (∀ c ∈ (gap ++ rest).head?, c = '\n') → Skips language gap rest →
      Skips language (language.lineComment.toList ++ inside ++ gap) rest

/-- The first occurrence of a mark. -/
theorem lengthPast_eq_some {mark : List Char} (hmark : mark ≠ []) : ∀ {cs : List Char} {n : Nat},
    lengthPast mark cs = some n → ∃ inside after, cs = inside ++ mark ++ after ∧
      n = (inside ++ mark).length ∧ ¬ mark <:+: inside ++ mark.dropLast
  | [], _, h => by cases h
  | c :: cs, n, h => by
    have hpos : 0 < mark.length := List.length_pos_iff.mpr hmark
    unfold lengthPast at h
    by_cases hstart : mark.isPrefixOf (c :: cs) = true
    · rw [if_pos hstart] at h
      obtain ⟨after, hafter⟩ := List.isPrefixOf_iff_prefix.mp hstart
      refine ⟨[], after, by simp [hafter], by simpa using h.symm, fun hfound => ?_⟩
      have := hfound.length_le
      simp only [List.nil_append, List.length_dropLast] at this
      omega
    · rw [if_neg hstart] at h
      obtain ⟨m, hm, rfl⟩ := Option.map_eq_some_iff.mp h
      obtain ⟨inside, after, rfl, rfl, hfirst⟩ := lengthPast_eq_some hmark hm
      refine ⟨c :: inside, after, rfl, rfl, fun hfound => ?_⟩
      rw [List.cons_append] at hfound
      rcases List.infix_cons_iff.mp hfound with hfound | hfound
      · refine hstart (List.isPrefixOf_iff_prefix.mpr (hfound.trans ?_))
        rw [List.append_assoc]
        refine (List.cons_prefix_cons.mpr ⟨rfl, (List.prefix_append_right_inj inside).mpr ?_⟩)
        exact (List.dropLast_prefix mark).trans (List.prefix_append mark after)
      · exact hfirst hfound

theorem blockComment_ne_nil (language : Language) :
    language.blockComment.1.toList ≠ [] ∧ language.blockComment.2.toList ≠ [] := by
  cases language with
  | _ => decide

theorem lineComment_free (language : Language) : '\n' ∉ language.lineComment.toList := by
  cases language with
  | _ => decide

/-- The characters up to the end of the line. -/
abbrev lineChars (cs : List Char) : List Char := cs.takeWhile (· != '\n')

theorem lineChars_split (cs : List Char) : cs.take (lineChars cs).length = lineChars cs ∧
    ∀ c ∈ (cs.drop (lineChars cs).length).head?, c = '\n' := by
  have hsplit : lineChars cs ++ cs.dropWhile (· != '\n') = cs := List.takeWhile_append_dropWhile
  have hdrop : cs.drop (lineChars cs).length = cs.dropWhile (· != '\n') := calc
    cs.drop (lineChars cs).length
      = (lineChars cs ++ cs.dropWhile (· != '\n')).drop (lineChars cs).length := by rw [hsplit]
    _ = cs.dropWhile (· != '\n') := List.drop_left
  refine ⟨?_, fun c hc => ?_⟩
  · exact (List.prefix_iff_eq_take.mp (List.takeWhile_prefix _)).symm
  · rw [hdrop] at hc
    have hstop := List.head?_dropWhile_not (· != '\n') cs
    rw [hc] at hstop
    simpa using hstop

variable {language : Language} {cs rest gap tail : List Char} {l : Lexeme}

/-- A line that starts with the mark of a comment. -/
theorem lineChars_of_mark (h : language.lineComment.toList <+: cs) :
    ∃ inside, lineChars cs = language.lineComment.toList ++ inside ∧ '\n' ∉ inside := by
  obtain ⟨tail, rfl⟩ := h
  refine ⟨lineChars tail, ?_, ?_⟩
  · refine List.takeWhile_append_of_pos fun c hc => ?_
    simp only [bne_iff_ne, ne_eq]
    rintro rfl
    exact lineComment_free language hc
  · intro hmem
    have := List.all_eq_true.mp (List.all_takeWhile (p := (· != '\n')) (l := tail)) _ hmem
    simp at this

/-- The characters of a comment in marks. -/
theorem take_block {c : Char} {n : Nat} (hstart : language.blockComment.1.toList <+: c :: rest)
    (hpast : lengthPast language.blockComment.2.toList
      (rest.drop (language.blockComment.1.length - 1)) = some n) :
    ∃ inside, (c :: rest).take (language.blockComment.1.length - 1 + n + 1) =
        language.blockComment.1.toList ++ (inside ++ language.blockComment.2.toList) ∧
      ¬ language.blockComment.2.toList <:+: inside ++ language.blockComment.2.toList.dropLast := by
  obtain ⟨hopening, hclosing⟩ := blockComment_ne_nil language
  obtain ⟨body, hbody⟩ := hstart
  have hlength : 0 < language.blockComment.1.length := by
    rw [← String.length_toList]
    exact List.length_pos_iff.mpr hopening
  have hdrop : rest.drop (language.blockComment.1.length - 1) = body := by
    have hcons : (c :: rest).drop language.blockComment.1.length = body := by
      rw [← hbody, ← String.length_toList, List.drop_left]
    rw [← hcons, ← Nat.succ_pred_eq_of_pos hlength]
    rfl
  rw [hdrop] at hpast
  obtain ⟨inside, tail, rfl, rfl, hfirst⟩ := lengthPast_eq_some hclosing hpast
  refine ⟨inside, ?_, hfirst⟩
  rw [← hbody, ← List.append_assoc]
  refine List.take_left' ?_
  rw [List.length_append, String.length_toList]
  omega

/-- The characters of a comment up to the end of the line. -/
theorem take_line {c : Char} (hc : c ≠ '\n') (hstart : language.lineComment.toList <+: c :: rest) :
    ∃ inside, (c :: rest).take ((lineChars rest).length + 1) =
        language.lineComment.toList ++ inside ∧ '\n' ∉ inside ∧
      ∀ d ∈ (rest.drop (lineChars rest).length).head?, d = '\n' := by
  obtain ⟨inside, hinside, hfree⟩ := lineChars_of_mark hstart
  obtain ⟨htake, hend⟩ := lineChars_split (c :: rest)
  have hcons : lineChars (c :: rest) = c :: lineChars rest :=
    List.takeWhile_cons_of_pos (by simpa using hc)
  rw [hcons, List.length_cons, List.drop_succ_cons] at hend
  rw [hcons, List.length_cons, ← hcons, hinside] at htake
  exact ⟨inside, htake, hfree, hend⟩

/-- One white space character or comment in front of a gap. -/
theorem gapAt_skips {c : Char} {after : List Char} {more : Nat} (h : gapAt language (c :: rest) = .blank more)
    (hrest : rest.drop more = gap ++ after) (hgap : Skips language gap after) :
    Skips language ((c :: rest).take (more + 1) ++ gap) after := by
  unfold gapAt at h
  dsimp only at h
  by_cases hblank : Text.isBlank c = true
  · rw [if_pos hblank] at h
    cases h
    exact .blank hblank hgap
  · rw [if_neg hblank] at h
    by_cases hblock : language.blockComment.1.toList.isPrefixOf (c :: rest) = true
    · rw [if_pos hblock] at h
      split at h
      · cases h
      · rename_i n hpast
        cases h
        obtain ⟨inside, htake, hfirst⟩ := take_block (List.isPrefixOf_iff_prefix.mp hblock) hpast
        rw [htake]
        exact .block hfirst hgap
    · rw [if_neg hblock] at h
      split at h
      · rename_i hline
        cases h
        have hc : c ≠ '\n' := by
          rintro rfl
          exact hblank rfl
        obtain ⟨inside, htake, hfree, hend⟩ := take_line hc (List.isPrefixOf_iff_prefix.mp hline)
        rw [hrest] at hend
        rw [htake]
        refine .line hfree (fun hopen => hblock ?_) hend hgap
        rw [← htake] at hopen
        exact List.isPrefixOf_iff_prefix.mpr (hopen.trans (List.take_prefix _ _))
      · cases h

/-- The blanks that a text starts with, up to something else. -/
theorem blankLength_skips {n : Nat} (h : blankLength language cs = .ok n) :
    Skips language (cs.take n) (cs.drop n) ∧ gapAt language (cs.drop n) = .none := by
  fun_induction blankLength language cs generalizing n with
  | case1 =>
    cases h
    exact ⟨.nil, rfl⟩
  | case2 c rest hnone =>
    cases h
    exact ⟨.nil, hnone⟩
  | case3 => cases h
  | case4 c rest more hblank ih =>
    cases hlength : blankLength language (rest.drop more) with
    | error m =>
      rw [hlength] at h
      cases h
    | ok m =>
      rw [hlength] at h
      cases h
      obtain ⟨hskips, hnone⟩ := ih hlength
      have hsplit := (List.take_append_drop m (rest.drop more)).symm
      have htake : (c :: rest).take (more + 1 + m) =
          (c :: rest).take (more + 1) ++ (rest.drop more).take m := by
        rw [List.take_add, List.drop_succ_cons]
      have hdrop : (c :: rest).drop (more + 1 + m) = (rest.drop more).drop m := by
        rw [← List.drop_drop, List.drop_succ_cons]
      rw [htake, hdrop]
      exact ⟨gapAt_skips hblank hsplit hskips, hnone⟩

/-! ### Tokens on their own -/

/-- A text that is empty or starts with a space. -/
def Stops (rest : List Char) : Prop := rest.headD ' ' = ' '

namespace Stops

theorem nil : Stops [] := rfl

theorem space : Stops (' ' :: rest) := rfl

theorem takeWhile {p : Char → Bool} (h : Stops rest) (hspace : p ' ' = false) : rest.takeWhile p = [] := by
  cases rest with
  | nil => rfl
  | cons c rest =>
    obtain rfl : c = ' ' := h
    exact List.takeWhile_cons_of_neg (by simp [hspace])

/-- A mark without a space does not go on behind the text in front of a space. -/
theorem starts {mark cs : List Char} (h : Stops rest) (hmark : ' ' ∉ mark)
    (hstart : mark <+: cs ++ rest) : mark <+: cs := by
  rcases List.prefix_or_prefix_of_prefix hstart (List.prefix_append cs rest) with hcs | ⟨more, rfl⟩
  · exact hcs
  · cases more with
    | nil => simp
    | cons c more =>
      obtain ⟨after, rfl⟩ := (List.prefix_append_right_inj cs).mp hstart
      obtain rfl : c = ' ' := h
      exact absurd (List.mem_append_right cs List.mem_cons_self) hmark

end Stops

theorem takeWhile_append_stop {p : Char → Bool} (hcs : ∀ c ∈ cs, p c = true) (hrest : rest.takeWhile p = []) :
    (cs ++ rest).takeWhile p = cs := by
  rw [List.takeWhile_append_of_pos hcs, hrest, List.append_nil]

/-- A text is what a test holds for and a rest that does not start so. -/
theorem takeWhile_split (p : Char → Bool) (cs : List Char) : ∃ inside rest, cs = inside ++ rest ∧
    (∀ c ∈ inside, p c = true) ∧ rest.takeWhile p = [] := by
  refine ⟨cs.takeWhile p, cs.dropWhile p, List.takeWhile_append_dropWhile.symm,
    List.all_eq_true.mp List.all_takeWhile, ?_⟩
  have hstop := List.head?_dropWhile_not p cs
  cases hrest : cs.dropWhile p with
  | nil => rfl
  | cons c rest =>
    rw [hrest] at hstop
    exact List.takeWhile_cons_of_neg (by simp [show p c = false from hstop])

/-- A decimal number in terms of its digits. -/
theorem decimalNumber_append (language : Language) {digits : List Char}
    (hdigits : ∀ c ∈ digits, c.isDigit = true) (htail : tail.takeWhile Char.isDigit = []) :
    decimalNumber language (digits ++ tail) =
      if (fractionDigits language tail).isEmpty then (.number (wrapDigits 10 digits), digits.length)
      else (.float (Decimal.ofDecimal (decimalValue (digits ++ fractionDigits language tail))
        (fractionDigits language tail).length),
        digits.length + 1 + (fractionDigits language tail).length) := by
  unfold decimalNumber
  dsimp only
  rw [takeWhile_append_stop hdigits htail, List.drop_left]

/-- A fraction starts with a point. -/
theorem point_of_fraction (h : ¬ (fractionDigits language tail).isEmpty = true) :
    language.hasFixed = true ∧ ∃ more, tail = '.' :: more := by
  unfold fractionDigits at h
  split at h
  · rename_i more
    by_cases hfixed : language.hasFixed = true
    · exact ⟨hfixed, more, rfl⟩
    · rw [if_neg hfixed] at h
      exact absurd rfl h
  · exact absurd rfl h

theorem decimalNumber_alone (language : Language) (cs : List Char) (h : Stops rest) :
    (decimalNumber language cs).2 ≤ cs.length ∧
      decimalNumber language (cs.take (decimalNumber language cs).2 ++ rest) =
        decimalNumber language cs := by
  obtain ⟨digits, tail, rfl, hdigits, htail⟩ := takeWhile_split Char.isDigit cs
  have hread := decimalNumber_append language hdigits htail
  by_cases hfraction : (fractionDigits language tail).isEmpty = true
  · rw [if_pos hfraction] at hread
    have hrest : fractionDigits language rest = [] := by
      cases rest with
      | nil => rfl
      | cons c rest =>
        obtain rfl : c = ' ' := h
        rfl
    rw [hread, List.take_left, decimalNumber_append language hdigits (h.takeWhile rfl), hrest]
    exact ⟨by simp, rfl⟩
  · rw [if_neg hfraction] at hread
    obtain ⟨hfixed, more, rfl⟩ := point_of_fraction hfraction
    obtain ⟨fraction, after, rfl, hall, hafter⟩ := takeWhile_split Char.isDigit more
    have hdigits' : ∀ r : List Char, r.takeWhile Char.isDigit = [] →
        fractionDigits language ('.' :: (fraction ++ r)) = fraction := by
      intro r hr
      rw [fractionDigits, if_pos hfixed, takeWhile_append_stop hall hr]
    rw [hdigits' after hafter] at hread hfraction
    have htake : (digits ++ '.' :: (fraction ++ after)).take
        (digits.length + 1 + fraction.length) = digits ++ '.' :: fraction := by
      rw [← List.cons_append, ← List.append_assoc]
      refine List.take_left' ?_
      simp only [List.length_append, List.length_cons]
      omega
    rw [hread, htake, List.append_assoc, List.cons_append,
      decimalNumber_append language hdigits rfl, hdigits' rest (h.takeWhile rfl),
      if_neg hfraction]
    refine ⟨?_, rfl⟩
    simp only [List.length_append, List.length_cons]
    omega

theorem basedNumber_alone {radix : Nat} {isDigit : Char → Bool} {fault : LexFault}
    (hspace : isDigit ' ' = false) {a b : Char} (h : basedNumber radix isDigit fault (a :: b :: cs) = .ok l)
    (hrest : Stops rest) :
    l.2 ≤ (a :: b :: cs).length ∧ 2 ≤ l.2 ∧
      basedNumber radix isDigit fault ((a :: b :: cs).take l.2 ++ rest) = .ok l := by
  obtain ⟨digits, tail, rfl, hdigits, htail⟩ := takeWhile_split isDigit cs
  have hread : ∀ r : List Char, r.takeWhile isDigit = [] →
      basedNumber radix isDigit fault (a :: b :: (digits ++ r)) =
        if digits.isEmpty then .error ⟨fault, 0, ["reading number"]⟩
        else .ok (.number (wrapDigits radix digits), digits.length + 2) := by
    intro r hr
    have hdrop : (a :: b :: (digits ++ r)).drop 2 = digits ++ r := rfl
    unfold basedNumber
    rw [hdrop, takeWhile_append_stop hdigits hr]
  rw [hread tail htail] at h
  by_cases hempty : digits.isEmpty = true
  · rw [if_pos hempty] at h
    cases h
  · rw [if_neg hempty] at h
    cases h
    dsimp only
    rw [List.take_succ_cons, List.take_succ_cons, List.take_left]
    refine ⟨by simp, by omega, ?_⟩
    rw [List.cons_append, List.cons_append, hread rest (hrest.takeWhile hspace), if_neg hempty]

theorem numberStart_alone (h : numberStart language cs = .ok l) (hrest : Stops rest) :
    l.2 ≤ cs.length ∧ numberStart language (cs.take l.2 ++ rest) = .ok l := by
  have hbased {radix : Nat} {isDigit : Char → Bool} {fault : LexFault} {b : Char} {tail : List Char}
      (hspace : isDigit ' ' = false)
      (hstart : ∀ r, numberStart language ('0' :: b :: r) =
        basedNumber radix isDigit fault ('0' :: b :: r))
      (h : basedNumber radix isDigit fault ('0' :: b :: tail) = .ok l) :
      l.2 ≤ ('0' :: b :: tail).length ∧
        numberStart language (('0' :: b :: tail).take l.2 ++ rest) = .ok l := by
    obtain ⟨hle, hpos, halone⟩ := basedNumber_alone hspace h hrest
    obtain ⟨k, hk⟩ := Nat.exists_eq_add_of_le' hpos
    rw [hk, List.take_succ_cons, List.take_succ_cons] at halone ⊢
    exact ⟨hk ▸ hle, (hstart _).trans halone⟩
  unfold numberStart at h
  split at h
  · exact hbased rfl (fun _ => rfl) h
  · exact hbased rfl (fun _ => rfl) h
  · exact hbased rfl (fun _ => rfl) h
  · exact hbased rfl (fun _ => rfl) h
  · rename_i hx hX hb hB
    cases h
    obtain ⟨hle, halone⟩ := decimalNumber_alone language cs hrest
    refine ⟨hle, ?_⟩
    -- No mark of a base appears where the text is cut off.
    have hmark (b : Char) (hspace : b ≠ ' ') (tail : List Char)
        (heq : cs.take (decimalNumber language cs).2 ++ rest = '0' :: b :: tail) :
        ∃ tail', cs = '0' :: b :: tail' := by
      have hstart : ['0', b] <+: cs.take (decimalNumber language cs).2 ++ rest := ⟨tail, heq.symm⟩
      have hfree : ' ' ∉ ['0', b] := by simpa using hspace.symm
      obtain ⟨tail', htail⟩ := (hrest.starts hfree hstart).trans (List.take_prefix _ _)
      exact ⟨tail', htail.symm⟩
    unfold numberStart
    split
    · rename_i heq
      obtain ⟨tail', rfl⟩ := hmark 'x' (by decide) _ heq
      exact absurd rfl (hx tail')
    · rename_i heq
      obtain ⟨tail', rfl⟩ := hmark 'X' (by decide) _ heq
      exact absurd rfl (hX tail')
    · rename_i heq
      obtain ⟨tail', rfl⟩ := hmark 'b' (by decide) _ heq
      exact absurd rfl (hb tail')
    · rename_i heq
      obtain ⟨tail', rfl⟩ := hmark 'B' (by decide) _ heq
      exact absurd rfl (hB tail')
    · rw [halone]

theorem number_eq_ok :
    number language cs = .ok l ↔ numberStart language cs = .ok l ∧
      ∀ c ∈ (cs.drop l.2).head?, (c.isAlphanum || c == '_') = false := by
  obtain ⟨kind, n⟩ := l
  unfold number
  constructor
  · intro h
    obtain ⟨⟨kind', n'⟩, hstart, h⟩ := bind_eq_ok.mp h
    dsimp only at h
    split at h
    · rename_i hnil
      cases h
      exact ⟨hstart, by simp [hnil]⟩
    · rename_i c tail hcons
      by_cases hc : (c.isAlphanum || c == '_') = true
      · rw [if_pos hc] at h
        cases h
      · rw [if_neg hc] at h
        cases h
        exact ⟨hstart, by simpa [hcons] using hc⟩
  · rintro ⟨hstart, hend⟩
    refine bind_eq_ok.mpr ⟨_, hstart, ?_⟩
    dsimp only at hend ⊢
    split
    · rfl
    · rename_i c tail hcons
      rw [hcons] at hend
      rw [hend c rfl]
      rfl

theorem number_alone (h : number language cs = .ok l) (hrest : Stops rest) :
    l.2 ≤ cs.length ∧ number language (cs.take l.2 ++ rest) = .ok l := by
  obtain ⟨hle, halone⟩ := numberStart_alone (number_eq_ok.mp h).1 hrest
  have hdrop : (cs.take l.2 ++ rest).drop l.2 = rest :=
    List.drop_left' (by rw [List.length_take, Nat.min_eq_left hle])
  refine ⟨hle, number_eq_ok.mpr ⟨halone, fun c hc => ?_⟩⟩
  rw [hdrop] at hc
  cases rest with
  | nil => cases hc
  | cons d rest =>
    obtain rfl : d = ' ' := hrest
    cases hc
    rfl

/-! The keywords of a language have no spaces, none stands in the list before
one that it starts, and one that starts like a name ends like one. -/

theorem keywords_free (language : Language) : ∀ kw ∈ language.keywords, ' ' ∉ kw.toList := by
  cases language with
  | _ => decide +kernel

theorem keywords_ordered (language : Language) :
    language.keywords.Pairwise fun a b => ¬ a.toList <+: b.toList := by
  cases language with
  | _ => decide +kernel

theorem keywords_word (language : Language) : ∀ kw ∈ language.keywords,
    isNameStart (kw.toList.headD ' ') = true → isNameChar (kw.toList.getLastD ' ') = true := by
  cases language with
  | _ => decide +kernel

theorem fits_iff {kw : String} : fits cs kw = true ↔ kw.toList <+: cs ∧
    ¬ (isNameChar (kw.toList.getLastD ' ') = true ∧
      isNameChar ((cs.drop kw.toList.length).headD ' ') = true) := by
  unfold fits
  rw [Bool.and_eq_true, List.isPrefixOf_iff_prefix, Bool.not_eq_true', Bool.eq_false_iff, ne_eq,
    Bool.and_eq_true]

theorem keyword_alone {kw : String} (h : keyword? language cs = some kw) (hrest : Stops rest) :
    kw.length ≤ cs.length ∧ keyword? language (cs.take kw.length ++ rest) = some kw := by
  obtain ⟨hfits, before, after, hlist, -⟩ := List.find?_eq_some_iff_append.mp h
  obtain ⟨⟨tail, rfl⟩, -⟩ := fits_iff.mp hfits
  rw [← String.length_toList, List.take_left]
  refine ⟨by simp, List.find?_eq_some_iff_append.mpr ⟨?_, before, after, hlist, fun a ha => ?_⟩⟩
  · refine fits_iff.mpr ⟨List.prefix_append _ _, fun hname => ?_⟩
    rw [List.drop_left, show rest.headD ' ' = ' ' from hrest] at hname
    exact absurd hname.2 (by decide)
  · -- A keyword tried before would start this one.
    have hordered := keywords_ordered language
    rw [hlist] at hordered
    have hmem : a ∈ language.keywords := hlist ▸ List.mem_append_left _ ha
    rw [Bool.not_eq_true', Bool.eq_false_iff]
    intro hfits'
    have hstart := hrest.starts (keywords_free language a hmem) (fits_iff.mp hfits').1
    exact (List.pairwise_append.mp hordered).2.2 a ha kw List.mem_cons_self hstart

theorem name_alone {c : Char} (hname : isNameStart c = true) (h : keyword? language (c :: cs) = none)
    (hrest : Stops rest) : keyword? language (c :: (cs.takeWhile isNameChar ++ rest)) = none := by
  obtain ⟨name, tail, rfl, hchars, htail⟩ := takeWhile_split isNameChar cs
  rw [takeWhile_append_stop hchars htail]
  refine List.find?_eq_none.mpr fun kw hkw hfits => ?_
  obtain ⟨hstart, hend⟩ := fits_iff.mp hfits
  have hword : kw.toList <+: c :: name := hrest.starts (keywords_free language kw hkw) hstart
  obtain ⟨more, hmore⟩ := hword
  obtain ⟨ks, hks⟩ : ∃ ks, kw.toList = c :: ks := by
    have hpos := keywords_ne_empty language kw hkw
    rw [← String.length_toList] at hpos
    cases hletters : kw.toList with
    | nil =>
      rw [hletters] at hpos
      cases hpos
    | cons d ds =>
      rw [hletters, List.cons_append] at hmore
      exact ⟨ds, by rw [(List.cons.inj hmore).1]⟩
  rw [hks, List.cons_append] at hmore
  obtain rfl := (List.cons.inj hmore).2
  have hlast : isNameChar (kw.toList.getLastD ' ') = true := by
    refine keywords_word language kw hkw ?_
    rw [hks]
    exact hname
  cases more with
  | nil =>
    -- The keyword is the whole name, so it stands at the start of the text before.
    rw [List.append_nil] at h
    refine List.find?_eq_none.mp h kw hkw (fits_iff.mpr ⟨?_, fun hcut => ?_⟩)
    · exact ⟨tail, by rw [hks, List.cons_append]⟩
    · rw [hks, ← List.cons_append, List.drop_left] at hcut
      cases tail with
      | nil => exact absurd hcut.2 (by decide)
      | cons d tail =>
        have hd : isNameChar d = true := hcut.2
        rw [List.takeWhile_cons_of_pos hd] at htail
        cases htail
  | cons d more =>
    -- The name goes on behind the keyword.
    refine hend ⟨hlast, ?_⟩
    rw [hks, List.append_assoc, ← List.cons_append, List.drop_left]
    exact hchars d (by simp)

/-- A token is a number, a keyword or a name. -/
theorem lexeme_eq_some {c : Char} :
    lexeme language (c :: cs) = .ok (some l) ↔
      (c.isDigit = true ∧ number language (c :: cs) = .ok l) ∨
      (c.isDigit = false ∧
        ∃ kw, keyword? language (c :: cs) = some kw ∧ l = (.keyword kw, kw.length)) ∨
      (c.isDigit = false ∧ keyword? language (c :: cs) = none ∧ isNameStart c = true ∧
        l = (.name, 1 + (cs.takeWhile isNameChar).length)) := by
  unfold lexeme
  dsimp only
  by_cases hdigit : c.isDigit = true
  · rw [if_pos hdigit]
    cases number language (c :: cs) with
    | error e => simp [hdigit, Except.map]
    | ok l' => simp [hdigit, Except.map]
  · rw [if_neg hdigit]
    rw [Bool.not_eq_true] at hdigit
    cases keyword? language (c :: cs) with
    | some kw => simp [hdigit, @eq_comm _ l]
    | none =>
      by_cases hname : isNameStart c = true
      · simp [hdigit, hname, @eq_comm _ l]
      · simp [hdigit, hname]

/-- A token is read the same way where nothing but a space or the end follows
its own characters. -/
theorem lexeme_alone (h : lexeme language cs = .ok (some l)) (hrest : Stops rest) :
    l.2 ≤ cs.length ∧ lexeme language (cs.take l.2 ++ rest) = .ok (some l) := by
  obtain ⟨hne, hpos⟩ := lexeme_pos h
  obtain ⟨k, hk⟩ := Nat.exists_eq_add_of_le' hpos
  cases cs with
  | nil => cases hne
  | cons c cs =>
    have htake : (c :: cs).take l.2 ++ rest = c :: (cs.take k ++ rest) := by
      rw [hk]
      rfl
    rw [htake]
    rcases lexeme_eq_some.mp h with ⟨hdigit, hnumber⟩ | ⟨hdigit, kw, hkeyword, rfl⟩ |
      ⟨hdigit, hkeyword, hname, rfl⟩
    · obtain ⟨hle, halone⟩ := number_alone hnumber hrest
      rw [htake] at halone
      exact ⟨hle, lexeme_eq_some.mpr (.inl ⟨hdigit, halone⟩)⟩
    · obtain ⟨hle, halone⟩ := keyword_alone hkeyword hrest
      rw [htake] at halone
      exact ⟨hle, lexeme_eq_some.mpr (.inr (.inl ⟨hdigit, kw, halone, rfl⟩))⟩
    · have hlength : (cs.takeWhile isNameChar).length = k := by
        dsimp only at hk
        omega
      have hname' : cs.take k = cs.takeWhile isNameChar := by
        rw [← hlength]
        exact (List.prefix_iff_eq_take.mp (List.takeWhile_prefix _)).symm
      have hwhole : (cs.takeWhile isNameChar ++ rest).takeWhile isNameChar =
          cs.takeWhile isNameChar :=
        takeWhile_append_stop (List.all_eq_true.mp List.all_takeWhile) (hrest.takeWhile rfl)
      rw [hname']
      refine ⟨?_, lexeme_eq_some.mpr (.inr (.inr ⟨hdigit, ?_, hname, by rw [hwhole]⟩))⟩
      · dsimp only
        rw [Nat.add_comm, List.length_cons]
        exact Nat.succ_le_succ (List.takeWhile_prefix _).length_le
      · exact name_alone hname hkeyword hrest

theorem comments_free (language : Language) :
    ' ' ∉ language.blockComment.1.toList ∧ ' ' ∉ language.lineComment.toList := by
  cases language with
  | _ => decide

theorem gapAt_eq_none {c : Char} :
    gapAt language (c :: cs) = .none ↔ Text.isBlank c = false ∧
      ¬ language.blockComment.1.toList <+: c :: cs ∧
      ¬ language.lineComment.toList <+: c :: cs := by
  rw [← List.isPrefixOf_iff_prefix, ← List.isPrefixOf_iff_prefix]
  unfold gapAt
  dsimp only
  split
  · simp [*]
  · split
    · split <;> simp [*]
    · split <;> simp [*]

theorem gapAt_alone (hne : cs ≠ []) (h : gapAt language (cs ++ tail) = .none) (hrest : Stops rest) :
    gapAt language (cs ++ rest) = .none := by
  cases cs with
  | nil => exact absurd rfl hne
  | cons c cs =>
    obtain ⟨hblank, hblock, hline⟩ := gapAt_eq_none.mp h
    obtain ⟨hblockFree, hlineFree⟩ := comments_free language
    have hcut {mark : List Char} (hfree : ' ' ∉ mark) (hno : ¬ mark <+: c :: cs ++ tail) :
        ¬ mark <+: c :: cs ++ rest := fun hstart =>
      hno ((hrest.starts hfree hstart).trans (List.prefix_append _ _))
    exact gapAt_eq_none.mpr ⟨hblank, hcut hblockFree hblock, hcut hlineFree hline⟩

theorem blankLength_of_none (h : gapAt language cs = .none) : blankLength language cs = .ok 0 := by
  unfold blankLength
  cases cs with
  | nil => rfl
  | cons c cs =>
    dsimp only
    rw [h]

theorem blankLength_space (h : blankLength language cs = .ok 0) :
    blankLength language (' ' :: cs) = .ok 1 := by
  have hspace : gapAt language (' ' :: cs) = .blank 0 := rfl
  unfold blankLength
  rw [hspace]
  dsimp only
  rw [List.drop_zero, h]
  rfl

/-! ### Walking over a text -/

/-- The number of bytes of some characters. -/
def bytes (cs : List Char) : Nat := (String.ofList cs).utf8ByteSize

theorem bytes_append (cs ds : List Char) : bytes (cs ++ ds) = bytes cs + bytes ds := by
  unfold bytes
  rw [String.ofList_append, String.utf8ByteSize_append]

theorem bytes_toList (s : String) : bytes s.toList = s.utf8ByteSize := by
  rw [bytes, String.ofList_toList]

theorem bytes_cons (c : Char) (cs : List Char) : bytes (c :: cs) = c.utf8Size + bytes cs := by
  rw [← List.singleton_append, bytes_append, bytes, ← String.singleton_eq_ofList,
    String.utf8ByteSize_singleton]

theorem offset_skip (n : Nat) (c : Cursor) : (c.skip n).offset = c.offset + bytes (c.rest.take n) := by
  induction n generalizing c with
  | zero => rfl
  | succ n ih =>
    rw [Cursor.skip, ih, Cursor.rest_next]
    cases hrest : c.rest with
    | nil => simp [Cursor.next, hrest]
    | cons ch cs =>
      have hoffset : c.next.offset = c.offset + ch.utf8Size := by
        unfold Cursor.next
        rw [hrest]
        dsimp only
        split <;> rfl
      rw [hoffset, List.take_succ_cons, bytes_cons, List.drop_one, List.tail_cons]
      omega

/-- What reading one token tells about the text from one cursor to the other. -/
structure Reads (language : Language) (c : Cursor) (t : Token) (c' : Cursor) (gap : List Char) :
    Prop where
  split : c.rest = gap ++ (t.text.toList ++ c'.rest)
  skips : Skips language gap (t.text.toList ++ c'.rest)
  first : gapAt language (t.text.toList ++ c'.rest) = .none
  lexeme : lexeme language (t.text.toList ++ c'.rest) = .ok (some (t.kind, t.text.toList.length))
  span : t.span = ⟨c.offset + bytes gap, t.text.utf8ByteSize⟩
  limit : c'.offset = t.span.limit

variable {c : Cursor}

theorem readToken_eq_some {c' : Cursor} {t : Token} (h : readToken language c = .ok (some (t, c'))) :
    ∃ gap, Reads language c t c' gap := by
  unfold readToken at h
  split at h
  · cases h
  · rename_i n hblanks
    obtain ⟨hskips, hfirst⟩ := blankLength_skips hblanks
    dsimp only at h
    split at h
    · cases h
    · cases h
    · rename_i kind m hlexeme
      cases h
      rw [Cursor.rest_skip] at hlexeme
      have hle := (lexeme_alone hlexeme Stops.nil).1
      have htext : (String.ofList ((c.skip n).rest.take m)).toList ++ ((c.skip n).skip m).rest =
          c.rest.drop n := by
        rw [String.toList_ofList, Cursor.rest_skip m, List.take_append_drop, Cursor.rest_skip]
      have hlength : (String.ofList ((c.skip n).rest.take m)).toList.length = m := by
        rw [String.toList_ofList, Cursor.rest_skip, List.length_take, Nat.min_eq_left hle]
      refine ⟨c.rest.take n, ⟨?_, htext ▸ hskips, htext ▸ hfirst, ?_, ?_, ?_⟩⟩
      · rw [htext, List.take_append_drop]
      · rw [htext, hlength]
        exact hlexeme
      · dsimp only
        rw [offset_skip m, offset_skip n, Nat.add_sub_cancel_left]
        rfl
      · dsimp only [Span.limit]
        rw [offset_skip m]
        omega

theorem readToken_of_lexeme {n m : Nat} {kind : Token.Kind} (hblanks : blankLength language c.rest = .ok n)
    (hlexeme : lexeme language (c.rest.drop n) = .ok (some (kind, m))) :
    ∃ t, readToken language c = .ok (some (t, (c.skip n).skip m)) ∧ t.kind = kind ∧
      t.text = String.ofList ((c.rest.drop n).take m) := by
  unfold readToken
  rw [hblanks]
  dsimp only
  rw [Cursor.rest_skip, hlexeme]
  exact ⟨_, rfl, rfl, rfl⟩

theorem lexeme_eq_none (h : lexeme language cs = .ok none) : cs = [] := by
  cases cs with
  | nil => rfl
  | cons c cs =>
    unfold lexeme at h
    dsimp only at h
    by_cases hdigit : c.isDigit = true
    · rw [if_pos hdigit] at h
      cases hnumber : number language (c :: cs) with
      | error e =>
        rw [hnumber] at h
        cases h
      | ok l =>
        rw [hnumber] at h
        cases h
    · rw [if_neg hdigit] at h
      split at h
      · cases h
      · split at h
        · cases h
        · cases h

theorem readToken_eq_none (h : readToken language c = .ok none) : Skips language c.rest [] := by
  unfold readToken at h
  split at h
  · cases h
  · rename_i n hblanks
    obtain ⟨hskips, -⟩ := blankLength_skips hblanks
    dsimp only at h
    split at h
    · cases h
    · rename_i hend
      have hnil : c.rest.drop n = [] := Cursor.rest_skip n c ▸ lexeme_eq_none hend
      rw [hnil] at hskips
      rwa [List.take_of_length_le (List.drop_eq_nil_iff.mp hnil)] at hskips
    · cases h

/-! ### Covering a text -/

/-- Tokens that cover a text which starts at an offset: each stands behind a
gap and takes the bytes of its text, and the text ends in a gap. -/
inductive Covers (language : Language) : (offset : Nat) → List Token → List Char → Prop where
  | nil {offset : Nat} {gap : List Char} : Skips language gap [] → Covers language offset [] gap
  | cons {offset : Nat} {t : Token} {ts : List Token} {gap rest : List Char} :
      Skips language gap (t.text.toList ++ rest) →
      t.span = ⟨offset + bytes gap, t.text.utf8ByteSize⟩ → t.text ≠ "" →
      Covers language t.span.limit ts rest →
      Covers language offset (t :: ts) (gap ++ (t.text.toList ++ rest))

theorem Reads.text_ne {c' : Cursor} {t : Token} (h : Reads language c t c' gap) : t.text ≠ "" := by
  intro hempty
  have hpos := (lexeme_pos h.lexeme).2
  rw [hempty] at hpos
  cases hpos

theorem readTokens_covers {toks : List Token} (h : readTokens language c = (toks, none)) :
    Covers language c.offset toks c.rest := by
  fun_induction readTokens language c generalizing toks with
  | case1 => cases h
  | case2 c hnone =>
    cases h
    exact .nil (readToken_eq_none hnone)
  | case3 c t c' hsome ts fault hts ih =>
    cases h
    obtain ⟨gap, hreads⟩ := readToken_eq_some hsome
    rw [hreads.split]
    exact .cons hreads.skips hreads.span hreads.text_ne (hreads.limit ▸ ih hts)

namespace Covers

variable {offset : Nat} {toks : List Token}

theorem length_pos (h : Covers language offset toks cs) : ∀ t ∈ toks, 0 < t.span.length := by
  induction h with
  | nil => simp
  | cons _ hspan hne _ ih =>
    refine List.forall_mem_cons.mpr ⟨?_, ih⟩
    rw [hspan]
    exact Nat.pos_of_ne_zero (mt String.utf8ByteSize_eq_zero_iff.mp hne)

theorem offset_le (h : Covers language offset toks cs) : ∀ t ∈ toks, offset ≤ t.span.offset := by
  induction h with
  | nil => simp
  | cons _ hspan _ _ ih =>
    refine List.forall_mem_cons.mpr ⟨?_, fun t ht => ?_⟩
    · rw [hspan]
      exact Nat.le_add_right _ _
    · have hlater := ih t ht
      rw [hspan] at hlater
      simp only [Span.limit] at hlater
      omega

/-- One token ends before the next one starts. -/
theorem apart (h : Covers language offset toks cs) :
    toks.Pairwise fun a b => a.span.limit ≤ b.span.offset := by
  induction h with
  | nil => exact .nil
  | cons _ _ _ hts ih => exact .cons hts.offset_le ih

/-- The characters of a span are those of its token. -/
theorem located (h : Covers language offset toks cs) : ∀ t ∈ toks, ∃ before after,
    cs = before ++ (t.text.toList ++ after) ∧
      t.span = ⟨offset + bytes before, t.text.utf8ByteSize⟩ := by
  induction h with
  | nil => simp
  | @cons offset t ts gap rest _ hspan _ _ ih =>
    refine List.forall_mem_cons.mpr ⟨⟨gap, rest, rfl, hspan⟩, fun u hu => ?_⟩
    obtain ⟨before, after, rfl, hu⟩ := ih u hu
    refine ⟨gap ++ (t.text.toList ++ before), after, by simp only [List.append_assoc], ?_⟩
    rw [hu, hspan, bytes_append, bytes_append, bytes_toList, Span.limit]
    simp only [Nat.add_assoc]

end Covers

/-- The texts of tokens, each behind a space. -/
def spaced : List Token → List Char
  | [] => []
  | t :: ts => ' ' :: (t.text.toList ++ spaced ts)

theorem spaced_stops (toks : List Token) : Stops (spaced toks) := by
  cases toks with
  | nil => exact Stops.nil
  | cons t ts => exact Stops.space

theorem toList_intercalate_texts (toks : List Token) :
    (" ".intercalate (toks.map (·.text))).toList = (spaced toks).tail := by
  induction toks with
  | nil => rfl
  | cons t ts ih =>
    cases ts with
    | nil => simp [spaced]
    | cons u us =>
      have hsplit : " ".intercalate ((t :: u :: us).map (·.text)) =
          t.text ++ " " ++ " ".intercalate ((u :: us).map (·.text)) :=
        String.intercalate_cons_cons
      rw [hsplit, String.toList_append, String.toList_append, ih]
      simp [spaced]

/-- A token is read again where its text stands on its own. -/
theorem Reads.alone {c' d : Cursor} {t : Token} {ts : List Token} (h : Reads language c t c' gap)
    (hd : d.rest = spaced (t :: ts) ∨ d.rest = (spaced (t :: ts)).tail) :
    ∃ u d', readToken language d = .ok (some (u, d')) ∧ u.kind = t.kind ∧ u.text = t.text ∧
      d'.rest = spaced ts := by
  have hstops := spaced_stops ts
  have hlexeme := (lexeme_alone h.lexeme hstops).2
  rw [List.take_left] at hlexeme
  have hne : t.text.toList ≠ [] := mt String.toList_eq_nil_iff.mp h.text_ne
  have hnone := gapAt_alone hne h.first hstops
  obtain ⟨n, hblanks, hdrop⟩ : ∃ n, blankLength language d.rest = .ok n ∧
      d.rest.drop n = t.text.toList ++ spaced ts := by
    rcases hd with hd | hd
    · rw [hd]
      exact ⟨1, blankLength_space (blankLength_of_none hnone), rfl⟩
    · rw [hd]
      exact ⟨0, blankLength_of_none hnone, rfl⟩
  rw [← hdrop] at hlexeme
  obtain ⟨u, hread, hkind, htext⟩ := readToken_of_lexeme hblanks hlexeme
  refine ⟨u, _, hread, hkind, ?_, ?_⟩
  · rw [htext, hdrop, List.take_left, String.ofList_toList]
  · rw [Cursor.rest_skip, Cursor.rest_skip, hdrop, List.drop_left]

theorem readTokens_spaced {toks : List Token} (h : readTokens language c = (toks, none)) {d : Cursor}
    (hd : d.rest = spaced toks ∨ d.rest = (spaced toks).tail) :
    ∃ toks', readTokens language d = (toks', none) ∧
      toks'.map (fun t => (t.kind, t.text)) = toks.map fun t => (t.kind, t.text) := by
  fun_induction readTokens language c generalizing toks d with
  | case1 => cases h
  | case2 c hnone =>
    cases h
    have hrest : d.rest = [] := hd.elim id id
    have hread : readToken language d = .ok none := by
      have hblanks : blankLength language d.rest = .ok 0 := by
        rw [hrest]
        exact blankLength_of_none rfl
      have hend : (d.skip 0).rest = [] := hrest
      unfold readToken
      rw [hblanks]
      dsimp only
      rw [hend]
      rfl
    exact ⟨[], by rw [readTokens, hread], rfl⟩
  | case3 c t c' hsome ts fault hts ih =>
    cases h
    obtain ⟨gap, hreads⟩ := readToken_eq_some hsome
    obtain ⟨u, d', hread, hkind, htext, hrest⟩ := hreads.alone hd
    obtain ⟨us, hus, hmap⟩ := ih hts (.inl hrest)
    refine ⟨u :: us, ?_, ?_⟩
    · rw [readTokens, hread]
      dsimp only
      rw [hus]
    · rw [List.map_cons, List.map_cons, hmap, hkind, htext]

end RobotScript.Lexer

namespace RobotScript

/-- The text of a span of a source. -/
def Source.TextAt (source : Source) (span : Span) (text : String) : Prop :=
  ∃ before after, source.text = before ++ text ++ after ∧
    span = ⟨before.utf8ByteSize, text.utf8ByteSize⟩

open Lexer in
/-- Reading a source to its end leaves only white space and complete comments
between, before and behind the tokens, whose spans are not empty, stand in
order without overlap and hold their texts; and the texts alone, with one space
between two of them, are read as tokens of the same kinds and texts. -/
theorem tokens_cover_source {language : Language} {source : Source} {toks : List Token}
    (h : tokenize language source = (toks, none)) :
    (∀ t ∈ toks, 0 < t.span.length) ∧
    toks.Pairwise (fun a b => a.span.offset < b.span.offset ∧ a.span.limit ≤ b.span.offset) ∧
    (∀ t ∈ toks, source.TextAt t.span t.text) ∧
    Covers language 0 toks source.text.toList ∧
    ∃ toks', tokenize language { source with text := " ".intercalate (toks.map (·.text)) } =
        (toks', none) ∧
      toks'.map (fun t => (t.kind, t.text)) = toks.map fun t => (t.kind, t.text) := by
  have hread : readTokens language (.start source.text.toList) = (toks, none) := by
    obtain ⟨htoks, hfault⟩ := Prod.mk.inj h
    exact Prod.ext htoks (Option.map_eq_none_iff.mp hfault)
  have hcovers : Covers language 0 toks source.text.toList := readTokens_covers hread
  refine ⟨hcovers.length_pos, ?_, fun t ht => ?_, hcovers, ?_⟩
  · refine hcovers.apart.imp_of_mem fun {a b} ha _ hlimit => ⟨?_, hlimit⟩
    have := hcovers.length_pos a ha
    unfold Span.limit at hlimit
    omega
  · obtain ⟨before, after, hsplit, hspan⟩ := hcovers.located t ht
    refine ⟨String.ofList before, String.ofList after, ?_, by simpa [bytes] using hspan⟩
    rw [← String.toList_inj]
    simp [hsplit]
  · have hstart : (Cursor.start (" ".intercalate (toks.map (·.text))).toList).rest =
        (spaced toks).tail := toList_intercalate_texts toks
    obtain ⟨toks', hagain, hmap⟩ := readTokens_spaced hread (.inr hstart)
    refine ⟨toks', ?_, hmap⟩
    unfold tokenize
    dsimp only
    rw [hagain]
    rfl

/-- Four tokens without a space, around a comment with a character of two bytes. -/
theorem tokens_cover_source_comments : ∃ toks,
    Lexer.tokenize .l2 ⟨"x.y<<=/* é */0x1F;\n// end", none⟩ = (toks, none) ∧
    toks.map (fun t => (t.text, t.span)) =
      [("x.y", ⟨0, 3⟩), ("<<=", ⟨3, 3⟩), ("0x1F", ⟨14, 4⟩), (";", ⟨18, 1⟩)] ∧
    ∃ toks', Lexer.tokenize .l2 ⟨"x.y <<= 0x1F ;", none⟩ = (toks', none) ∧
      toks'.map (fun t => (t.kind, t.text)) = toks.map fun t => (t.kind, t.text) := by
  have hread : (Lexer.tokenize .l2 ⟨"x.y<<=/* é */0x1F;\n// end", none⟩).2.isNone ∧
      (Lexer.tokenize .l2 ⟨"x.y<<=/* é */0x1F;\n// end", none⟩).1.map
        (fun t => (t.text, t.span)) =
      [("x.y", ⟨0, 3⟩), ("<<=", ⟨3, 3⟩), ("0x1F", ⟨14, 4⟩), (";", ⟨18, 1⟩)] := by
    decide +kernel
  have hall := tokens_cover_source (Prod.ext rfl (Option.isNone_iff_eq_none.mp hread.1))
  refine ⟨_, Prod.ext rfl (Option.isNone_iff_eq_none.mp hread.1), hread.2, ?_⟩
  have htexts := congrArg (List.map Prod.fst) hread.2
  rw [List.map_map] at htexts
  have hjoined := congrArg " ".intercalate htexts
  obtain ⟨toks', hagain, hmap⟩ := hall.2.2.2.2
  refine ⟨toks', ?_, hmap⟩
  rw [← hagain]
  congr 2
  exact hjoined.symm

end RobotScript
