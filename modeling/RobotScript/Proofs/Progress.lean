/-
# Every line takes a token

Reading a line at an index before the end gives at least one line and leaves
the tokens from a later index on, also where the condition behind a closing
brace turned out to belong to a loop that starts there and was given back. So
the loop over the lines of a script ends, and so do those over the variables
of a declaration and the parameters of a function and the recursion of
expressions, on whatever tokens: their calls nest at most some four times as
deep as there are tokens left.

Key theorems: `lines_advance`.
-/
import RobotScript.Proofs.LineShapes
import RobotScript.Proofs.Walks

namespace RobotScript

namespace Walk

variable {α : Type}

section

variable (r : Reading) (all : List Token)

/-- Read the tokens from the index on, and go behind what was read. -/
def lift {bound : List Token → Nat}
    (x : (toks : List Token) → Except SyntaxError (Parsed α (bound toks))) : Walk α := fun i =>
  (some ((x (all.drop i)).map fun p => (p.value, all.length - p.rest.length)) : Option (Ending α))

def lines : Nat → Walk (List Line)
  | 0 => endless
  | depth + 1 => do
    if (← get) < all.length then
      let first ← lift all (Line.next r)
      return first ++ (← lines depth)
    else return []

def declarators (ty : Ty) : Nat → Walk (List VarDecl)
  | 0 => endless
  | depth + 1 => do
    let decl ← lift all (L2.declarator r ty)
    if ← accept all "," then return decl :: (← declarators ty depth)
    else
      let _ ← lift all (L2.semicolon r)
      return [decl]

def params : Nat → Walk (List ParamDecl)
  | 0 => endless
  | depth + 1 => do
    let first ← lift all (L2.param r)
    if ← accept all ")" then return [first]
    else if ← accept all "," then return first :: (← params depth)
    else refuseAt .functionDefinition (r.nextSpan (all.drop (← get)))

end

variable {r : Reading} {all toks : List Token} {i : Nat}

/-- Places do not matter here. -/
abbrev Somewhere : Span → Prop := fun _ => True

/-- Whatever is left of tokens is an end of them. -/
theorem run_suffix (toks : List Token) : Token.Run Somewhere (· <:+ toks) toks :=
  ⟨fun _ _ => trivial, fun _ hts => hts⟩

theorem Tracks.lift {bound : List Token → Nat} {good : α → Prop}
    {x : (toks : List Token) → Except SyntaxError (Parsed α (bound toks))} (h : At all i toks)
    (hx : Gets Somewhere (· <:+ toks) good (x toks)) : Tracks all (lift all x) i (x toks) := by
  have hlift : Walk.lift all x i =
      (some ((x toks).map fun p => (p.value, all.length - p.rest.length)) : Option (Ending α)) := by
    unfold Walk.lift
    rw [h.left]
  cases hread : x toks with
  | error e => rwa [hread] at hlift
  | ok p =>
    rw [hread] at hlift
    have hrest : p.rest <:+ toks := (hx.of_ok hread).rest.ends _ (List.suffix_refl _)
    have hall : p.rest <:+ all := hrest.trans (h.left ▸ List.drop_suffix i all)
    refine ⟨_, ?_, ⟨Nat.sub_le _ _, (List.suffix_iff_eq_drop.mp hall).symm⟩, hlift⟩
    have hshorter := hrest.length_le
    have := h.length
    have := h.le
    omega

theorem Tracks.get {n : Nat} {f : Nat → Walk α} {x : Except SyntaxError (Parsed α n)}
    (h : Tracks all (f i) i x) : Tracks all (get >>= f) i x := by
  cases x with
  | error e => exact h
  | ok p => exact h

/-- The lines of the tokens, of which nothing is left. -/
abbrev allLines (r : Reading) (toks : List Token) : Except SyntaxError (Parsed (List Line) 1) :=
  (Taken.nothing · []) <$> Line.ofTokens r toks

theorem allLines_cons {t : Token} {ts : List Token} :
    allLines r (t :: ts) = do
      let first ← Line.next r (t :: ts)
      let others ← allLines r first.rest
      return others.map (first.value ++ ·) := by
  rw [allLines, Line.ofTokens]
  simp only [map_bind, map_pure, bind_map_left]
  rfl

theorem tracks_lines {toks : List Token} {i depth : Nat} (h : At all i toks)
    (hd : toks.length < depth) : Tracks all (lines r all depth) i (allLines r toks) := by
  obtain ⟨more, rfl⟩ := Nat.exists_eq_add_of_lt hd
  rw [lines]
  refine .get ?_
  have hlength := h.length
  cases toks with
  | nil =>
    rw [List.length_nil] at hlength
    rw [allLines, Line.ofTokens, if_neg (by omega)]
    exact .ok rfl h
  | cons t ts =>
    rw [List.length_cons] at hlength
    rw [allLines_cons, if_pos (by omega)]
    refine (Tracks.lift h (Line.next_gets trivial (run_suffix _))).bind fun first j _ hj => ?_
    have := first.within
    exact (tracks_lines hj (by omega)).bind fun others k _ hk => .ok rfl hk
termination_by depth
decreasing_by all_goals omega

theorem tracks_declarators {toks : List Token} {i depth : Nat} {ty : Ty} (hty : ty.IsValue)
    (h : At all i toks) (hd : toks.length < depth) :
    Tracks all (declarators r all ty depth) i (L2.declarators r ty toks) := by
  obtain ⟨more, rfl⟩ := Nat.exists_eq_add_of_lt hd
  rw [declarators, L2.declarators]
  refine (Tracks.lift h (L2.declarator_gets trivial hty (run_suffix _))).bind fun decl j _ hj => ?_
  have := decl.within
  refine (Tracks.accept "," hj).bind fun comma k _ hk => ?_
  have := comma.within
  split
  · exact (tracks_declarators hty hk (by omega)).bind fun others l _ hl => .ok rfl hl
  · exact (Tracks.lift hk (L2.semicolon_reads trivial _ (run_suffix _))).bind fun stop l _ hl => .ok rfl hl
termination_by depth
decreasing_by all_goals omega

theorem tracks_params {toks : List Token} {i depth : Nat} (h : At all i toks)
    (hd : toks.length < depth) : Tracks all (params r all depth) i (L2.params r toks) := by
  obtain ⟨more, rfl⟩ := Nat.exists_eq_add_of_lt hd
  rw [params, L2.params]
  refine (Tracks.lift h (L2.param_gets trivial (run_suffix _))).bind fun first j _ hj => ?_
  have := first.within
  refine (Tracks.accept ")" hj).bind fun close k _ hk => ?_
  have := close.within
  split
  · exact .ok rfl hk
  · refine (Tracks.accept "," hk).bind fun comma l _ hl => ?_
    have := comma.within
    split
    · exact (tracks_params hl (by omega)).bind fun others m _ hm => .ok rfl hm
    · dsimp only
      rw [← hl.left]
      exact .get .refuse
termination_by depth
decreasing_by all_goals omega

/-- From an index on, every walk whose calls may nest so deep ends as reading the tokens from
there on does. -/
structure AllEnd (r : Reading) (all : List Token) (i depth : Nat) : Prop where
  lines : Tracks all (lines r all depth) i (allLines r (all.drop i))
  expression : ∀ priority,
    Tracks all (expression r all depth priority) i (RobotScript.expression r priority (all.drop i))
  tableRows : ∀ width,
    Tracks all (tableRows r all depth width) i (RobotScript.tableRows r width (all.drop i))
  arguments : ∀ close,
    Tracks all (arguments r all depth close) i (RobotScript.arguments r close (all.drop i))
  declarators : ∀ ty : Ty, ty.IsValue →
    Tracks all (declarators r all ty depth) i (L2.declarators r ty (all.drop i))
  params : Tracks all (params r all depth) i (L2.params r (all.drop i))

theorem allEnd {depth : Nat} (hi : i ≤ all.length) (hd : 4 * (all.length - i) + 4 < depth) :
    AllEnd r all i depth := by
  have h : At all i (all.drop i) := ⟨hi, rfl⟩
  rw [← h.length] at hd
  exact {
    lines := tracks_lines h (by omega)
    expression := fun priority => tracks_expression priority h (by omega)
    tableRows := fun width => tracks_tableRows width h hd
    arguments := fun close => tracks_arguments close h hd
    declarators := fun _ hty => tracks_declarators hty h (by omega)
    params := tracks_params h (by omega) }

/-- Reading at an index gives a line, and leaves the tokens from a later index on. -/
theorem next_advances {p : Parsed (List Line) toks.length} (h : At all i toks)
    (hp : Line.next r toks = .ok p) : p.value ≠ [] ∧ ∃ j, i < j ∧ At all j p.rest := by
  have hgets := Line.next_gets (r := r) trivial (run_suffix toks)
  have htracks := Tracks.lift h hgets
  rw [hp] at htracks
  obtain ⟨j, -, hj, -⟩ := htracks
  refine ⟨(hgets.of_ok hp).value.ne_nil, j, ?_, hj⟩
  have hfewer := p.within
  rw [hj.length, h.length] at hfewer
  omega

end Walk

namespace L2
variable {r : Reading} {brace loop : Token} {ts rest : List Token} {cond : Expr}

/-- A condition that no semicolon ends is given back. -/
theorem loopEnd_gives_back (hloop : loop.kind = .keyword "while") (hcond : Gives (condition r ts) cond rest)
    (hrest : startsWith ";" rest = false) : loopEnd r (loop :: ts) = .ok (.nothing none (loop :: ts)) := by
  obtain ⟨_, hcond⟩ := hcond
  unfold loopEnd
  dsimp only
  rw [if_pos (isKeyword_of_kind hloop "while" ▸ rfl)]
  simp only [bind, Reader.andThen, hcond, accept_of_not_startsWith hrest]
  rfl

theorem line_gives_back (hbrace : brace.kind = .keyword "\x7d") (hloop : loop.kind = .keyword "while")
    (hcond : Gives (condition r ts) cond rest) (hrest : startsWith ";" rest = false) :
    Gives (line r (brace :: loop :: ts)) [.closing brace.span] (loop :: ts) := by
  have hother : startsWith "else" (loop :: ts) = false := isKeyword_of_kind hloop "else"
  unfold line
  simp only [hbrace, lineAfter?, closing, bind, Reader.andThen, accept_of_not_startsWith hother,
    Taken.nothing, Bool.false_eq_true, if_false, loopEnd_gives_back hloop hcond hrest]
  exact ⟨_, rfl⟩
end L2

/-- A line read at an index before the end is at least one, and the tokens from a later index on
are left. Behind a closing brace, the condition of a loop that starts there is given back. So the
lines, and all that they are made of, are read to an end from every index, with calls that nest no
deeper than what is left to read allows. -/
theorem lines_advance (r : Reading) (toks : List Token) :
    (∀ i < toks.length, ∀ p, Line.next r (toks.drop i) = .ok p →
      p.value ≠ [] ∧ ∃ j, i < j ∧ Walk.At toks j p.rest) ∧
    (∀ i brace loop ts cond rest, r.language = .l2 → toks.drop i = brace :: loop :: ts →
      brace.kind = .keyword "\x7d" → loop.kind = .keyword "while" →
      Gives (L2.condition r ts) cond rest → startsWith ";" rest = false →
      Gives (Line.next r (toks.drop i)) [.closing brace.span] (toks.drop (i + 1))) ∧
    ∀ i ≤ toks.length, ∀ depth > 4 * (toks.length - i) + 4, Walk.AllEnd r toks i depth := by
  refine ⟨fun i hi p => Walk.next_advances ⟨Nat.le_of_lt hi, rfl⟩, ?_, fun i hi _ => Walk.allEnd hi⟩
  intro i brace loop ts cond rest hl2 hdrop hbrace hloop hcond hrest
  rw [← List.tail_drop, hdrop, Line.next, hl2]
  exact L2.line_gives_back hbrace hloop hcond hrest

theorem lines_advance_given_back :
    let mark (text : String) : Token := ⟨.keyword text, ⟨0, 1⟩, text, 1, 1⟩
    let x : Token := ⟨.name, ⟨0, 1⟩, "x", 1, 1⟩
    let toks := [mark "\x7d", mark "while", mark "(", x, mark ")", mark "\x7b"]
    let r : Reading := ⟨⟨.l2, 1, []⟩, 0⟩
    ∃ p, Line.next r toks = .ok p ∧ p.value = [.closing ⟨0, 1⟩] ∧ p.rest = toks.drop 1 ∧
      p.value ≠ [] ∧ (∃ j, 0 < j ∧ Walk.At toks j p.rest) ∧ Walk.AllEnd r toks 1 25 := by
  intro mark x toks r
  have hcond : Gives (L2.condition r [mark "(", x, mark ")", mark "\x7b"])
      (.var (.bare ⟨0, 1⟩) ⟨"x", none⟩) [mark "\x7b"] := ⟨by decide, by with_unfolding_all rfl⟩
  obtain ⟨hadvance, hback, hend⟩ := lines_advance r toks
  obtain ⟨h, hnext⟩ := hback 0 _ _ _ _ _ rfl rfl rfl rfl hcond rfl
  obtain ⟨hsome, hlater⟩ := hadvance 0 (by decide) _ hnext
  exact ⟨_, hnext, rfl, rfl, hsome, hlater, hend 1 (by decide) 25 (by decide)⟩

end RobotScript
