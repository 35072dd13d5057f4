/-
# Reading tokens

Between tokens stand white space and comments, which `blankLength` measures.
`lexeme` recognises the token at the start of a text and how many characters
it takes: a number, else the first keyword of the language's list that fits,
else a name. A keyword does not fit where it would cut a name in two. A
`Cursor` walks the text and keeps the offset, the line and the column.

Reading goes on to the end of the text or to the first fault; the tokens
before a fault are kept.

Key definitions: `blankLength`, `lexeme`, `Cursor`, `tokenize`.
-/
import RobotScript.Fault
import RobotScript.Language.Basic
import RobotScript.Text.Blank

namespace RobotScript.Lexer

/-- The characters of names behind the first. -/
def isNameChar (c : Char) : Bool := c.isAlphanum || c == '_' || c == '.'

/-- The first characters of names. -/
def isNameStart (c : Char) : Bool := c.isAlpha || c == '_'

def isHexDigit (c : Char) : Bool :=
  c.isDigit || ('a' ≤ c && c ≤ 'f') || ('A' ≤ c && c ≤ 'F')

/-- The number a digit of any base up to 16 stands for. -/
def digitValue (c : Char) : Nat :=
  if c.isDigit then c.toNat - 48 else if 'a' ≤ c then c.toNat - 87 else c.toNat - 55

/-- The value of digits in 32-bit arithmetic, cut to a cell. -/
def wrapDigits (radix : Nat) (digits : List Char) : Cell :=
  toCell (digits.foldl
    (fun acc d => acc * Int32.ofNat radix + Int32.ofNat (digitValue d)) 0)

/-- The value of decimal digits. -/
def decimalValue (digits : List Char) : Nat :=
  digits.foldl (fun acc d => acc * 10 + digitValue d) 0

/-- The characters up to and with the first occurrence of `mark`. -/
def lengthPast (mark : List Char) : List Char → Option Nat
  | [] => none
  | c :: cs => if mark.isPrefixOf (c :: cs) then some mark.length else (lengthPast mark cs).map (· + 1)

/-- What a text starts with, as far as white space and comments go. -/
inductive Gap where
  /-- Neither. -/
  | none
  /-- White space or a comment of one character and `more` others. -/
  | blank (more : Nat)
  /-- A comment that does not end. -/
  | unterminated
  deriving DecidableEq, Repr

/-- One white space character or one comment at the start of a text. A
comment up to the end of the line leaves the line break. -/
def gapAt (language : Language) (cs : List Char) : Gap :=
  match cs with
  | [] => .none
  | c :: rest =>
    let (opening, closing) := language.blockComment
    if Text.isBlank c then .blank 0
    else if opening.toList.isPrefixOf cs then
      match lengthPast closing.toList (rest.drop (opening.length - 1)) with
      | none => .unterminated
      | some n => .blank (opening.length - 1 + n)
    else if language.lineComment.toList.isPrefixOf cs then
      .blank (rest.takeWhile (· != '\n')).length
    else .none

/-- A length or a place, moved by `n`. -/
def shiftBy (n : Nat) : Except Nat Nat → Except Nat Nat
  | .ok m => .ok (n + m)
  | .error m => .error (n + m)

/-- The length of the white space and comments a text starts with. The error
is where a comment starts that does not end. -/
def blankLength (language : Language) (cs : List Char) : Except Nat Nat :=
  match cs with
  | [] => .ok 0
  | c :: rest =>
    match gapAt language (c :: rest) with
    | .none => .ok 0
    | .unterminated => .error 0
    | .blank more => shiftBy (more + 1) (blankLength language (rest.drop more))
termination_by cs.length
decreasing_by
  simp only [List.length_drop, List.length_cons]
  omega

/-- A fault within a text: what, how many characters on, and in what context. -/
structure LexemeFault where
  fault : LexFault
  place : Nat
  contexts : List String
  deriving DecidableEq, Repr

/-- The kind of the token at the start of a text and its number of characters. -/
abbrev Lexeme := Token.Kind × Nat

/-- The digits behind a two-character mark of a base. -/
def basedNumber (radix : Nat) (isDigit : Char → Bool) (fault : LexFault) (cs : List Char) :
    Except LexemeFault Lexeme :=
  let digits := (cs.drop 2).takeWhile isDigit
  if digits.isEmpty then .error ⟨fault, 0, ["reading number"]⟩
  else .ok (.number (wrapDigits radix digits), digits.length + 2)

/-- The digits of a fraction at the start of a text, none if there is no point
or the language has no fractions. -/
def fractionDigits (language : Language) : List Char → List Char
  | '.' :: more => if language.hasFixed then more.takeWhile Char.isDigit else []
  | _ => []

/-- A decimal number, with a fraction where the language has them. -/
def decimalNumber (language : Language) (cs : List Char) : Lexeme :=
  let digits := cs.takeWhile Char.isDigit
  let fraction := fractionDigits language (cs.drop digits.length)
  if fraction.isEmpty then (.number (wrapDigits 10 digits), digits.length)
  else
    (.float (Decimal.ofDecimal (decimalValue (digits ++ fraction)) fraction.length),
     digits.length + 1 + fraction.length)

/-- The number at the start of a text that starts with a digit, before what
follows it is looked at. -/
def numberStart (language : Language) (cs : List Char) : Except LexemeFault Lexeme :=
  match cs with
  | '0' :: 'x' :: _ | '0' :: 'X' :: _ => basedNumber 16 isHexDigit .hexNumber cs
  | '0' :: 'b' :: _ | '0' :: 'B' :: _ =>
    basedNumber 2 (fun c => c == '0' || c == '1') .binaryNumber cs
  | _ => .ok (decimalNumber language cs)

/-- The number at the start of a text that starts with a digit. No letter,
digit or underscore may follow it. -/
def number (language : Language) (cs : List Char) : Except LexemeFault Lexeme := do
  let (kind, n) ← numberStart language cs
  match cs.drop n with
  | [] => .ok (kind, n)
  | c :: _ =>
    if c.isAlphanum || c == '_' then
      .error ⟨.expected "delimiter or space after number" c, n, ["reading number"]⟩
    else .ok (kind, n)

/-- Whether a keyword stands at the start of a text: its characters do, and it
does not end within a name. -/
def fits (cs : List Char) (keyword : String) : Bool :=
  let kw := keyword.toList
  kw.isPrefixOf cs &&
    !(isNameChar (kw.getLastD ' ') && isNameChar ((cs.drop kw.length).headD ' '))

/-- The first keyword of the language that stands at the start of a text. -/
def keyword? (language : Language) (cs : List Char) : Option String :=
  language.keywords.find? (fits cs)

/-- The token at the start of a text; `none` at its end. -/
def lexeme (language : Language) (cs : List Char) : Except LexemeFault (Option Lexeme) :=
  match cs with
  | [] => .ok none
  | c :: rest =>
    if c.isDigit then (number language cs).map some
    else
      match keyword? language cs with
      | some text => .ok (some (.keyword text, text.length))
      | none =>
        if isNameStart c then .ok (some (.name, 1 + (rest.takeWhile isNameChar).length))
        else .error ⟨.unexpectedChar c, 0, []⟩

/-! ### A token has at least one character -/

theorem takeWhile_isDigit_pos {c : Char} (cs : List Char) (h : c.isDigit = true) :
    0 < ((c :: cs).takeWhile Char.isDigit).length := by
  simp [h]

theorem decimalNumber_pos (language : Language) {c : Char} {cs : List Char}
    (h : c.isDigit = true) : 0 < (decimalNumber language (c :: cs)).2 := by
  have := takeWhile_isDigit_pos cs h
  unfold decimalNumber
  dsimp only
  split
  · exact this
  · dsimp only
    omega

theorem numberStart_pos {language : Language} {c : Char} {cs : List Char} {l : Lexeme}
    (hc : c.isDigit = true) (h : numberStart language (c :: cs) = .ok l) : 0 < l.2 := by
  unfold numberStart at h
  split at h
  all_goals first
    | (unfold basedNumber at h
       dsimp only at h
       split at h
       · cases h
       · cases h
         exact Nat.succ_pos _)
    | (cases h
       exact decimalNumber_pos language hc)

theorem number_pos {language : Language} {c : Char} {cs : List Char} {l : Lexeme}
    (hc : c.isDigit = true) (h : number language (c :: cs) = .ok l) : 0 < l.2 := by
  unfold number at h
  cases hs : numberStart language (c :: cs) with
  | error e => simp [hs, bind, Except.bind] at h
  | ok m =>
    have := numberStart_pos hc hs
    simp only [hs, bind, Except.bind] at h
    split at h
    · cases h; exact this
    · split at h
      · cases h
      · cases h; exact this

theorem keywords_ne_empty (language : Language) : ∀ kw ∈ language.keywords, 0 < kw.length := by
  cases language <;> decide

theorem lexeme_pos {language : Language} {cs : List Char} {l : Lexeme}
    (h : lexeme language cs = .ok (some l)) : 0 < cs.length ∧ 0 < l.2 := by
  cases cs with
  | nil => simp [lexeme] at h
  | cons c rest =>
    refine ⟨by simp, ?_⟩
    unfold lexeme at h
    dsimp only at h
    split at h
    · rename_i hc
      cases hn : number language (c :: rest) with
      | error e => simp [hn, Except.map] at h
      | ok m =>
        simp only [hn, Except.map, Except.ok.injEq, Option.some.injEq] at h
        exact h ▸ number_pos hc hn
    · split at h
      · rename_i text hk
        cases h
        exact keywords_ne_empty language text (List.mem_of_find?_eq_some hk)
      · split at h
        · cases h
          dsimp only
          omega
        · cases h

/-! ### Walking the text -/

/-- A place in a text: what is left of it, and where that starts. -/
structure Cursor where
  rest : List Char
  offset : Nat
  /-- The line, from one. -/
  line : Nat
  /-- The column, from one. -/
  col : Nat
  deriving Repr

namespace Cursor

/-- The start of a text. -/
def start (cs : List Char) : Cursor := ⟨cs, 0, 1, 1⟩

/-- Behind the next character. -/
def next (c : Cursor) : Cursor :=
  match c.rest with
  | [] => c
  | ch :: rest =>
    if ch = '\n' then ⟨rest, c.offset + ch.utf8Size, c.line + 1, 1⟩
    else ⟨rest, c.offset + ch.utf8Size, c.line, c.col + 1⟩

/-- Behind the next `n` characters. -/
def skip : Nat → Cursor → Cursor
  | 0, c => c
  | n + 1, c => skip n c.next

theorem rest_next (c : Cursor) : c.next.rest = c.rest.drop 1 := by
  unfold next
  split
  · simp [*]
  · split <;> simp [*]

theorem rest_skip (n : Nat) (c : Cursor) : (c.skip n).rest = c.rest.drop n := by
  induction n generalizing c with
  | zero => rfl
  | succ n ih =>
    rw [skip, ih, rest_next, List.drop_drop, Nat.add_comm]

end Cursor

/-- The token behind the blanks at a cursor, and the cursor behind it; `none`
at the end of the text. -/
def readToken (language : Language) (c : Cursor) :
    Except (Diagnostic LexFault) (Option (Token × Cursor)) :=
  match blankLength language c.rest with
  | .error n =>
    .error ((Diagnostic.ofCause .unterminatedComment).placedAt (.single (c.skip n).offset))
  | .ok blanks =>
    let start := c.skip blanks
    match lexeme language start.rest with
    | .error e =>
      let error := (Diagnostic.ofCause e.fault).placedAt (.single (start.skip e.place).offset)
      .error (e.contexts.foldl .addContext error)
    | .ok none => .ok none
    | .ok (some (kind, n)) =>
      let stop := start.skip n
      .ok (some
        ({ kind := kind
           span := ⟨start.offset, stop.offset - start.offset⟩
           text := String.ofList (start.rest.take n)
           line := start.line
           col := start.col },
         stop))

theorem readToken_shorter {language : Language} {c c' : Cursor} {t : Token}
    (h : readToken language c = .ok (some (t, c'))) : c'.rest.length < c.rest.length := by
  unfold readToken at h
  split at h
  · cases h
  · dsimp only at h
    split at h
    · cases h
    · cases h
    · rename_i hl
      cases h
      have := lexeme_pos hl
      simp only [Cursor.rest_skip, List.length_drop] at this ⊢
      omega

/-- The tokens from a cursor on, up to the end of the text or to a fault. -/
def readTokens (language : Language) (c : Cursor) :
    List Token × Option (Diagnostic LexFault) :=
  match _h : readToken language c with
  | .error e => ([], some e)
  | .ok none => ([], none)
  | .ok (some (t, c')) =>
    let (tokens, fault) := readTokens language c'
    (t :: tokens, fault)
termination_by c.rest.length
decreasing_by exact readToken_shorter _h

/-- The tokens of a source, and the fault that ended reading, if any. -/
def tokenize (language : Language) (source : Source) :
    List Token × Option (Diagnostic LexFault) :=
  let (tokens, fault) := readTokens language (.start source.text.toList)
  (tokens, fault.map (·.resolve source))

end RobotScript.Lexer
