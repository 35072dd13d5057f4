/-
# Reading JSON

A text is one value with blanks around it. Strings are read as characters and
16-bit units, the units of escapes, and pairs of those are joined afterwards.

Key definitions: `Json.value`, `Json.read?`.
-/
import RobotScript.Json.Basic
import RobotScript.Text.Taken

namespace RobotScript.Json

def isBlank (c : Char) : Bool := c == ' ' || c == '\n' || c == '\t' || c == '\r'

def skipBlanks (cs : List Char) : List Char := cs.dropWhile isBlank

theorem length_skipBlanks_le (cs : List Char) : (skipBlanks cs).length ≤ cs.length :=
  (List.dropWhile_sublist _).length_le

/-- A part of a string. -/
inductive Piece where
  | char (c : Char)
  /-- A 16-bit unit written as an escape. -/
  | unit (n : Nat)
  deriving DecidableEq, Repr

def isHighSurrogate (n : Nat) : Bool := 0xd800 ≤ n && n < 0xdc00

def isLowSurrogate (n : Nat) : Bool := 0xdc00 ≤ n && n < 0xe000

/-- The characters of a string; none if half of a surrogate pair is missing. -/
def joinPieces : List Piece → Option (List Char)
  | [] => some []
  | .char c :: ps => (joinPieces ps).map (c :: ·)
  | .unit h :: .unit l :: ps =>
    if isHighSurrogate h && isLowSurrogate l then
      (joinPieces ps).map (Char.ofNat (0x10000 + (h - 0xd800) * 0x400 + (l - 0xdc00)) :: ·)
    else if isHighSurrogate h || isLowSurrogate h then none
    else (joinPieces (.unit l :: ps)).map (Char.ofNat h :: ·)
  | .unit n :: ps =>
    if isHighSurrogate n || isLowSurrogate n then none
    else (joinPieces ps).map (Char.ofNat n :: ·)

def hexDigit? (c : Char) : Option Nat :=
  if c.isDigit then some (c.toNat - 48)
  else if 'a' ≤ c ∧ c ≤ 'f' then some (c.toNat - 87)
  else if 'A' ≤ c ∧ c ≤ 'F' then some (c.toNat - 55)
  else none

/-- What a character means behind a backslash. -/
def shortEscape? : Char → Option Char
  | '\x22' => some '\x22'
  | '\\' => some '\\'
  | '/' => some '/'
  | 'b' => some '\x08'
  | 'f' => some '\x0c'
  | 'n' => some '\n'
  | 'r' => some '\r'
  | 't' => some '\t'
  | _ => none

/-- Read a string behind its opening quote. -/
def pieces : (cs : List Char) → Option (Taken Char (List Piece) cs.length)
  | [] => none
  | '\x22' :: cs => some ⟨[], cs, Nat.lt_succ_self _⟩
  | '\\' :: 'u' :: a :: b :: c :: d :: cs => do
    let n := 4096 * (← hexDigit? a) + 256 * (← hexDigit? b) + 16 * (← hexDigit? c) + (← hexDigit? d)
    let ps ← pieces cs
    return (ps.map (.unit n :: ·)).widen (by simp only [List.length_cons]; omega)
  | '\\' :: e :: cs => do
    let c ← shortEscape? e
    let ps ← pieces cs
    return (ps.map (.char c :: ·)).widen (by simp only [List.length_cons]; omega)
  | c :: cs => do
    if c = '\\' ∨ c.toNat < 0x20 then none
    let ps ← pieces cs
    return (ps.map (.char c :: ·)).widen (by simp only [List.length_cons]; omega)

/-- Read a string behind its opening quote. -/
def stringText (cs : List Char) : Option (Taken Char (Option String) cs.length) :=
  (pieces cs).map fun ps => ps.map fun ps => (joinPieces ps).map String.ofList

/-- The number of digits at the start. -/
def digitCount (cs : List Char) : Nat := (cs.takeWhile Char.isDigit).length

/-- The length of the fraction at the start, which may be missing. -/
def fractionLength? : List Char → Option Nat
  | '.' :: cs => if digitCount cs = 0 then none else some (digitCount cs + 1)
  | _ => some 0

/-- The length of the exponent at the start, which may be missing. -/
def exponentLength? : List Char → Option Nat
  | e :: cs =>
    if e = 'e' ∨ e = 'E' then
      let sign := if cs.head? = some '+' ∨ cs.head? = some '-' then 1 else 0
      let digits := digitCount (cs.drop sign)
      if digits = 0 then none else some (1 + sign + digits)
    else some 0
  | [] => some 0

/-- The length of the number at the start. -/
def numberLength? (cs : List Char) : Option Nat := do
  let sign := if cs.head? = some '-' then 1 else 0
  let whole := digitCount (cs.drop sign)
  if whole = 0 ∨ (1 < whole ∧ (cs.drop sign).head? = some '0') then none
  let fraction ← fractionLength? (cs.drop (sign + whole))
  let exponent ← exponentLength? (cs.drop (sign + whole + fraction))
  return sign + whole + fraction + exponent

/-- Read a number. -/
def numberText (cs : List Char) : Option (Taken Char String cs.length) := do
  let n ← numberLength? cs
  if h : (cs.drop n).length < cs.length then some ⟨String.ofList (cs.take n), cs.drop n, h⟩ else none

/-- Read a character, blanks before it skipped. -/
def mark (c : Char) (cs : List Char) : Option (Taken Char Unit cs.length) :=
  match h : skipBlanks cs with
  | [] => none
  | d :: rest =>
    have : rest.length < cs.length := by
      have := length_skipBlanks_le cs
      rw [h, List.length_cons] at this
      omega
    if d = c then some ⟨(), rest, this⟩ else none

mutual

/-- Read a value that starts here. -/
def value (cs : List Char) : Option (Taken Char Json cs.length) :=
  match cs with
  | 'n' :: 'u' :: 'l' :: 'l' :: rest => some ⟨null, rest, by simp only [List.length_cons]; omega⟩
  | 't' :: 'r' :: 'u' :: 'e' :: rest => some ⟨bool true, rest, by simp only [List.length_cons]; omega⟩
  | 'f' :: 'a' :: 'l' :: 's' :: 'e' :: rest => some ⟨bool false, rest, by simp only [List.length_cons]; omega⟩
  | '\x22' :: rest => do
    let s ← stringText rest
    return (s.map string).widen (by simp only [List.length_cons]; omega)
  | '[' :: rest =>
    match mark ']' rest with
    | some close => some ((close.map fun _ => array []).widen (by simp only [List.length_cons]; omega))
    | none => do
      have := length_skipBlanks_le rest
      let all ← items (skipBlanks rest)
      return (all.map array).widen (by simp only [List.length_cons]; omega)
  | '\x7b' :: rest =>
    match mark '\x7d' rest with
    | some close => some ((close.map fun _ => object []).widen (by simp only [List.length_cons]; omega))
    | none => do
      have := length_skipBlanks_le rest
      let all ← fields (skipBlanks rest)
      return (all.map object).widen (by simp only [List.length_cons]; omega)
  | cs => (numberText cs).map (·.map number)
termination_by 2 * cs.length

/-- Read the items of an array up to its end; the first starts here. -/
def items (cs : List Char) : Option (Taken Char (List Json) cs.length) := do
  let first ← value cs
  have := first.within
  match mark ',' first.rest with
  | some comma =>
    have := comma.within
    have := length_skipBlanks_le comma.rest
    let others ← items (skipBlanks comma.rest)
    return (others.map (first.value :: ·)).widen (by omega)
  | none =>
    let close ← mark ']' first.rest
    return (close.map fun _ => [first.value]).widen (by omega)
termination_by 2 * cs.length + 1

/-- Read the fields of an object up to its end; the first starts here. -/
def fields (cs : List Char) : Option (Taken Char (List (Option String × Json)) cs.length) := do
  let quote ← mark '\x22' cs
  have := quote.within
  let name ← stringText quote.rest
  have := name.within
  let colon ← mark ':' name.rest
  have := colon.within
  have := length_skipBlanks_le colon.rest
  let first ← value (skipBlanks colon.rest)
  have := first.within
  match mark ',' first.rest with
  | some comma =>
    have := comma.within
    have := length_skipBlanks_le comma.rest
    let others ← fields (skipBlanks comma.rest)
    return (others.map ((name.value, first.value) :: ·)).widen (by omega)
  | none =>
    let close ← mark '\x7d' first.rest
    return (close.map fun _ => [(name.value, first.value)]).widen (by omega)
termination_by 2 * cs.length + 1

end

/-- The value a text stands for. -/
def read? (text : String) : Option Json := do
  let whole ← value (skipBlanks text.toList)
  if (skipBlanks whole.rest).isEmpty then some whole.value else none

end RobotScript.Json
