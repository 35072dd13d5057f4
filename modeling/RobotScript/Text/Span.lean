/-
# Places in a source text

A span is a stretch of a source text in bytes. `Source.position` turns the
start of a span into a line and a column, both from zero, the column in
characters; `Source.lineText` gives the text of a line, without the line break
that ends it. A line ends at a line feed, together with a carriage return
before it.

Key definitions: `Span`, `Source.position`, `Source.lineText`.
-/

namespace RobotScript

/-- A stretch of a source text, in bytes. -/
structure Span where
  offset : Nat
  length : Nat
  deriving DecidableEq, Repr, Inhabited

namespace Span

/-- The span of one byte at an offset. -/
def single (offset : Nat) : Span := ⟨offset, 1⟩

/-- The offset just behind the span. -/
def limit (s : Span) : Nat := s.offset + s.length

/-- The smallest span that covers both. -/
def cover (s t : Span) : Span :=
  let start := min s.offset t.offset
  ⟨start, max s.limit t.limit - start⟩

end Span

/-- A line and a column, both from zero; the column counts characters. -/
structure Position where
  line : Nat
  col : Nat
  deriving DecidableEq, Repr, Inhabited

/-- A source text and the file it was read from. -/
structure Source where
  text : String
  file : Option String
  deriving DecidableEq, Repr, Inhabited

/-- The characters in front of a byte offset. -/
def charsBefore : Nat → List Char → List Char
  | _, [] => []
  | n, c :: cs => if n = 0 then [] else c :: charsBefore (n - c.utf8Size) cs

/-- The position behind some characters. -/
def positionAfter (cs : List Char) : Position where
  line := cs.count '\n'
  col := (cs.reverse.takeWhile (· != '\n')).length

/-- The lines of a text, without the line breaks that end them. -/
def linesOf : List Char → List (List Char)
  | [] => []
  | '\n' :: cs => [] :: linesOf cs
  | '\r' :: '\n' :: cs => [] :: linesOf cs
  | c :: cs =>
    match linesOf cs with
    | [] => [[c]]
    | line :: rest => (c :: line) :: rest

namespace Source

/-- The length of the text in bytes. -/
def size (s : Source) : Nat := s.text.utf8ByteSize

/-- Where the text at an offset stands; an offset past the end counts as the
end. -/
def position (s : Source) (offset : Nat) : Position :=
  positionAfter (charsBefore offset s.text.toList)

/-- The text of a line, empty past the last one. -/
def lineText (s : Source) (line : Nat) : String :=
  String.ofList ((linesOf s.text.toList)[line]?.getD [])

end Source
end RobotScript
