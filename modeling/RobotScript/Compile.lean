/-
# Compiling

A script is read to lines, made a program, assembled and linked. Whatever goes
wrong is reported with the source line it belongs to.

Key definitions: `compile`, `Compiled`.
-/
import RobotScript.Image
import RobotScript.Line.Reader
import RobotScript.Program.Build

namespace RobotScript

/-- Where the code of a statement starts; line and column count from one. -/
structure SourceMapEntry where
  offset : Nat
  line : Nat
  col : Nat
  addr : Word
  deriving DecidableEq, Repr, Inhabited

structure Compiled where
  image : List Word
  sourceMap : List SourceMapEntry
  deriving DecidableEq, Repr, Inhabited

/-- The lines of a source, with the failure of this stage as one of compiling. -/
def readLines (settings : Settings) (source : Source) : Result (List Line) :=
  (Line.read settings source).mapError fun e => Diagnostic.mapCause Fault.ofSyntax e

/-- The image of a source. -/
def buildImage (node : Node) (settings : Settings) (source : Source) : Result Image := do
  let lines ← readLines settings source
  let program ← Program.ofLines node settings lines
  Image.link node (← program.assemble node settings)

/-- The place of a statement in its source. -/
def SourceMapEntry.ofPlace (source : Source) (place : Span × Word) : SourceMapEntry :=
  let position := source.position place.1.offset
  ⟨place.1.offset, position.line + 1, position.col + 1, place.2⟩

/-- Compile a source for a node. -/
def compile (node : Node) (settings : Settings) (source : Source) : Result Compiled :=
  match buildImage node settings source with
  | .error e => .error (Diagnostic.resolve e source)
  | .ok image => .ok ⟨image.words, image.map.map (SourceMapEntry.ofPlace source)⟩

end RobotScript
