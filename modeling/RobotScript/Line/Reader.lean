/-
# Reading a script

A script is read to tokens and those to lines, one after another.

Key definitions: `Line.ofTokens`, `Line.read`.
-/
import RobotScript.Line.Simple
import RobotScript.Line.L2
import RobotScript.Token.Lexer

namespace RobotScript.Line

/-- Read the lines that the first tokens make up. -/
def next (r : Reading) (toks : List Token) : Except SyntaxError (Parsed (List Line) toks.length) :=
  match r.language with
  | .simple => Simple.line r toks
  | .l2 => L2.line r toks

/-- Read tokens as lines. -/
def ofTokens (r : Reading) (toks : List Token) : Except SyntaxError (List Line) :=
  match toks with
  | [] => return []
  | t :: ts => do
    let lines ← next r (t :: ts)
    return lines.value ++ (← ofTokens r lines.rest)
termination_by toks.length
decreasing_by exact lines.within

/-- What reading a source depends on. -/
def reading (settings : Settings) (source : Source) : Reading := ⟨settings, source.size⟩

/-- The tokens of a source, if all of it can be read. -/
def tokens (language : Language) (source : Source) : Except SyntaxError (List Token) :=
  match Lexer.tokenize language source with
  | (toks, none) => .ok toks
  | (_, some e) => .error (e.mapCause .lexical)

/-- The lines of a source; a failure shows the source line it belongs to. -/
def read (settings : Settings) (source : Source) : Except SyntaxError (List Line) :=
  let lines := do ofTokens (reading settings source) (← tokens settings.language source)
  lines.mapError fun e => Diagnostic.resolve e source

end RobotScript.Line
