/-
# Quoted characters and strings

Messages show characters in single and strings in double quotes. The quote in
use, the backslash and a few controls have short escapes; other characters
that do not print are written by their code point.

Key definitions: `quoteChar`, `quoteString`.
-/
import RobotScript.Text.Printable
import RobotScript.Text.Layout

namespace RobotScript.Text

/-- A character between quotes of the given kind. -/
def escape (quote c : Char) : String :=
  if c = '\x00' then "\\0"
  else if c = '\t' then "\\t"
  else if c = '\r' then "\\r"
  else if c = '\n' then "\\n"
  else if c = '\\' then "\\\\"
  else if c = quote then String.ofList ['\\', c]
  else if isPrintable c then String.singleton c
  else "\\u\x7b" ++ hex c.toNat ++ "\x7d"

def quoteChar (c : Char) : String := "'" ++ escape '\x27' c ++ "'"

def quoteString (text : String) : String :=
  "\"" ++ String.join (text.toList.map (escape '\x22')) ++ "\""

end RobotScript.Text
