/-
# The two languages

`simple` is written line by line with blocks closed by `end`; `l2` is written
with braces, and has types, functions and scopes. They differ in their
keywords, in the operators those stand for and in the marks of comments.

Key definitions: `Language`, `Language.keywords`, `Language.operator?`,
`Language.detect`.
-/
import RobotScript.Language.Operator
import RobotScript.Text.Quoted

namespace RobotScript

inductive Language where
  | simple
  | l2
  deriving DecidableEq, Repr, Inhabited

namespace Language

open Machine (Binary)

def name : Language → String
  | simple => "simple"
  | l2 => "l2"

/-- The language with a given name, in any case of letters. -/
def ofName? (text : String) : Option Language :=
  match text.map Char.toLower with
  | "simple" | "aseba" => some simple
  | "l2" => some l2
  | _ => none

/-- What is said about a name that is no language. -/
def unknownMessage (text : String) : String :=
  "unknown language " ++ Text.quoteString text ++ " (expected \"simple\" or \"l2\")"

/-- The symbols of both languages that come first, longer ones before those
they start with. -/
def leadingSymbols : List String :=
  ["==", "!=", "<=", ">=", "|=", "^=", "&=", "*=", "/=", "%=", "+=", "-=", "<<=", ">>=", "++",
   "--", "(", ")", "[", "]", "-", "~"]

/-- The keywords in the order in which they are tried. -/
def keywords : Language → List String
  | simple =>
    leadingSymbols ++
    ["*", "/", "%", "+", "<<", ">>", "&", "^", "|", ">", "<", "=", ",", ":", "abs", "and",
     "callsub", "call", "const", "do", "elseif", "else", "emit", "end", "for", "if", "in", "not",
     "onevent", "or", "return", "step", "sub", "then", "var", "when", "while"]
  | l2 =>
    leadingSymbols ++
    ["!", "*", "/", "%", "+", "<<", ">>", "&&", "||", "&", "^", "|", ">", "<", "=", ",", "?", ":",
     "\x7b", "\x7d", ";", "bool", "break", "case", "const", "continue", "default", "do", "else",
     "emit", "false", "fixed", "for", "goto", "if", "int", "onevent", "return", "size", "switch",
     "true", "void", "when", "while"]

/-- The operators of both languages. -/
def commonOperator? : Fixity → String → Option Op
  | .prefixOp, "--" => some .preDecrement
  | .prefixOp, "++" => some .preIncrement
  | .prefixOp, "-" => some .negate
  | .prefixOp, "~" => some .bitNot
  | .postfixOp, "--" => some .postDecrement
  | .postfixOp, "++" => some .postIncrement
  | .infixOp, "=" => some .assign
  | .infixOp, "+=" => some (.compound .add)
  | .infixOp, "-=" => some (.compound .sub)
  | .infixOp, "*=" => some (.compound .mult)
  | .infixOp, "/=" => some (.compound .div)
  | .infixOp, "%=" => some (.compound .mod)
  | .infixOp, "<<=" => some (.compound .shl)
  | .infixOp, ">>=" => some (.compound .shr)
  | .infixOp, "&=" => some (.compound .bitAnd)
  | .infixOp, "|=" => some (.compound .bitOr)
  | .infixOp, "^=" => some (.compound .bitXor)
  | .infixOp, "*" => some (.binary .mult)
  | .infixOp, "/" => some (.binary .div)
  | .infixOp, "%" => some (.binary .mod)
  | .infixOp, "+" => some (.binary .add)
  | .infixOp, "-" => some (.binary .sub)
  | .infixOp, "<<" => some (.binary .shl)
  | .infixOp, ">>" => some (.binary .shr)
  | .infixOp, "==" => some (.binary .eq)
  | .infixOp, "!=" => some (.binary .ne)
  | .infixOp, "<" => some (.binary .lt)
  | .infixOp, "<=" => some (.binary .le)
  | .infixOp, ">" => some (.binary .gt)
  | .infixOp, ">=" => some (.binary .ge)
  | .infixOp, "&" => some (.binary .bitAnd)
  | .infixOp, "|" => some (.binary .bitOr)
  | .infixOp, "^" => some (.binary .bitXor)
  | _, _ => none

/-- The operators one language has of its own. -/
def ownOperator? : Language → Fixity → String → Option Op
  | simple, .prefixOp, "abs" => some .abs
  | simple, .prefixOp, "not" => some .not
  | simple, .infixOp, "and" => some (.binary .and)
  | simple, .infixOp, "or" => some (.binary .or)
  | l2, .prefixOp, "!" => some .not
  | l2, .prefixOp, "bool" => some (.cast .bool)
  | l2, .prefixOp, "fixed" => some (.cast .fixed)
  | l2, .prefixOp, "int" => some (.cast .int)
  | l2, .prefixOp, "size" => some .size
  | l2, .infixOp, "&&" => some .logicAnd
  | l2, .infixOp, "||" => some .logicOr
  | l2, .infixOp, "?" => some .conditional
  | l2, .infixOp, ":" => some .conditionalElse
  | l2, .infixOp, "," => some .comma
  | l2, .constant, "true" => some (.bool true)
  | l2, .constant, "false" => some (.bool false)
  | _, _, _ => none

/-- The operator a keyword stands for in a given position. -/
def operator? (language : Language) (symbol : String) (fixity : Fixity) : Option Op :=
  (commonOperator? fixity symbol).or (ownOperator? language fixity symbol)

/-- Whether a block opens a scope. -/
def blockScoping : Language → Bool
  | simple => false
  | l2 => true

/-- Whether there are literals with a fraction. -/
def hasFixed : Language → Bool
  | simple => false
  | l2 => true

/-- What starts a comment up to the end of the line. -/
def lineComment : Language → String
  | simple => "#"
  | l2 => "//"

/-- What starts and ends a comment of any length. -/
def blockComment : Language → String × String
  | simple => ("#*", "*#")
  | l2 => ("/*", "*/")

/-- The language of the first comment in a text. -/
def ofFirstComment? : List Char → Option Language
  | [] => none
  | '#' :: _ => some simple
  | '/' :: '/' :: _ => some l2
  | '/' :: '*' :: _ => some l2
  | _ :: cs => ofFirstComment? cs

/-- The language a text seems to be written in: that of its first comment, or
else `l2` if it has a semicolon or an opening brace. -/
def detect (text : String) : Language :=
  let cs := text.toList
  (ofFirstComment? cs).getD (if cs.any fun c => c == ';' || c == '\x7b' then l2 else simple)

end Language
end RobotScript
