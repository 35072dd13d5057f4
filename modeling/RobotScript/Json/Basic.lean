/-
# JSON values

A number keeps its text, since only whole numbers written as such are sizes,
and an object keeps its fields as they come, repeated ones included. A string
can hold half of a surrogate pair, and then has no text.

Key definitions: `Json`, `Json.pretty`.
-/
import RobotScript.Text.Layout

namespace RobotScript

inductive Json where
  | null
  | bool (value : Bool)
  | number (text : String)
  | string (text : Option String)
  | array (items : List Json)
  | object (fields : List (Option String × Json))
  deriving Repr, Inhabited

namespace Json

/-- A string with a text. -/
def text (s : String) : Json := string (some s)

/-- A whole number. -/
def int (n : Int) : Json := number (toString n)

/-- An object with the given fields. -/
def record (fields : List (String × Json)) : Json :=
  object (fields.map fun f => (some f.1, f.2))

/-- A character inside quotes. -/
def escape (c : Char) : String :=
  if c = '\x22' then "\\\""
  else if c = '\\' then "\\\\"
  else if c = '\x08' then "\\b"
  else if c = '\t' then "\\t"
  else if c = '\n' then "\\n"
  else if c = '\x0c' then "\\f"
  else if c = '\r' then "\\r"
  else if c.toNat < 0x20 then "\\u" ++ Text.hex4 c.toNat
  else String.singleton c

def quote (s : String) : String := "\"" ++ String.join (s.toList.map escape) ++ "\""

/-- The start of a line at a depth. -/
def indent (depth : Nat) : String := "\n" ++ String.ofList (List.replicate (2 * depth) ' ')

/-- Parts between brackets, each on a line of its own at a depth. -/
def bracketed (opening closing : String) (depth : Nat) (parts : List String) : String :=
  if parts.isEmpty then opening ++ closing
  else opening ++ indent (depth + 1) ++ (("," ++ indent (depth + 1)).intercalate parts) ++
    indent depth ++ closing

mutual

/-- The value over several lines, as it stands at a depth. -/
def prettyAt (depth : Nat) : Json → String
  | null => "null"
  | bool true => "true"
  | bool false => "false"
  | number text => text
  | string text => quote (text.getD "")
  | array items => bracketed "[" "]" depth (prettyItems (depth + 1) items)
  | object fields => bracketed "\x7b" "\x7d" depth (prettyFields (depth + 1) fields)

def prettyItems (depth : Nat) : List Json → List String
  | [] => []
  | item :: items => prettyAt depth item :: prettyItems depth items

def prettyFields (depth : Nat) : List (Option String × Json) → List String
  | [] => []
  | (name, value) :: fields =>
    (quote (name.getD "") ++ ": " ++ prettyAt depth value) :: prettyFields depth fields

end

/-- The value over several lines. -/
def pretty (v : Json) : String := v.prettyAt 0

end Json
end RobotScript
