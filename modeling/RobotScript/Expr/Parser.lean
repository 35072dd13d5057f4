/-
# Reading expressions

Expressions are read by climbing priorities: an operand, then the operators
that bind tighter than the priority asked for, each with a right operand read
at the operator's own priority. So operators of one priority group to the
left; assignments, which also bind at their own priority, group to the right.

Key definitions: `expression`, `arguments`.
-/
import RobotScript.Expr.Basic
import RobotScript.Token.Reading

namespace RobotScript

/-- How an expression goes on. -/
inductive Continuation where
  | postfixOp (op : Op)
  | infixOp (op : Op)
  /-- The opening bracket of indices. -/
  | bracket
  | stop
  deriving DecidableEq, Repr

/-- Whether an infix operator belongs to an operand read at a priority. -/
def bindsAt (priority : Nat) (op : Op) : Bool :=
  if priority = Priority.assignment then priority ≤ op.priority else priority < op.priority

/-- How a token continues an expression that is read at a priority. -/
def Language.continuation (language : Language) (priority : Nat) (t : Token) : Continuation :=
  match t.kind with
  | .keyword text =>
    match (language.operator? text .postfixOp).filter (priority ≤ ·.priority) with
    | some op => .postfixOp op
    | none =>
      match (language.operator? text .infixOp).filter (bindsAt priority) with
      | some op => .infixOp op
      | none => if text = "[" then .bracket else .stop
  | _ => .stop

/-- The items of a table of rows in storage order, column by column. -/
def columnMajor {α : Type} (rows : List (List α)) : List α :=
  (List.range (rows.headD []).length).flatMap fun c => rows.filterMap (·[c]?)

/-- The dimensions of a table of rows; a single row is a list. -/
def tableDims {α : Type} (rows : List (List α)) : List Nat :=
  let columns := (rows.headD []).length
  if rows.length = 1 then [columns] else [rows.length, columns]

/-- What may follow an item of an array. -/
def afterItem : Wanted := .described "\",\", \";\" or \"]\""

mutual

/-- Read an expression whose operators bind tighter than a priority. -/
def expression (r : Reading) (priority : Nat) (toks : List Token) :
    Except SyntaxError (Parsed Expr toks.length) := do
  let first ← whileDoing "parsing expression" (primary r toks)
  have := first.within
  let whole ← operators r priority first.value first.rest
  return first.andMaybe whole
termination_by 4 * toks.length + 2

/-- Read an operand. -/
def primary (r : Reading) (toks : List Token) : Except SyntaxError (Parsed Expr toks.length) :=
  match toks with
  | [] => refuse (.unexpectedEnd (some (.described "expression"))) r.endSpan
  | t :: ts =>
    match t.kind with
    | .float value => .ok (.head (.real value t.span) t ts)
    | .number value => .ok (.head (.int value t.span) t ts)
    | .name => do
      let call ← Reader.accept "(" ts
      have := call.within
      if call.value then
        let args ← arguments r ")" call.rest
        return call.andThen (args.map (.call (.bare t.span) t.text none))
      else return call.map fun _ => .var (.bare t.span) ⟨t.text, none⟩
    | .keyword "(" => do
      let inner ← expression r Priority.parenthesis ts
      have := inner.within
      let close ← whileDoing "parsing subexpression" (r.keyword ")" inner.rest)
      return (inner.andThen (close.map fun _ => inner.value)).past t
    | .keyword "[" => do
      let table ← whileDoing "parsing array" (tableRows r none ts)
      return (table.map fun rows =>
        .array ⟨t.span, .undefined, tableDims rows⟩ (columnMajor rows)).past t
    | .keyword text =>
      match r.language.operator? text .prefixOp with
      | some op => do
        let arg ← expression r Priority.unary ts
        return (arg.map fun e => .op (.bare t.span) op [e]).past t
      | none =>
        match r.language.operator? text .constant with
        | some op => .ok (.head (.op (.bare t.span) op []) t ts)
        | none => refuse .unexpectedToken t.span
termination_by 4 * toks.length + 1

/-- Read the operators behind an operand, and what they apply to. -/
def operators (r : Reading) (priority : Nat) (left : Expr) (toks : List Token) :
    Except SyntaxError (Parsed Expr (toks.length + 1)) :=
  match toks with
  | [] => .ok (.nothing left [])
  | t :: ts =>
    match r.language.continuation priority t with
    | .postfixOp op => do
      let whole ← operators r priority (.op (.bare t.span) op [left]) ts
      return whole.loosen
    | .infixOp op => do
      let right ← expression r op.priority ts
      have := right.within
      let whole ← operators r priority (.op (.bare t.span) op [left, right.value]) right.rest
      return ((right.andMaybe whole).past t).loosen
    | .bracket =>
      match left with
      | .var info v => do
        let indices ← arguments r "]" ts
        have := indices.within
        let whole ← operators r priority (.index (.bare info.span) v indices.value) indices.rest
        return ((indices.andMaybe whole).past t).loosen
      | _ => refuse .unexpectedIndexing t.span
    | .stop => .ok (.nothing left (t :: ts))
termination_by 4 * toks.length + 1

/-- Read expressions divided by commas, up to the bracket that closes them;
the opening bracket is read. -/
def arguments (r : Reading) (close : String) (toks : List Token) :
    Except SyntaxError (Parsed (List Expr) toks.length) :=
  match toks with
  | [] => argumentsFrom r close []
  | t :: ts =>
    if t.isKeyword close then .ok (.head [] t ts) else argumentsFrom r close (t :: ts)
termination_by 4 * toks.length + 4

/-- Read at least one expression, and more behind commas, up to the bracket
that closes them. -/
def argumentsFrom (r : Reading) (close : String) (toks : List Token) :
    Except SyntaxError (Parsed (List Expr) toks.length) := do
  let first ← expression r Priority.comma toks
  have := first.within
  let comma ← Reader.accept "," first.rest
  have := comma.within
  if comma.value then
    let others ← argumentsFrom r close comma.rest
    return first.andThen (comma.maybeThen (others.map (first.value :: ·)))
  else
    let last ← r.keyword close first.rest
    return first.andThen (last.map fun _ => [first.value])
termination_by 4 * toks.length + 3

/-- Read the rows of an array, which all have the width of the first. -/
def tableRows (r : Reading) (width : Option Nat) (toks : List Token) :
    Except SyntaxError (Parsed (List (List Expr)) toks.length) := do
  let row ← tableRow r toks
  have := row.within
  let (items, last) := row.value
  if width.any (· != items.length) then refuse .raggedArray last.span
  else if last.isKeyword "]" then return row.map fun _ => [items]
  else
    let others ← tableRows r (some (width.getD items.length)) row.rest
    return row.andThen (others.map (items :: ·))
termination_by 4 * toks.length + 4

/-- Read the items of a row and the token that ends it. -/
def tableRow (r : Reading) (toks : List Token) :
    Except SyntaxError (Parsed (List Expr × Token) toks.length) := do
  let first ← expression r Priority.comma toks
  have := first.within
  let mark ← r.token afterItem first.rest
  have := mark.within
  if mark.value.isKeyword "," then
    let others ← tableRow r mark.rest
    return first.andThen (mark.andThen (others.map fun p => (first.value :: p.1, p.2)))
  else if mark.value.isKeyword "]" || mark.value.isKeyword ";" then
    return first.andThen (mark.map fun t => ([first.value], t))
  else refuse (.expected afterItem mark.value.kind) mark.value.span
termination_by 4 * toks.length + 3

end

end RobotScript
