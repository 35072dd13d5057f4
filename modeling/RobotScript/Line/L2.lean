/-
# Lines of L2

Statements end with a semicolon and blocks are in braces. A closing brace
takes in what goes on with the statement it belongs to: an `else`, or the
`while` of a `do` loop, which is told from a new loop by its semicolon. A type
starts a function if a parenthesis follows the name, and else variables.

Key definitions: `L2.line`.
-/
import RobotScript.Line.Basic
import RobotScript.Expr.Parser

namespace RobotScript.L2

/-- Read a whole expression. -/
def value (r : Reading) : Reader Expr := .take (expression r Priority.statement)

/-- Read an expression that ends at a comma. -/
def item (r : Reading) : Reader Expr := .take (expression r Priority.comma)

/-- Read a keyword that must come. -/
def keyword (r : Reading) (text : String) : Reader Span := .take (r.keyword text)

/-- Read a name that must come. -/
def name (r : Reading) : Reader String := do return (← Reader.take r.name).1

/-- Read the end of a statement. -/
def semicolon (r : Reading) : Reader Unit := do
  if ← Reader.accept ";" then return ()
  else Reader.refuseAt .missingSemicolon (r.nextSpan (← Reader.ahead))

/-- Read the start of a block. -/
def openBrace (r : Reading) : Reader Unit := discard (keyword r "\x7b")

/-- Read an expression in parentheses. -/
def condition (r : Reading) : Reader Expr := do
  discard <| keyword r "("
  let cond ← Reader.take (expression r Priority.parenthesis)
  discard <| keyword r ")"
  return cond

/-- Read an expression unless a keyword comes next. -/
def valueUnless (r : Reading) (text : String) : Reader (Option Expr) := do
  if ← Reader.sees text then return none else return some (← value r)

/-- Read an initial value, if there is one. -/
def initialValue (r : Reading) : Reader (Option Expr) := do
  if ← Reader.accept "=" then return some (← item r) else return none

/-- The type of a variable that a keyword names. -/
def typeOf? : String → Option Ty
  | "int" => some .int
  | "bool" => some .bool
  | "fixed" => some .fixed
  | _ => none

/-- Read the type of a variable, if there is one. -/
def typeName : Reader (Option Ty)
  | [] => .ok (.nothing none [])
  | t :: ts =>
    let ty := match t.kind with
      | .keyword text => typeOf? text
      | _ => none
    if ty.isSome then .ok (Taken.head ty t ts).loosen else .ok (.nothing none (t :: ts))

/-- Whether the token behind the next one is a keyword. -/
def secondIs (text : String) (toks : List Token) : Bool := startsWith text toks.tail

/-- Read the dimensions of a variable, if there are any. A single one is left
open if an initial value follows. -/
def dimensions (r : Reading) : Reader (List (Option Expr)) := do
  let toks ← Reader.ahead
  let bracket := r.nextSpan toks
  let opened := secondIs "]" toks
  if ← Reader.accept "[" then
    let dims ← Reader.take (arguments r "]")
    if opened then
      if ← Reader.sees "=" then return [none] else Reader.refuseAt .sizelessArray bracket
    else return dims.map some
  else return []

/-- Read one variable of a declaration. -/
def declarator (r : Reading) (ty : Ty) (toks : List Token) :
    Except SyntaxError (Parsed VarDecl toks.length) := do
  let named ← r.name toks
  let rest : Reader VarDecl := do
    let dims ← dimensions r
    let init ← initialValue r
    return ⟨named.value.1, ty, dims, init, none⟩
  let decl ← rest named.rest
  return named.andMaybe decl

/-- Read the variables of a declaration behind its type. -/
def declarators (r : Reading) (ty : Ty) (toks : List Token) :
    Except SyntaxError (Parsed (List VarDecl) toks.length) := do
  let decl ← declarator r ty toks
  have := decl.within
  let comma ← Reader.accept "," decl.rest
  have := comma.within
  if comma.value then
    let others ← declarators r ty comma.rest
    return decl.andThen (comma.maybeThen (others.map (decl.value :: ·)))
  else
    let stop ← semicolon r comma.rest
    return decl.andMaybe (comma.andMaybe (stop.map fun _ => [decl.value]))
termination_by toks.length

/-- Read a parameter. Its type is `int` unless one is given, and it is passed
by reference if it has dimensions, even none. -/
def param (r : Reading) (toks : List Token) : Except SyntaxError (Parsed ParamDecl toks.length) := do
  let ty ← typeName toks
  let named ← r.name ty.rest
  let rest : Reader ParamDecl := do
    let byRef ← Reader.accept "["
    let dims ← if byRef then Reader.take (arguments r "]") else pure []
    return ⟨named.value.1, ty.value.getD .int, dims, byRef, r.nextSpan toks⟩
  let decl ← rest named.rest
  return ty.maybeThen (named.andMaybe decl)

/-- Read parameters up to the closing parenthesis. -/
def params (r : Reading) (toks : List Token) :
    Except SyntaxError (Parsed (List ParamDecl) toks.length) := do
  let first ← param r toks
  have := first.within
  let close ← Reader.accept ")" first.rest
  have := close.within
  if close.value then return first.andMaybe (close.map fun _ => [first.value])
  else
    let comma ← Reader.accept "," close.rest
    have := comma.within
    if comma.value then
      let others ← params r comma.rest
      return first.andThen (close.maybeThen (comma.maybeThen (others.map (first.value :: ·))))
    else refuse .functionDefinition (r.nextSpan comma.rest)
termination_by toks.length

/-- Read the head of a function behind its result type. -/
def functionHead (r : Reading) (ret : Ty) : Reader FunctionDecl := do
  let name ← name r
  discard <| keyword r "("
  let params ← if ← Reader.accept ")" then pure [] else Reader.take (params r)
  openBrace r
  return ⟨name, ret, params⟩

/-- Read the first part of the head of a `for` loop: a variable, an expression
or nothing. -/
def forInit (r : Reading) : Reader (List Stmt) := do
  if ← Reader.sees ";" then return []
  let span := r.nextSpan (← Reader.ahead)
  match ← typeName with
  | some ty =>
    let name ← name r
    return [.varDecl span ⟨name, ty, [], ← initialValue r, none⟩]
  | none => return [.expr span (← value r)]

/-- Read the head of a `for` loop behind its keyword. -/
def forLoop (r : Reading) : Reader Opener := do
  discard <| keyword r "("
  let init ← forInit r
  discard <| keyword r ";"
  let cond ← valueUnless r ";"
  discard <| keyword r ";"
  let step ← valueUnless r ")"
  discard <| keyword r ")"
  openBrace r
  return .forLoop init cond step

/-- Read the condition that ends a `do` loop, if that comes; nothing is read
of a loop that starts here. -/
def loopEnd (r : Reading) : Reader (Option Expr) := fun toks =>
  match toks with
  | [] => .ok (.nothing none [])
  | t :: ts =>
    if t.isKeyword "while" then do
      let ended : Reader (Expr × Bool) := do return (← condition r, ← Reader.accept ";")
      let p ← ended ts
      if p.value.2 then return (p.map fun v => some v.1).loosen
      else return .nothing none (t :: ts)
    else .ok (.nothing none (t :: ts))

/-- Read what goes on behind a closing brace. -/
def closing (r : Reading) (span : Span) : Reader Line := do
  if ← Reader.accept "else" then
    if ← Reader.accept "if" then
      let cond ← condition r
      openBrace r
      return .elseIf cond span
    openBrace r
    return .otherwise span
  match ← loopEnd r with
  | some cond => return .closingWhile cond span
  | none => return .closing span

/-- Read the head of a block with a condition. -/
def blockHead (r : Reading) (span : Span) (opener : Expr → Opener) : Reader (List Line) := do
  let cond ← condition r
  openBrace r
  return [.opening (opener cond) span]

/-- Read a function or variables behind a type. -/
def definition (r : Reading) (span : Span) (ty : Ty) : Reader (List Line) := do
  if ty = .void || secondIs "(" (← Reader.ahead) then
    let decl ← Reader.during "parsing function definition" (functionHead r ty)
    return [.opening (.function decl) span]
  else
    let decls ← Reader.during "parsing variable declaration" (Reader.take (declarators r ty))
    return decls.map fun d => .plain (.varDecl span d)

/-- Read a jump out of a loop behind its keyword. -/
def loopExit (r : Reading) (span : Span) (kind : LoopExit) : Reader (List Line) := do
  let named := (← Reader.ahead).head?.any (·.isName)
  let label ← if named then some <$> name r else pure none
  semicolon r
  return [.plain (.exit span kind label)]

/-- How a line goes on behind its keyword; none for a keyword that starts no
line of its own. -/
def lineAfter? (r : Reading) (span : Span) : String → Option (Reader (List Line))
  | "int" => some (definition r span .int)
  | "bool" => some (definition r span .bool)
  | "fixed" => some (definition r span .fixed)
  | "void" => some (definition r span .void)
  | "const" => some do
    let name ← name r
    discard <| keyword r "="
    let value ← item r
    semicolon r
    return [.plain (.constDecl span name value)]
  | "if" => some (blockHead r span .branch)
  | "when" => some (blockHead r span .whenever)
  | "switch" => some (blockHead r span .switch)
  | "case" => some do
    let value ← Reader.take (expression r Priority.conditionalElse)
    discard <| keyword r ":"
    return [.plain (.case span value)]
  | "default" => some do
    discard <| keyword r ":"
    return [.plain (.default span)]
  | "goto" => some do
    let label ← name r
    semicolon r
    return [.plain (.goto span label)]
  | "while" => some do
    let cond ← condition r
    if ← Reader.accept ";" then Reader.refuseAt (.unexpected "\"while\" without \"do\"") span
    openBrace r
    return [.opening (.whileLoop cond) span]
  | "do" => some do
    openBrace r
    return [.opening .doLoop span]
  | "for" => some do
    return [.opening (← Reader.during "parsing for loop" (forLoop r)) span]
  | ";" => some (pure [.plain (.empty span)])
  | "\x7b" => some (pure [.opening .block span])
  | "\x7d" => some do return [← closing r span]
  | "else" => some (Reader.refuseAt (.unexpected "\"else\"") span)
  | "onevent" => some do
    let name ← name r
    openBrace r
    return [.opening (.onEvent name) span]
  | "return" => some do
    let value ← valueUnless r ";"
    semicolon r
    return [.plain (.ret span value)]
  | "break" => some (loopExit r span .leave)
  | "continue" => some (loopExit r span .again)
  | "emit" => some do
    let event ← name r
    let value ← valueUnless r ";"
    semicolon r
    return [.plain (.emit span event value)]
  | _ => none

/-- Read an expression statement. -/
def exprLine (r : Reading) (span : Span) (toks : List Token) :
    Except SyntaxError (Parsed (List Line) toks.length) := do
  let value ← expression r Priority.statement toks
  let stop ← semicolon r value.rest
  return value.andMaybe (stop.map fun _ => [.plain (.expr span value.value)])

/-- Read a statement or a part of one; a declaration gives a line for each of
its variables. -/
def line (r : Reading) (toks : List Token) : Except SyntaxError (Parsed (List Line) toks.length) :=
  match toks with
  | [] => refuse (.unexpectedEnd none) r.endSpan
  | t :: ts =>
    match t.kind with
    | .keyword text =>
      match lineAfter? r t.span text with
      | some reader => reader ts
      | none => exprLine r t.span (t :: ts)
    | .name =>
      match ts with
      | u :: us =>
        if u.isKeyword ":" then .ok ((Taken.head [.plain (.label t.span t.text)] u us).past t)
        else exprLine r t.span (t :: u :: us)
      | [] => exprLine r t.span [t]
    | _ => exprLine r t.span (t :: ts)

end RobotScript.L2
