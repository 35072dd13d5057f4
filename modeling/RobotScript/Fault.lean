/-
# What can be wrong with a script

The causes of failure, by the stage that finds them: the text cannot be read
as tokens, the tokens not as statements, or the statements make no sense. The
last kind, `InternalFault`, is a broken promise between stages and never the
script's doing.

Key definitions: `Fault`, `Fault.message`.
-/
import RobotScript.Diagnostic
import RobotScript.Text.Quoted
import RobotScript.Token.Basic

namespace RobotScript

/-- Why a text cannot be read as tokens. -/
inductive LexFault where
  | unexpectedChar (found : Char)
  | expected (wanted : String) (found : Char)
  | hexNumber
  | binaryNumber
  | unterminatedComment
  deriving DecidableEq, Repr, Inhabited

def LexFault.message : LexFault → String
  | unexpectedChar c => "syntax error: unexpected " ++ Text.quoteChar c
  | expected wanted c => "unexpected " ++ Text.quoteChar c ++ ", expected " ++ wanted
  | hexNumber => "hexadecimal number syntax error"
  | binaryNumber => "binary number syntax error"
  | unterminatedComment => "unterminated comment"

/-- What the grammar admits at some point. -/
inductive Wanted where
  | token (kind : Token.Kind)
  | described (text : String)
  deriving Repr, Inhabited

def Wanted.describe : Wanted → String
  | token kind => kind.describe
  | described text => text

/-- Why tokens cannot be read as statements, or statements not as blocks. -/
inductive SyntaxFault where
  | lexical (fault : LexFault)
  | expected (wanted : Wanted) (found : Token.Kind)
  | unexpectedEnd (wanted : Option Wanted)
  | unexpectedToken
  | unexpectedIndexing
  | raggedArray
  | sizelessArray
  | functionDefinition
  | missingSemicolon
  | missingWhile
  /-- An element of the block structure in the wrong place. -/
  | unexpected (what : String)
  | unterminated (what : String)
  deriving Repr, Inhabited

def SyntaxFault.message : SyntaxFault → String
  | lexical fault => fault.message
  | expected wanted found =>
    "expected " ++ wanted.describe ++ ", but found instead " ++ found.describe
  | unexpectedEnd none => "unexpected end of file"
  | unexpectedEnd (some wanted) => "unexpected end of file, expected " ++ wanted.describe
  | unexpectedToken => "unexpected token in expression"
  | unexpectedIndexing => "unexpected indexing"
  | raggedArray => "non-rectangular array"
  | sizelessArray => "missing size or initial value in array declaration"
  | functionDefinition => "syntax error in function definition"
  | missingSemicolon => "missing semicolon"
  | missingWhile => "missing \"while\" after \"do\" block"
  | unexpected what => "unexpected " ++ what
  | unterminated what => "unterminated " ++ what

/-- The two ways out of a loop body. -/
inductive LoopExit where
  | leave
  | again
  deriving DecidableEq, Repr, Inhabited

def LoopExit.keyword : LoopExit → String
  | leave => "break"
  | again => "continue"

/-- Why well-formed statements make no sense. -/
inductive SemanticFault where
  | unknownVariable (name : String)
  | duplicateVariable (name : String)
  | unknownFunction (name : String)
  | duplicateDefinition (name : String)
  | unknownLabel (name : String)
  | duplicateLabel (name : String)
  | unknownLoopLabel (exit : LoopExit) (label : String)
  | outsideLoop (exit : LoopExit)
  | returnOutsideFunction
  | unexpectedReturnValue
  | missingReturnValue
  | divisionByZero
  | nonConstant (what : String)
  | arraySize
  | indexOutOfRange
  | tooManyIndices
  | incompatibleSizes
  | badArrayAssignment
  | invalidOperand
  | voidValue
  | arrayInExpression
  | missingElse
  | unexpectedElse
  | wrongArgumentCount (name : String)
  | argumentSize (name : String)
  | referenceExpected
  | referenceTypeMismatch
  | nativeNotFound (name : String)
  | nativeArgumentCount (name : String)
  | nativeArgumentSize (name : String)
  | unknownEvent (name : String)
  | unknownUserEvent (name : String)
  | emitSize
  | nestedDefinition (what : String)
  | outOfMemory
  | codeTooLarge
  deriving DecidableEq, Repr, Inhabited

/-- A name as messages show it. -/
def inQuotes (name : String) : String := "\"" ++ name ++ "\""

def SemanticFault.message : SemanticFault → String
  | unknownVariable name => "unknown variable " ++ inQuotes name
  | duplicateVariable name => "duplicate variable declaration " ++ inQuotes name
  | unknownFunction name => "unknown function " ++ inQuotes name
  | duplicateDefinition name => "duplicate definition of " ++ inQuotes name
  | unknownLabel name => "unknown label " ++ inQuotes name
  | duplicateLabel name => "duplicate label " ++ inQuotes name
  | unknownLoopLabel exit label => "unknown " ++ exit.keyword ++ " label " ++ inQuotes label
  | outsideLoop exit => exit.keyword ++ " outside loop"
  | returnOutsideFunction => "return outside function definition"
  | unexpectedReturnValue => "unexpected return value in void function"
  | missingReturnValue => "missing return value in non-void function"
  | divisionByZero => "division by 0"
  | nonConstant what => "non-constant expression in " ++ what
  | arraySize => "bad array size"
  | indexOutOfRange => "index out of range"
  | tooManyIndices => "too many indices"
  | incompatibleSizes => "incompatible sizes"
  | badArrayAssignment => "bad array assignment"
  | invalidOperand => "invalid operand"
  | voidValue => "cannot use void result in expression"
  | arrayInExpression => "array value in scalar expression"
  | missingElse => "missing else part in conditional expression"
  | unexpectedElse => "else part without conditional expression"
  | wrongArgumentCount name => "wrong number of arguments for " ++ inQuotes name
  | argumentSize name => "incompatible size of argument in call to " ++ inQuotes name
  | referenceExpected => "variable reference expected"
  | referenceTypeMismatch => "variable reference type mismatch"
  | nativeNotFound name => "native function " ++ inQuotes name ++ " not found"
  | nativeArgumentCount name => "wrong number of arguments for native function " ++ inQuotes name
  | nativeArgumentSize name => "argument size mismatch in native function " ++ inQuotes name
  | unknownEvent name => "unknown event " ++ inQuotes name
  | unknownUserEvent name => "unknown user event " ++ inQuotes name
  | emitSize => "incompatible data size in emit"
  | nestedDefinition what => what ++ " must be defined at top level"
  | outOfMemory => "not enough memory for variables"
  | codeTooLarge => "program too large"

/-- A broken promise between two stages. -/
inductive InternalFault where
  | unresolvedJumps
  | unresolvedVariable (name : String)
  | unresolvedPlaceholder
  | malformedOperator (symbol : String)
  deriving DecidableEq, Repr, Inhabited

def InternalFault.message : InternalFault → String
  | unresolvedJumps => "unresolved jump at end of code unit"
  | unresolvedVariable name => "unresolved variable " ++ inQuotes name
  | unresolvedPlaceholder => "unresolved placeholder"
  | malformedOperator symbol => "malformed operator " ++ symbol

inductive Fault where
  | lexical (fault : LexFault)
  | syntactic (fault : SyntaxFault)
  | semantic (fault : SemanticFault)
  | internal (fault : InternalFault)
  deriving Repr, Inhabited

namespace Fault

def message : Fault → String
  | lexical fault => fault.message
  | syntactic fault => fault.message
  | semantic fault => fault.message
  | internal fault => "internal error: " ++ fault.message

/-- The fault of a statement that cannot be read. -/
def ofSyntax : SyntaxFault → Fault
  | .lexical fault => lexical fault
  | fault => syntactic fault

end Fault

/-- Why a script does not compile. -/
abbrev CompileError := Diagnostic Fault

/-- The result of a stage of the compiler. -/
abbrev Result (α : Type) := Except CompileError α

/-- Fail for a semantic reason at a place. -/
def semantic {α : Type} (fault : SemanticFault) (span : Span) : Result α :=
  .error ((Diagnostic.ofCause (.semantic fault)).placedAt span)

/-- Fail for a broken promise. -/
def internal {α : Type} (fault : InternalFault) : Result α :=
  .error (.ofCause (.internal fault))

/-- The result, with a place for a failure that has none. -/
def Result.placedAt {α : Type} (r : Result α) (span : Span) : Result α :=
  r.mapError (·.placedAt span)

/-- The text of a failure. -/
def CompileError.render (e : CompileError) : String := Diagnostic.render Fault.message e

end RobotScript
