import ScriptIndex.Span
import ScriptIndex.Token.Kind

/-! # Syntax errors

An error has a cause, the span it concerns and, where a token was refused, that token's kind. -/

namespace ScriptIndex

/-- What a parser may ask for by name rather than by token. -/
inductive Construct
  | propertyName | expression | objectKey
deriving Repr, DecidableEq

def Construct.label : Construct → String
  | propertyName => "property name"
  | expression => "expression"
  | objectKey => "object key"

inductive Cause
  | expected (construct : Construct)
  | invalidAssignmentTarget
  | invalidCharacter
  | malformedType
  | malformedNumber
  | missingToken (kind : TokenKind)
  | unexpectedEnd
  | unterminatedComment
  | unterminatedString
deriving Repr, DecidableEq

def Cause.message : Cause → String
  | expected construct => "expected " ++ construct.label
  | invalidAssignmentTarget => "invalid assignment target"
  | invalidCharacter => "invalid character"
  | malformedType => "malformed JSDoc type expression"
  | malformedNumber => "malformed number literal"
  | missingToken kind => "expected token " ++ kind.label
  | unexpectedEnd => "unexpected end of input"
  | unterminatedComment => "unterminated comment"
  | unterminatedString => "unterminated string literal"

structure SyntaxError where
  cause : Cause
  span : Span
  token : Option TokenKind
deriving Repr, DecidableEq

namespace SyntaxError

def message (e : SyntaxError) : String :=
  e.cause.message ++ " around " ++ e.span.label

/-- Two outcomes agree if neither is an error or both have the same cause, wherever it arose. -/
def agree (a b : Option SyntaxError) : Bool :=
  a.map cause == b.map cause

end SyntaxError

end ScriptIndex
