import ScriptIndex.Script.Input
import ScriptIndex.Script.Operator
import ScriptIndex.Text.Escape

/-! # Expressions

Each rule reads a construct and gives its node, which enters the arena after its children. The rules
that stand inside others are called through a `Grammar`, which holds the rules one level deeper:

    assignment ::= binary(1) [ '=' assignment ]
    binary(p)  ::= unary { operator of precedence q ≥ p, binary(q + 1) }
    unary      ::= operator unary | chain
    chain      ::= primary { '.' property | '[' assignment ']' | '(' arguments ')' }
    primary    ::= function | '(' assignment ')' | object | array | atom
    function   ::= 'function' [ name ] '(' names ')' block -/

namespace ScriptIndex.ScriptReader

/-- The text that a string literal stands for: its inside is read as UTF-8 before its escapes. -/
def stringText (t : Token) : String :=
  String.ofList (Escape.decode (Utf8.decode (t.bytes.drop 1).dropLast).toList)

def atomKind (t : Token) : ScriptReader Kind :=
  match t.kind with
  | .identifier => return .name t.text
  | .numberLiteral =>
    match Numeral.ofBytes? t.bytes with
    | some x => return .number x.toBinary64
    | none => Build.reject .malformedNumber t.span (some t.kind)
  | .stringLiteral => return .string (stringText t)
  | .trueLiteral => return .trueValue
  | .falseLiteral => return .falseValue
  | .nullLiteral => return .nullValue
  | .thisWord => return .thisValue
  | _ => refuse t (.expected .expression)

def atom : ScriptReader NodeId := do
  let kind ← atomKind (← peek)
  let t ← consume
  leaf kind t

def name : ScriptReader NodeId := do
  let t ← require .identifier
  leaf (.name t.text) t

def isPropertyName (t : Token) : Bool :=
  t.kind = .identifier || t.kind.isKeyword

def keyText (t : Token) : ScriptReader String :=
  if t.kind = .stringLiteral then return stringText t
  else if isPropertyName t || t.kind = .numberLiteral then return t.text
  else refuse t (.expected .objectKey)

/-- Refuses an assignment, by the given sign, to what cannot be assigned to. -/
def checkTarget (sign : Token) (target : NodeId) : ScriptReader Unit := do
  let arena ← getThe Arena
  match arena.kind? target with
  | some kind =>
    unless kind.isTarget do
      Build.reject .invalidAssignmentTarget sign.span (some sign.kind)
  | none => throw (.unknownNode target)

structure Grammar where
  statement : ScriptReader NodeId
  assignment : ScriptReader NodeId
  /-- Operands and operators of at least the given precedence. -/
  binary : Nat → ScriptReader NodeId
  unary : ScriptReader NodeId

namespace Grammar

variable (g : Grammar)

def block : ScriptReader NodeId := do
  let start ← require .braceOpen
  let body ← itemsUntil .braceClose g.statement
  node .block start body

/-- The name of a function, after the word that begins it. Without a name it has an empty one there. -/
def functionName (start : Token) : ScriptReader NodeId := do
  match ← accept .identifier with
  | some t => leaf (.name t.text) t
  | none => Build.node (.name "") ⟨start.span.stop, start.span.stop⟩ []

/-- A function, declared or not: where its node ends up decides. -/
def function : ScriptReader NodeId := do
  let start ← require .functionWord
  let name ← functionName start
  let paramsStart ← require .parenOpen
  let params ← separatedUntil .parenClose ScriptReader.name
  let params ← node .params paramsStart params
  let body ← g.block
  node .function start [name, params, body]

def parenthesized : ScriptReader NodeId := do
  let _ ← require .parenOpen
  let inner ← g.assignment
  let _ ← require .parenClose
  return inner

def member : ScriptReader NodeId := do
  let start ← consume
  let text ← keyText start
  let _ ← require .colon
  let value ← g.assignment
  node (.key text) start [value]

def object : ScriptReader NodeId := do
  let start ← require .braceOpen
  let members ← separatedUntil .braceClose g.member
  node .object start members

def array : ScriptReader NodeId := do
  let start ← require .bracketOpen
  let elements ← separatedUntil .bracketClose g.assignment
  node .array start elements

def primary : ScriptReader NodeId := do
  match (← peek).kind with
  | .functionWord => g.function
  | .parenOpen => g.parenthesized
  | .braceOpen => g.object
  | .bracketOpen => g.array
  | _ => atom

/-- What may follow an expression that begins at `start`: a property, an index or arguments. -/
def suffix (start : Token) (receiver : NodeId) : ScriptReader (Option NodeId) := do
  match (← peek).kind with
  | .dot =>
    let _ ← consume
    let t ← consume
    unless isPropertyName t do refuse t (.expected .propertyName)
    node (.property t.text) start [receiver]
  | .bracketOpen =>
    let _ ← consume
    let index ← g.assignment
    let _ ← require .bracketClose
    node .element start [receiver, index]
  | .parenOpen =>
    let _ ← consume
    let arguments ← separatedUntil .parenClose g.assignment
    node .call start (receiver :: arguments)
  | _ => return none

def chain : ScriptReader NodeId := do
  let start ← peek
  let receiver ← g.primary
  Reader.extend (g.suffix start) (← turns) receiver

def unaryRule : ScriptReader NodeId := do
  let start ← peek
  match start.kind.unaryOp? with
  | none => g.chain
  | some op =>
    let _ ← consume
    let operand ← g.unary
    node (.unary op) start [operand]

/-- An operator of at least the precedence `least` and its right operand, which holds operators that bind
tighter. -/
def operation (least : Nat) (start : Token) (left : NodeId) : ScriptReader (Option NodeId) := do
  match (← peek).kind.binaryOp? with
  | none => return none
  | some (op, precedence) =>
    if precedence < least then return none
    else
      let _ ← consume
      let right ← g.binary (precedence + 1)
      node (.binary op) start [left, right]

def binaryRule (least : Nat) : ScriptReader NodeId := do
  let start ← peek
  let left ← g.unaryRule
  Reader.extend (g.operation least start) (← turns) left

def assignmentRule : ScriptReader NodeId := do
  let start ← peek
  let left ← g.binaryRule 1
  match ← accept .equals with
  | none => return left
  | some sign =>
    checkTarget sign left
    let right ← g.assignment
    node .assign start [left, right]

end Grammar

end ScriptIndex.ScriptReader
