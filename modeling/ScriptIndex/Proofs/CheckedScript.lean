import ScriptIndex.Proofs.CheckedDocs
import ScriptIndex.Proofs.CheckedLexer
import ScriptIndex.Proofs.TokenCuts

/-! # Scripts read with checks

The grammar of scripts where whatever is taken of the source is cut out of it by position: the text of a token, the
inside of a string literal and the contents of a comment. A rule knows only the kinds and the spans of tokens. Looking
at tokens takes nothing of the source, so that the actions on tokens are those of the other grammar. -/

namespace ScriptIndex.CheckedScript
open Checked
open ScriptReader (peek consume accept require refuse node leaf turns isPropertyName checkTarget)

/-- Reads tokens, and cuts their texts out of the source. -/
abbrev TokenReader := CheckedReader Input

def itemTurn (close : TokenKind) (item : TokenReader NodeId) : TokenReader (Reader.Turn NodeId) := do
  if (← accept close).isSome then return .stop
  else return .more (← item)

def itemsUntil (close : TokenKind) (item : TokenReader NodeId) : TokenReader (List NodeId) := do
  CheckedReader.collect (itemTurn close item) (← turns)

def separatedTurn (close : TokenKind) (item : TokenReader NodeId) : TokenReader (Reader.Turn NodeId) := do
  if (← accept close).isSome then return .stop
  else
    let node ← item
    if (← accept .comma).isSome then return .more node
    else
      let _ ← require close
      return .last node

def separatedUntil (close : TokenKind) (item : TokenReader NodeId) : TokenReader (List NodeId) := do
  CheckedReader.collect (separatedTurn close item) (← turns)

variable (source : List UInt8)

def text (t : Token) : TokenReader String := return Utf8.decode (← slice source t.span)

/-- The text that a string literal stands for, from between its quotes. -/
def stringText (t : Token) : TokenReader String := do
  let inside ← slice source ⟨t.span.start + 1, t.span.stop - 1⟩
  return String.ofList (Escape.decode (Utf8.decode inside).toList)

def number (t : Token) : TokenReader Kind := do
  match Numeral.ofBytes? (← slice source t.span) with
  | some x => return .number x.toBinary64
  | none => Build.reject .malformedNumber t.span (some t.kind)

def atomKind (t : Token) : TokenReader Kind :=
  match t.kind with
  | .identifier => return .name (← text source t)
  | .numberLiteral => number source t
  | .stringLiteral => return .string (← stringText source t)
  | .trueLiteral => return .trueValue
  | .falseLiteral => return .falseValue
  | .nullLiteral => return .nullValue
  | .thisWord => return .thisValue
  | _ => refuse t (.expected .expression)

def atom : TokenReader NodeId := do
  let kind ← atomKind source (← peek)
  let t ← consume
  leaf kind t

def name : TokenReader NodeId := do
  let t ← require .identifier
  leaf (.name (← text source t)) t

def keyText (t : Token) : TokenReader String :=
  if t.kind = .stringLiteral then stringText source t
  else if isPropertyName t || t.kind = .numberLiteral then text source t
  else refuse t (.expected .objectKey)

structure Grammar where
  statement : TokenReader NodeId
  assignment : TokenReader NodeId
  binary : Nat → TokenReader NodeId
  unary : TokenReader NodeId

namespace Grammar

variable (g : Grammar)

def block : TokenReader NodeId := do
  let start ← require .braceOpen
  let body ← itemsUntil .braceClose g.statement
  node .block start body

def functionName (start : Token) : TokenReader NodeId := do
  match ← accept .identifier with
  | some t => leaf (.name (← text source t)) t
  | none => Build.node (.name "") ⟨start.span.stop, start.span.stop⟩ []

def function : TokenReader NodeId := do
  let start ← require .functionWord
  let name ← functionName source start
  let paramsStart ← require .parenOpen
  let params ← separatedUntil .parenClose (CheckedScript.name source)
  let params ← node .params paramsStart params
  let body ← g.block
  node .function start [name, params, body]

def parenthesized : TokenReader NodeId := do
  let _ ← require .parenOpen
  let inner ← g.assignment
  let _ ← require .parenClose
  return inner

def member : TokenReader NodeId := do
  let start ← consume
  let text ← keyText source start
  let _ ← require .colon
  let value ← g.assignment
  node (.key text) start [value]

def object : TokenReader NodeId := do
  let start ← require .braceOpen
  let members ← separatedUntil .braceClose (g.member source)
  node .object start members

def array : TokenReader NodeId := do
  let start ← require .bracketOpen
  let elements ← separatedUntil .bracketClose g.assignment
  node .array start elements

def primary : TokenReader NodeId := do
  match (← peek).kind with
  | .functionWord => g.function source
  | .parenOpen => g.parenthesized
  | .braceOpen => g.object source
  | .bracketOpen => g.array
  | _ => atom source

def suffix (start : Token) (receiver : NodeId) : TokenReader (Option NodeId) := do
  match (← peek).kind with
  | .dot =>
    let _ ← consume
    let t ← consume
    unless isPropertyName t do refuse t (.expected .propertyName)
    node (.property (← text source t)) start [receiver]
  | .bracketOpen =>
    let _ ← consume
    let index ← g.assignment
    let _ ← require .bracketClose
    node .element start [receiver, index]
  | .parenOpen =>
    let _ ← consume
    let arguments ← separatedUntil .parenClose g.assignment
    node .call start (receiver :: arguments)
  | _ => return none

def chain : TokenReader NodeId := do
  let start ← peek
  let receiver ← g.primary source
  CheckedReader.extend (g.suffix source start) (← turns) receiver

def unaryRule : TokenReader NodeId := do
  let start ← peek
  match start.kind.unaryOp? with
  | none => g.chain source
  | some op =>
    let _ ← consume
    let operand ← g.unary
    node (.unary op) start [operand]

def operation (least : Nat) (start : Token) (left : NodeId) : TokenReader (Option NodeId) := do
  match (← peek).kind.binaryOp? with
  | none => return none
  | some (op, precedence) =>
    if precedence < least then return none
    else
      let _ ← consume
      let right ← g.binary (precedence + 1)
      node (.binary op) start [left, right]

def binaryRule (least : Nat) : TokenReader NodeId := do
  let start ← peek
  let left ← g.unaryRule source
  CheckedReader.extend (g.operation least start) (← turns) left

def assignmentRule : TokenReader NodeId := do
  let start ← peek
  let left ← g.binaryRule source 1
  match ← accept .equals with
  | none => return left
  | some sign =>
    checkTarget sign left
    let right ← g.assignment
    node .assign start [left, right]

def variableRule : TokenReader NodeId := do
  let t ← require .identifier
  if (← accept .equals).isSome then
    let value ← g.assignmentRule source
    node (.name (← text source t)) t [value]
  else node (.name (← text source t)) t []

def variableTurn : TokenReader (Reader.Turn NodeId) := do
  let name ← g.variableRule source
  return if (← accept .comma).isSome then .more name else .last name

def declaration (word : VarWord) : TokenReader NodeId := do
  let start ← consume
  let names ← CheckedReader.collect (g.variableTurn source) (← turns)
  let _ ← accept .semicolon
  node (.declaration word) start names

def ifRule : TokenReader NodeId := do
  let start ← require .ifWord
  let _ ← require .parenOpen
  let test ← g.assignmentRule source
  let _ ← require .parenClose
  let holds ← g.statement
  if (← accept .elseWord).isSome then
    let fails ← g.statement
    node .ifStatement start [test, holds, fails]
  else node .ifStatement start [test, holds]

def returnRule : TokenReader NodeId := do
  let start ← consume
  if ScriptReader.Grammar.endsReturn (← peek) then
    let _ ← accept .semicolon
    node .returnStatement start []
  else
    let value ← g.assignmentRule source
    let _ ← accept .semicolon
    node .returnStatement start [value]

def undocumented : TokenReader (NodeId × NodeId) := do
  let start ← peek
  match start.kind with
  | .braceOpen => ScriptReader.Grammar.itself <$> g.block
  | .varWord => ScriptReader.Grammar.itself <$> g.declaration source .var
  | .letWord => ScriptReader.Grammar.itself <$> g.declaration source .let
  | .constWord => ScriptReader.Grammar.itself <$> g.declaration source .const
  | .functionWord => ScriptReader.Grammar.itself <$> g.function source
  | .ifWord => ScriptReader.Grammar.itself <$> g.ifRule source
  | .returnWord => ScriptReader.Grammar.itself <$> g.returnRule source
  | .semicolon => return ScriptReader.Grammar.itself (← leaf .emptyStatement (← consume))
  | _ =>
    let expression ← g.assignmentRule source
    let _ ← accept .semicolon
    let statement ← node .expressionStatement start [expression]
    return (statement, expression)

def statementRule : TokenReader NodeId := do
  let doc := (← peek).doc
  let (statement, described) ← g.undocumented source
  if let some text := doc then
    let contents ← slice source text.span
    let _ ← CheckedBuild.document described ⟨text.span.start, contents⟩
  return statement

def next : Grammar := ⟨g.statementRule source, g.assignmentRule source, g.binaryRule source, g.unaryRule source⟩

def within : Nat → Grammar
  | 0 =>
    let exhausted : TokenReader NodeId := throw (.failed .exhausted)
    ⟨exhausted, exhausted, fun _ => exhausted, exhausted⟩
  | depth + 1 => (within depth).next source

end Grammar

def statementTurn (g : Grammar) : TokenReader (Reader.Turn NodeId) := do
  if (← peek).kind = .eof then return .stop
  else return .more (← g.statement)

def script (module : Option ModuleId) : TokenReader NodeId := do
  let g := Grammar.within source (← turns)
  let body ← CheckedReader.collect (statementTurn g) (← turns)
  let last ← peek
  Build.node (.script module) ⟨0, last.span.stop⟩ body

end ScriptIndex.CheckedScript
