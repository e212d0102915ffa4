import ScriptIndex.Arena.Build
import ScriptIndex.Token.Lexer
import ScriptIndex.Text.Utf8

/-! # Reading tokens

The input of a script's rules is the stream of tokens not read yet and the end of the last token read.
An error at the end of the tokens arises only when a rule looks that far. -/

namespace ScriptIndex

structure Input where
  stream : Stream
  /-- The end of the last token read, at first the start of the source. -/
  lastEnd : Nat
deriving Repr

abbrev ScriptReader := Reader Input

def Input.ofStream (stream : Stream) : Input := ⟨stream, 0⟩

def Token.text (t : Token) : String := Utf8.decode t.bytes

namespace ScriptReader

def peek : ScriptReader Token := do
  let stream := (← get).stream
  match stream.tokens with
  | t :: _ => return t
  | [] =>
    match stream.last with
    | .ok t => return t
    | .error e => throw (.rejected e)

/-- Reads the next token. The end of the text stays where it is. -/
def consume : ScriptReader Token := do
  let t ← peek
  modify fun s => ⟨{ s.stream with tokens := s.stream.tokens.tail }, t.span.stop⟩
  return t

def accept (kind : TokenKind) : ScriptReader (Option Token) := do
  if (← peek).kind = kind then return some (← consume) else return none

/-- Refuses a token; at the end of the text the cause is that the text ends. -/
def refuse {α : Type} (t : Token) (cause : Cause) : ScriptReader α :=
  Build.reject (if t.kind = .eof then .unexpectedEnd else cause) t.span (some t.kind)

def require (kind : TokenKind) : ScriptReader Token := do
  let t ← peek
  if t.kind = kind then consume else refuse t (.missingToken kind)

def spanFrom (t : Token) : ScriptReader Span :=
  return ⟨t.span.start, max (← get).lastEnd t.span.stop⟩

/-- A node from a token up to the end of the last token read. -/
def node (kind : Kind) (start : Token) (children : List NodeId) : ScriptReader NodeId := do
  Build.node kind (← spanFrom start) children

def leaf (kind : Kind) (t : Token) : ScriptReader NodeId :=
  Build.node kind t.span []

/-- More turns than a loop takes that reads a token in each. -/
def turns : ScriptReader Nat := return (← get).stream.tokens.length + 1

/-- Items up to a closing token, which is read. -/
def itemsUntil (close : TokenKind) (item : ScriptReader NodeId) : ScriptReader (List NodeId) := do
  let turn := do
    if (← accept close).isSome then return .stop
    else return .more (← item)
  Reader.collect turn (← turns)

/-- Items with commas between them up to a closing token, which is read. A comma may follow the last
item. -/
def separatedUntil (close : TokenKind) (item : ScriptReader NodeId) : ScriptReader (List NodeId) := do
  let turn := do
    if (← accept close).isSome then return .stop
    else
      let node ← item
      if (← accept .comma).isSome then return .more node
      else
        let _ ← require close
        return .last node
  Reader.collect turn (← turns)

end ScriptReader

end ScriptIndex
