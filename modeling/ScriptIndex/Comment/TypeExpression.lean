import ScriptIndex.Arena.Build
import ScriptIndex.Token.Lexer
import ScriptIndex.Text.Utf8

/-! # Type expressions

The types that stand between braces in a documentation comment:

    union    ::= prefixed { '|' prefixed }
    prefixed ::= ( '?' [ prefixed ] | '!' prefixed | '*' | '...' prefixed | basic ) [ '=' ]
    basic    ::= '(' union ')' | 'function' function | name [ '<' union { ',' union } '>' ]
    function ::= '(' [ param { ',' param } ] ')' [ ':' prefixed ]
    param    ::= [ 'this' ':' ] [ 'new' ':' ] union

Blanks may stand between any two of these. A `?` that nothing but the end of a type follows is the
unknown type. The rules call each other through a `Grammar`, one level deeper for each byte read. -/

namespace ScriptIndex

/-- Reads the text of a type, at positions in the whole source. -/
abbrev TypeReader := Reader Cursor

namespace TypeReader

def fail {α : Type} : TypeReader α := do
  let pos := (← get).pos
  Build.reject .malformedType ⟨pos, pos + 1⟩ none

def skipBlanks : TypeReader Unit :=
  modify fun c => c.advance (c.rest.takeWhile Byte.isBlank).length

def position : TypeReader Nat := do
  skipBlanks
  return (← get).pos

def peek : TypeReader (Option UInt8) := do
  skipBlanks
  return (← get).rest.head?

def accept (mark : Char) : TypeReader Bool := do
  if (← peek) == some mark.toUInt8 then
    modify (·.advance 1)
    return true
  else return false

def require (mark : Char) : TypeReader Unit := do
  unless ← accept mark do fail

/-- Passes over a word that comes next after blanks and that no name continues. -/
def acceptWord (word : String) : TypeReader Bool := do
  skipBlanks
  let rest := (← get).rest
  let length := (ascii word).length
  if (ascii word).isPrefixOf rest && !(rest.drop length).head?.any Byte.isTypeNamePart then
    modify (·.advance length)
    return true
  else return false

def node (kind : Kind) (start : Nat) (children : List NodeId) : TypeReader NodeId := do
  Build.node kind ⟨start, (← get).pos⟩ children

/-- More turns than a loop takes that reads a byte in each. -/
def turns : TypeReader Nat := return (← get).rest.length + 1

def separated (mark : Char) (item : TypeReader NodeId) : TypeReader (List NodeId) := do
  let turn := do
    let node ← item
    return if ← accept mark then .more node else .last node
  Reader.collect turn (← turns)

structure Grammar where
  union : TypeReader NodeId
  prefixed : TypeReader NodeId

namespace Grammar

variable (g : Grammar)

/-- Passes over `word` if a colon follows it, and over nothing otherwise. -/
def skipLabel (word : String) : TypeReader Unit := do
  let start ← get
  if ← acceptWord word then
    unless ← accept ':' do set start

/-- A parameter; a label says what it is for but leaves no trace. -/
def param : TypeReader NodeId := do
  skipLabel "this"
  skipLabel "new"
  g.union

/-- What follows the word `function`, which began at `start`. -/
def function (start : Nat) : TypeReader NodeId := do
  require '('
  let paramsStart := (← get).pos
  let params ← do
    if ← accept ')' then pure []
    else
      let params ← separated ',' g.param
      require ')'
      pure params
  let params ← node .params paramsStart params
  if ← accept ':' then
    let result ← g.prefixed
    node .function start [params, result]
  else node .function start [params]

/-- A name with its arguments. A dot at the end of the name belongs to the bracket after it. -/
def named (start : Nat) : TypeReader NodeId := do
  let run := (← get).rest.takeWhile Byte.isTypeNamePart
  modify (·.advance run.length)
  let name := if run.getLast? == some '.'.toUInt8 then run.dropLast else run
  if name = [] then fail
  let arguments ← do
    if ← accept '<' then
      let arguments ← separated ',' g.union
      require '>'
      pure arguments
    else pure []
  node (.typeName (Utf8.decode name)) start arguments

def basicRule : TypeReader NodeId := do
  let start ← position
  if ← accept '(' then
    let inner ← g.union
    require ')'
    return inner
  else if ← acceptWord "function" then g.function start
  else g.named start

/-- Whether a byte, or the end of the text, ends a type. -/
def endsType (b : Option UInt8) : Bool :=
  match b with
  | none => true
  | some b => (ascii "|,>)=\x7d").contains b

def prefixedRule : TypeReader NodeId := do
  let start ← position
  let type ← do
    if ← accept '?' then
      if endsType (← peek) then node .typeUnknown start []
      else
        let inner ← g.prefixed
        node .typeNullable start [inner]
    else if ← accept '!' then
      let inner ← g.prefixed
      node .typeNonNull start [inner]
    else if ← accept '*' then node .typeAll start []
    else if (ascii "...").isPrefixOf (← get).rest then
      modify (·.advance 3)
      g.prefixed
    else g.basicRule
  let _ ← accept '='
  return type

def unionRule : TypeReader NodeId := do
  let start ← position
  match ← separated '|' g.prefixedRule with
  | [type] => return type
  | types => node .typeUnion start types

def next : Grammar := ⟨g.unionRule, g.prefixedRule⟩

/-- The rules, to be applied at most `depth` deep. -/
def within : Nat → Grammar
  | 0 => ⟨throw .exhausted, throw .exhausted⟩
  | depth + 1 => (within depth).next

end Grammar

def whole : TypeReader NodeId := do
  let type ← (Grammar.within (← turns)).union
  if (← peek).isSome then fail
  return type

end TypeReader

/-- Reads a type that begins at a position of the source and gives the root of its tree. -/
def Build.typeExpression (text : Cursor) : Build NodeId :=
  TypeReader.whole.run' text

end ScriptIndex
