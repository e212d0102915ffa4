import ScriptIndex.Script.Expression
import ScriptIndex.Comment.Reading

/-! # Statements and scripts

    statement ::= ';' | block | function | declaration | if | return | assignment [ ';' ]
    declaration ::= word name [ '=' assignment ] { ',' name [ '=' assignment ] } [ ';' ]
    if        ::= 'if' '(' assignment ')' statement [ 'else' statement ]
    return    ::= 'return' [ assignment ] [ ';' ]

The documentation before a statement is read after the statement. Whoever calls a rule of a deeper
level has read a token since the level above, so as many levels as there are tokens suffice. -/

namespace ScriptIndex.ScriptReader

namespace Grammar

variable (g : Grammar)

def variableRule : ScriptReader NodeId := do
  let t ← require .identifier
  if (← accept .equals).isSome then
    let value ← g.assignmentRule
    node (.name t.text) t [value]
  else node (.name t.text) t []

def declaration (word : VarWord) : ScriptReader NodeId := do
  let start ← consume
  let turn := do
    let name ← g.variableRule
    return if (← accept .comma).isSome then .more name else .last name
  let names ← Reader.collect turn (← turns)
  let _ ← accept .semicolon
  node (.declaration word) start names

def ifRule : ScriptReader NodeId := do
  let start ← require .ifWord
  let _ ← require .parenOpen
  let test ← g.assignmentRule
  let _ ← require .parenClose
  let holds ← g.statement
  if (← accept .elseWord).isSome then
    let fails ← g.statement
    node .ifStatement start [test, holds, fails]
  else node .ifStatement start [test, holds]

def endsReturn (t : Token) : Bool :=
  t.kind = .semicolon || t.kind = .braceClose || t.kind = .eof

def returnRule : ScriptReader NodeId := do
  let start ← consume
  if endsReturn (← peek) then
    let _ ← accept .semicolon
    node .returnStatement start []
  else
    let value ← g.assignmentRule
    let _ ← accept .semicolon
    node .returnStatement start [value]

/-- A statement that documentation before it describes itself. -/
def itself (statement : NodeId) : NodeId × NodeId := (statement, statement)

/-- A statement, and the node that documentation before it describes. In an expression statement that is
the expression. -/
def undocumented : ScriptReader (NodeId × NodeId) := do
  let start ← peek
  match start.kind with
  | .braceOpen => itself <$> g.block
  | .varWord => itself <$> g.declaration .var
  | .letWord => itself <$> g.declaration .let
  | .constWord => itself <$> g.declaration .const
  | .functionWord => itself <$> g.function
  | .ifWord => itself <$> g.ifRule
  | .returnWord => itself <$> g.returnRule
  | .semicolon => return itself (← leaf .emptyStatement (← consume))
  | _ =>
    let expression ← g.assignmentRule
    let _ ← accept .semicolon
    let statement ← node .expressionStatement start [expression]
    return (statement, expression)

def statementRule : ScriptReader NodeId := do
  let doc := (← peek).doc
  let (statement, described) ← g.undocumented
  if let some text := doc then
    let _ ← Build.document described ⟨text.span.start, text.bytes⟩
  return statement

def next : Grammar := ⟨g.statementRule, g.assignmentRule, g.binaryRule, g.unaryRule⟩

/-- The rules, to be applied at most `depth` deep. -/
def within : Nat → Grammar
  | 0 => ⟨throw .exhausted, throw .exhausted, fun _ => throw .exhausted, throw .exhausted⟩
  | depth + 1 => (within depth).next

end Grammar

/-- A whole script. It spans its source. -/
def script (module : Option ModuleId) : ScriptReader NodeId := do
  let g := Grammar.within (← turns)
  let turn := do
    if (← peek).kind = .eof then return .stop
    else return .more (← g.statement)
  let body ← Reader.collect turn (← turns)
  let last ← peek
  Build.node (.script module) ⟨0, last.span.stop⟩ body

/-- The expression that a source begins with. -/
def expression : ScriptReader NodeId := do
  (Grammar.within (← turns)).assignment

end ScriptIndex.ScriptReader
