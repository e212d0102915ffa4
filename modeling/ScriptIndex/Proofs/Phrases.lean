import ScriptIndex.Arena.Basic
import ScriptIndex.Proofs.Lexemes

/-! # Phrases

The constructs of the grammar as trees, how each of them is written, and the tree of nodes that it stands
for. Every expression inside another phrase is written in parentheses. An `if` with an `else` holds a
`Closed` statement before the `else`, one that does not end in an `if` without one: another `if` would take
the `else`. -/

namespace ScriptIndex

/-- A tree of nodes. -/
inductive Tree
  | node (kind : Kind) (children : List Tree)

namespace Phrase

/-- A word in ASCII. -/
structure Word where
  text : String
  isWord : isWord (Utf8.encode text) = true

/-- A word that is no keyword. -/
structure Identifier extends Word where
  notKeyword : ∀ entry ∈ TokenKind.keywords, entry.1 ≠ text

/-- The inside of a string literal in which every character stands for itself. -/
structure Literal where
  text : String
  plain : ∀ c ∈ text.toList, c ≠ '\n' ∧ c ≠ '\\' ∧ c ≠ '"' ∧ c ≠ '\''

/-- A number in decimal digits, perhaps with a dot and more digits. -/
structure Digits where
  whole : List (Fin 10)
  whole_ne_nil : whole ≠ []
  fraction : Option (List (Fin 10))

mutual

/-- What may be assigned to. -/
inductive Target
  | name (x : Identifier)
  | property (receiver : Expression) (name : Word)
  | element (receiver index : Expression)

inductive Expression
  | target (t : Target)
  | call (callee : Expression) (arguments : List Expression)
  | assign (target : Target) (value : Expression)
  | binary (op : BinaryOp) (left right : Expression)
  | unary (op : UnaryOp) (operand : Expression)
  | object (members : List Member)
  | array (elements : List Expression)
  | function (f : Function)
  | number (digits : Digits)
  | string (text : Literal)
  | trueValue
  | falseValue
  | nullValue
  | thisValue

inductive Member
  | mk (key : Literal) (value : Expression)

inductive Function
  | mk (name : Option Identifier) (params : List Identifier) (body : List Statement)

inductive Variable
  | declared (x : Identifier)
  | initialized (x : Identifier) (value : Expression)

/-- A statement that may stand before an `else`. -/
inductive Closed
  | block (body : List Statement)
  | declaration (word : VarWord) (first : Variable) (rest : List Variable)
  | function (f : Function)
  | ifElse (test : Expression) (holds fails : Closed)
  | returnNothing
  | returnValue (value : Expression)
  | empty
  | expression (e : Expression)

inductive Statement
  | closed (s : Closed)
  | ifThen (test : Expression) (holds : Statement)
  | ifElse (test : Expression) (holds : Closed) (fails : Statement)

end

/-! ## How phrases are written -/

open Lexeme

def Word.lexeme (x : Word) : Lexeme := ⟨wordKind (Utf8.encode x.text), Utf8.encode x.text⟩

def Identifier.lexeme (x : Identifier) : Lexeme := ⟨.identifier, Utf8.encode x.text⟩

def Literal.lexeme (x : Literal) : Lexeme :=
  ⟨.stringLiteral, Byte.doubleQuote :: (Utf8.encode x.text ++ [Byte.doubleQuote])⟩

def digit (d : Fin 10) : UInt8 := UInt8.ofNat (0x30 + d.val)

def Digits.lexeme (x : Digits) : Lexeme :=
  ⟨.numberLiteral, numberBytes (x.whole.map digit) (x.fraction.map (·.map digit))⟩

def binarySign : BinaryOp → TokenKind
  | .add => .plus
  | .div => .slash
  | .equality => .equalsEquals
  | .greaterThan => .angleClose
  | .inequality => .bangEquals
  | .lessThan => .angleOpen
  | .logicalAnd => .andAnd
  | .logicalOr => .barBar
  | .mul => .star
  | .strictEquality => .equalsEqualsEquals
  | .strictInequality => .bangEqualsEquals
  | .sub => .minus

def unarySign : UnaryOp → TokenKind
  | .neg => .minus
  | .not => .bang
  | .plus => .plus
  | .typeof => .typeofWord
  | .void => .voidWord

def declarationWord : VarWord → TokenKind
  | .var => .varWord
  | .let => .letWord
  | .const => .constWord

def parens (words : List Lexeme) : List Lexeme :=
  fixed .parenOpen :: (words ++ [fixed .parenClose])

theorem length_parens (ws : List Lexeme) : (parens ws).length = ws.length + 2 := by
  simp [parens]

theorem parens_append (ws rest : List Lexeme) :
    parens ws ++ rest = fixed .parenOpen :: (ws ++ fixed .parenClose :: rest) := by
  simp [parens]

/-- Parts with commas between them. -/
def commas : List (List Lexeme) → List Lexeme
  | [] => []
  | [part] => part
  | part :: parts => part ++ fixed .comma :: commas parts

theorem commas_cons_cons (p q : List Lexeme) (parts : List (List Lexeme)) :
    commas (p :: q :: parts) = p ++ fixed .comma :: commas (q :: parts) := rfl

theorem length_le_commas {part : List Lexeme} : ∀ {parts : List (List Lexeme)}, part ∈ parts →
    part.length ≤ (commas parts).length
  | [p], h => by
    cases List.mem_singleton.1 h
    exact Nat.le_refl _
  | p :: q :: parts, h => by
    rw [commas_cons_cons, List.length_append, List.length_cons]
    rcases List.mem_cons.1 h with rfl | h
    · exact Nat.le_add_right _ _
    · have hle := length_le_commas h
      omega

mutual

def Target.words : Target → List Lexeme
  | .name x => [x.lexeme]
  | .property receiver name => parens receiver.words ++ [fixed .dot, name.lexeme]
  | .element receiver index =>
    parens receiver.words ++ fixed .bracketOpen :: (parens index.words ++ [fixed .bracketClose])

def Expression.words : Expression → List Lexeme
  | .target t => t.words
  | .call callee arguments =>
    parens callee.words ++ fixed .parenOpen :: (commas (operands arguments) ++ [fixed .parenClose])
  | .assign target value => parens target.words ++ fixed .equals :: parens value.words
  | .binary op left right => parens left.words ++ fixed (binarySign op) :: parens right.words
  | .unary op operand => fixed (unarySign op) :: parens operand.words
  | .object members => fixed .braceOpen :: (commas (memberParts members) ++ [fixed .braceClose])
  | .array elements => fixed .bracketOpen :: (commas (operands elements) ++ [fixed .bracketClose])
  | .function f => f.words
  | .number digits => [digits.lexeme]
  | .string text => [text.lexeme]
  | .trueValue => [fixed .trueLiteral]
  | .falseValue => [fixed .falseLiteral]
  | .nullValue => [fixed .nullLiteral]
  | .thisValue => [fixed .thisWord]

def operands : List Expression → List (List Lexeme)
  | [] => []
  | e :: es => parens e.words :: operands es

def Member.words : Member → List Lexeme
  | .mk key value => key.lexeme :: fixed .colon :: parens value.words

def memberParts : List Member → List (List Lexeme)
  | [] => []
  | m :: ms => m.words :: memberParts ms

def Function.words : Function → List Lexeme
  | .mk name params body =>
    fixed .functionWord :: (name.toList.map Identifier.lexeme ++ fixed .parenOpen ::
      (commas (params.map fun x => [x.lexeme]) ++ fixed .parenClose :: fixed .braceOpen ::
        (statementWords body ++ [fixed .braceClose])))

def Variable.words : Variable → List Lexeme
  | .declared x => [x.lexeme]
  | .initialized x value => x.lexeme :: fixed .equals :: parens value.words

def variableParts : List Variable → List (List Lexeme)
  | [] => []
  | v :: vs => v.words :: variableParts vs

def Closed.words : Closed → List Lexeme
  | .block body => fixed .braceOpen :: (statementWords body ++ [fixed .braceClose])
  | .declaration word first rest =>
    fixed (declarationWord word) :: (commas (first.words :: variableParts rest) ++ [fixed .semicolon])
  | .function f => f.words
  | .ifElse test holds fails =>
    fixed .ifWord :: (parens (parens test.words) ++ (holds.words ++ fixed .elseWord :: fails.words))
  | .returnNothing => [fixed .returnWord, fixed .semicolon]
  | .returnValue value => fixed .returnWord :: (parens value.words ++ [fixed .semicolon])
  | .empty => [fixed .semicolon]
  | .expression e => parens e.words ++ [fixed .semicolon]

def Statement.words : Statement → List Lexeme
  | .closed s => s.words
  | .ifThen test holds => fixed .ifWord :: (parens (parens test.words) ++ holds.words)
  | .ifElse test holds fails =>
    fixed .ifWord :: (parens (parens test.words) ++ (holds.words ++ fixed .elseWord :: fails.words))

def statementWords : List Statement → List Lexeme
  | [] => []
  | s :: ss => s.words ++ statementWords ss

end

/-- A script, its tokens separated by spaces. -/
def printed (script : List Statement) : List UInt8 :=
  (ascii " ").intercalate ((statementWords script).map Lexeme.bytes)

example : printed [.closed (.expression (.call (.target (.name ⟨⟨"f", by decide⟩, by decide⟩)) [.thisValue]))] =
    ascii "( ( f ) ( ( this ) ) ) ;" := by decide

/-! ## The nodes that phrases stand for -/

/-- The number that the digits denote. -/
def Digits.numeral (x : Digits) : Numeral :=
  let fraction := x.fraction.getD []
  ⟨(x.whole ++ fraction).foldl (fun n d => n * 10 + d.val) 0, fraction.length⟩

def Identifier.tree (x : Identifier) : Tree := .node (.name x.text) []

mutual

def Target.tree : Target → Tree
  | .name x => x.tree
  | .property receiver name => .node (.property name.text) [receiver.tree]
  | .element receiver index => .node .element [receiver.tree, index.tree]

def Expression.tree : Expression → Tree
  | .target t => t.tree
  | .call callee arguments => .node .call (callee.tree :: expressionTrees arguments)
  | .assign target value => .node .assign [target.tree, value.tree]
  | .binary op left right => .node (.binary op) [left.tree, right.tree]
  | .unary op operand => .node (.unary op) [operand.tree]
  | .object members => .node .object (memberTrees members)
  | .array elements => .node .array (expressionTrees elements)
  | .function f => f.tree
  | .number digits => .node (.number digits.numeral.toBinary64) []
  | .string text => .node (.string text.text) []
  | .trueValue => .node .trueValue []
  | .falseValue => .node .falseValue []
  | .nullValue => .node .nullValue []
  | .thisValue => .node .thisValue []

def expressionTrees : List Expression → List Tree
  | [] => []
  | e :: es => e.tree :: expressionTrees es

def Member.tree : Member → Tree
  | .mk key value => .node (.key key.text) [value.tree]

def memberTrees : List Member → List Tree
  | [] => []
  | m :: ms => m.tree :: memberTrees ms

/-- A function without a name has an empty one. -/
def Function.tree : Function → Tree
  | .mk name params body => .node .function [(name.map Identifier.tree).getD (.node (.name "") []),
      .node .params (params.map Identifier.tree), .node .block (statementTrees body)]

def Variable.tree : Variable → Tree
  | .declared x => x.tree
  | .initialized x value => .node (.name x.text) [value.tree]

def variableTrees : List Variable → List Tree
  | [] => []
  | v :: vs => v.tree :: variableTrees vs

def Closed.tree : Closed → Tree
  | .block body => .node .block (statementTrees body)
  | .declaration word first rest => .node (.declaration word) (first.tree :: variableTrees rest)
  | .function f => f.tree
  | .ifElse test holds fails => .node .ifStatement [test.tree, holds.tree, fails.tree]
  | .returnNothing => .node .returnStatement []
  | .returnValue value => .node .returnStatement [value.tree]
  | .empty => .node .emptyStatement []
  | .expression e => .node .expressionStatement [e.tree]

def Statement.tree : Statement → Tree
  | .closed s => s.tree
  | .ifThen test holds => .node .ifStatement [test.tree, holds.tree]
  | .ifElse test holds fails => .node .ifStatement [test.tree, holds.tree, fails.tree]

def statementTrees : List Statement → List Tree
  | [] => []
  | s :: ss => s.tree :: statementTrees ss

end

def tree (module : Option ModuleId) (script : List Statement) : Tree :=
  .node (.script module) (statementTrees script)

end Phrase

end ScriptIndex
