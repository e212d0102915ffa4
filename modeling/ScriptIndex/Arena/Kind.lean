import ScriptIndex.Number.Binary64

/-! # Kinds of nodes

The comments give the children that a parsed node of the kind has. -/

namespace ScriptIndex

/-- The compilation module that a script belongs to. -/
abbrev ModuleId := Nat

inductive VarWord
  | var | let | const
deriving Repr, DecidableEq

inductive BinaryOp
  | add | div | equality | greaterThan | inequality | lessThan | logicalAnd | logicalOr | mul
  | strictEquality | strictInequality | sub
deriving Repr, DecidableEq

inductive UnaryOp
  | neg | not | plus | typeof | void
deriving Repr, DecidableEq

inductive Kind
  /-- The scripts of one region. -/
  | root
  | script (module : Option ModuleId)
  | block
  /-- Names; the only child of a name is its initial value. -/
  | declaration (word : VarWord)
  | expressionStatement
  /-- The returned expression, if any. -/
  | returnStatement
  /-- The test, the statement for when it holds, and perhaps the one for when it does not. -/
  | ifStatement
  | emptyStatement
  /-- The name, which is empty if there is none, the parameter list and the body. In a type, the
  parameter list and perhaps the type of the result. -/
  | function
  | params
  | name (text : String)
  | property (text : String)
  | element
  | call
  | assign
  | binary (op : BinaryOp)
  | unary (op : UnaryOp)
  | object
  | key (text : String)
  | array
  | number (value : Binary64)
  | string (text : String)
  | trueValue
  | falseValue
  | nullValue
  | thisValue
  | typeName (text : String)
  | typeUnion
  | typeNullable
  | typeNonNull
  | typeAll
  | typeUnknown
deriving Repr, DecidableEq

namespace Kind

def isTarget : Kind → Bool
  | name _ | property _ | element => true
  | _ => false

end Kind

end ScriptIndex
