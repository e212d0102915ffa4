import ScriptIndex.Arena.Basic

/-! # Names in an arena

Which nodes are names and functions, what a dotted path of names is called, and which node names a
function. A chain of receivers in a forest is no longer than the arena, so the recursions along it
go `arena.size` steps deep. -/

namespace ScriptIndex.Arena

variable (arena : Arena)

def isName (node : NodeId) : Bool :=
  match arena.kind? node with
  | some (.name _) => true
  | _ => false

def isProperty (node : NodeId) : Bool :=
  match arena.kind? node with
  | some (.property _) => true
  | _ => false

def isKey (node : NodeId) : Bool :=
  match arena.kind? node with
  | some (.key _) => true
  | _ => false

def isFunction (node : NodeId) : Bool := arena.kind? node == some .function

def isExpressionStatement (node : NodeId) : Bool := arena.kind? node == some .expressionStatement

def isObject (node : NodeId) : Bool := arena.kind? node == some .object

def nameText? (node : NodeId) : Option String :=
  match arena.kind? node with
  | some (.name text) => some text
  | _ => none

/-- The text of a name node, unless it is empty. -/
def givenName? (node : NodeId) : Option String :=
  (arena.nameText? node).filter (· != "")

def inStatementPosition (node : NodeId) : Bool :=
  match (arena.parent? node).bind arena.kind? with
  | some (.script _) | some .block => true
  | _ => false

/-- A function with a name of its own that stands where a statement does. -/
def isFunctionDeclaration (node : NodeId) : Bool :=
  arena.isFunction node && ((arena.firstChild? node).bind arena.givenName?).isSome
    && arena.inStatementPosition node

/-- Any other function, those in types included. -/
def isFunctionExpression (node : NodeId) : Bool :=
  arena.isFunction node && !arena.isFunctionDeclaration node

/-- Whether the node is a qualified name of at most `depth` parts. -/
def isQualifiedWithin : Nat → NodeId → Bool
  | 0, _ => false
  | depth + 1, node =>
    match arena.kind? node with
    | some (.name text) => text != ""
    | some .thisValue => true
    | some (.property _) => (arena.firstChild? node).any (isQualifiedWithin depth)
    | _ => false

/-- A name, `this`, or a property of a qualified name. -/
def isQualified (node : NodeId) : Bool := arena.isQualifiedWithin arena.size node

def qualifiedNameWithin? : Nat → NodeId → Option String
  | 0, _ => none
  | depth + 1, node =>
    match arena.kind? node with
    | some (.name text) => if text != "" then some text else none
    | some .thisValue => some "this"
    | some (.property text) =>
      ((arena.firstChild? node).bind (qualifiedNameWithin? depth)).map (· ++ "." ++ text)
    | _ => none

/-- The dotted path of a qualified name. -/
def qualifiedName? (node : NodeId) : Option String := arena.qualifiedNameWithin? arena.size node

def sameQualifiedWithin : Nat → NodeId → NodeId → Bool
  | 0, _, _ => false
  | depth + 1, a, b =>
    match arena.kind? a, arena.kind? b with
    | some (.name x), some (.name y) => x != "" && x == y
    | some .thisValue, some .thisValue => true
    | some (.property x), some (.property y) =>
      x == y && match arena.firstChild? a, arena.firstChild? b with
        | some a, some b => sameQualifiedWithin depth a b
        | _, _ => false
    | _, _ => false

/-- Whether two nodes are the same qualified name. What is no qualified name is the same as
nothing. -/
def sameQualified (a b : NodeId) : Bool := arena.sameQualifiedWithin arena.size a b

def isImmutableWithin : Nat → NodeId → Bool
  | 0, _ => false
  | depth + 1, node =>
    match arena.kind? node with
    | some (.string _) | some (.number _) | some .trueValue | some .falseValue | some .nullValue => true
    | some (.name text) => text == "undefined" || text == "Infinity" || text == "NaN"
    | some (.unary op) => op != .typeof && (arena.firstChild? node).any (isImmutableWithin depth)
    | _ => false

/-- Literals, the names of constants, and operators other than `typeof` on such values. -/
def isImmutable (node : NodeId) : Bool := arena.isImmutableWithin arena.size node

/-- The node that names a function: the variable or object key it is the value of, the target it is
assigned to, or otherwise its own name. -/
def functionName? (function : NodeId) : Option NodeId :=
  let own := (arena.firstChild? function).filter fun name => (arena.givenName? name).isSome
  match arena.parent? function with
  | none => own
  | some parent =>
    match arena.kind? parent with
    | some (.name _) | some (.key _) => some parent
    | some .assign =>
      if arena.child? parent 1 == some function then arena.firstChild? parent else own
    | _ => own

def preorderWithin : Nat → NodeId → List NodeId
  | 0, _ => []
  | depth + 1, node => node :: (arena.children node).flatMap (preorderWithin depth)

/-- The node and everything below it, a parent before its children and those in order. -/
def preorder (root : NodeId) : List NodeId := arena.preorderWithin arena.size root

end ScriptIndex.Arena
