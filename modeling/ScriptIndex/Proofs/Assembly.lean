import Mathlib.Logic.Relation
import Mathlib.Tactic.SplitIfs
import ScriptIndex.Program
import ScriptIndex.Proofs.Spelling

/-! # How an arena is assembled

Readers build trees from the leaves up. A node that has been made and is under no parent yet is
*pending*, in the role that its rule made it for; a node is made over pending nodes, which are then
pending no longer. `Step` lists all that a reader does to an arena, so that what every step keeps, every
program has. -/

namespace ScriptIndex

/-- What a pending node may become a part of. -/
inductive Role
  | script | block | function | statement
  /-- A statement, and the node that documentation before it describes. -/
  | stating (described : NodeId)
  | expression | target | variable | label | param | params | key | type | typeParams
deriving DecidableEq

namespace Role

/-- `Serves role n other`: a node `n` made in one role stands in another as well. -/
inductive Serves : Role → NodeId → Role → Prop
  | block (n : NodeId) : Serves block n statement
  | declared (n : NodeId) : Serves function n statement
  | expressed (n : NodeId) : Serves function n expression
  | itself (n : NodeId) : Serves statement n (stating n)
  | stating (described n : NodeId) : Serves (stating described) n statement

/-- The roles of nodes in types. -/
def IsType (role : Role) : Prop := role = type ∨ role = typeParams

/-- The roles of nodes that may be documented. -/
def IsStatement : Role → Prop
  | statement | stating _ => True
  | _ => False

end Role

/-- Nodes that wait for a parent, each in its role, the last one made first. -/
abbrev Pending := List (Role × NodeId)

namespace Kind

/-- Kinds of expressions without children. -/
def isAtom : Kind → Bool
  | name _ | number _ | string _ | trueValue | falseValue | nullValue | thisValue => true
  | _ => false

/-- Kinds that only types have. -/
def isType : Kind → Bool
  | typeName _ | typeUnion | typeNullable | typeNonNull | typeAll | typeUnknown => true
  | _ => false

/-- How many types a node of the kind may be made over, if it is of a type. -/
def takesTypes : Kind → Nat → Bool
  | typeName _, _ => true
  | typeUnion, count => 2 ≤ count
  | typeNullable, count | typeNonNull, count => count == 1
  | typeAll, count | typeUnknown, count => count == 0
  | _, _ => false

theorem isType_of_takesTypes {kind : Kind} {count : Nat} (h : kind.takesTypes count = true) :
    kind.isType = true := by
  cases kind with
  | typeName | typeUnion | typeNullable | typeNonNull | typeAll | typeUnknown => rfl
  | _ => cases h

/-- The kinds that a statement is a part of. -/
def holdsStatements : Kind → Bool
  | script _ | block | ifStatement => true
  | _ => false

end Kind

/-- `Forms kind children role`: a node of the kind over children in their roles has the role. -/
inductive Forms : Kind → Pending → Role → Prop
  | script {cs : Pending} (module : Option ModuleId) (h : ∀ c ∈ cs, c.1 = .statement) :
      Forms (.script module) cs .script
  | block {cs : Pending} (h : ∀ c ∈ cs, c.1 = .statement) : Forms .block cs .block
  | declaration {cs : Pending} (word : VarWord) (hne : cs ≠ []) (h : ∀ c ∈ cs, c.1 = .variable) :
      Forms (.declaration word) cs .statement
  | declared {text : String} (h : IsIdentifier text) : Forms (.name text) [] .variable
  | initialized {text : String} (h : IsIdentifier text) (e : NodeId) : Forms (.name text) [(.expression, e)] .variable
  | expressionStatement (e : NodeId) : Forms .expressionStatement [(.expression, e)] (.stating e)
  | returnNothing : Forms .returnStatement [] .statement
  | returnValue (e : NodeId) : Forms .returnStatement [(.expression, e)] .statement
  | ifThen (e s : NodeId) : Forms .ifStatement [(.expression, e), (.statement, s)] .statement
  | ifElse (e s s' : NodeId) :
      Forms .ifStatement [(.expression, e), (.statement, s), (.statement, s')] .statement
  | emptyStatement : Forms .emptyStatement [] .statement
  | function (l p b : NodeId) : Forms .function [(.label, l), (.params, p), (.block, b)] .function
  | params {cs : Pending} (h : ∀ c ∈ cs, c.1 = .param) : Forms .params cs .params
  | param {text : String} (h : IsIdentifier text) : Forms (.name text) [] .param
  /-- The name of a function may be empty. -/
  | label {text : String} (h : text = "" ∨ IsIdentifier text) : Forms (.name text) [] .label
  | atom {kind : Kind} (h : kind.isAtom = true) (hname : ∀ text, kind = .name text → IsIdentifier text) :
      Forms kind [] .expression
  | property {text : String} (h : IsWordText text) (e : NodeId) : Forms (.property text) [(.expression, e)] .expression
  | element (e e' : NodeId) : Forms .element [(.expression, e), (.expression, e')] .expression
  | call {cs : Pending} (e : NodeId) (h : ∀ c ∈ cs, c.1 = .expression) :
      Forms .call ((.expression, e) :: cs) .expression
  | assign (e e' : NodeId) : Forms .assign [(.target, e), (.expression, e')] .expression
  | binary (op : BinaryOp) (e e' : NodeId) :
      Forms (.binary op) [(.expression, e), (.expression, e')] .expression
  | unary (op : UnaryOp) (e : NodeId) : Forms (.unary op) [(.expression, e)] .expression
  | object {cs : Pending} (h : ∀ c ∈ cs, c.1 = .key) : Forms .object cs .expression
  | key (text : String) (e : NodeId) : Forms (.key text) [(.expression, e)] .key
  | array {cs : Pending} (h : ∀ c ∈ cs, c.1 = .expression) : Forms .array cs .expression
  | type {kind : Kind} {cs : Pending} (hk : kind.takesTypes cs.length = true) (h : ∀ c ∈ cs, c.1 = .type) :
      Forms kind cs .type
  | typeParams {cs : Pending} (h : ∀ c ∈ cs, c.1 = .type) : Forms .params cs .typeParams
  | typeFunction (p : NodeId) : Forms .function [(.typeParams, p)] .type
  | typeFunctionTo (p t : NodeId) : Forms .function [(.typeParams, p), (.type, t)] .type

namespace Forms
variable {kind : Kind} {cs : Pending} {role : Role} {c : Role × NodeId}

/-- Only types are formed of types, and of nothing else. -/
theorem isType_iff (h : Forms kind cs role) (hc : c ∈ cs) : c.1.IsType ↔ role.IsType := by
  cases h <;> grind [Role.IsType]

theorem holdsStatements (h : Forms kind cs role) (hc : c ∈ cs) (hr : c.1.IsStatement) :
    kind.holdsStatements = true := by
  cases h <;> grind [Kind.holdsStatements, Role.IsStatement]

theorem ne_root (h : Forms kind cs role) : kind ≠ .root := by
  cases h <;> grind [Kind.isAtom, Kind.takesTypes]

end Forms

/-- `after` is `arena` with one more node, made over the given children. -/
structure Made (arena : Arena) (kind : Kind) (span : Span) (children : List NodeId) (after : Arena) :
    Prop where
  size : after.size = arena.size + 1
  node? : ∀ n, after.node? n =
    if n = arena.size then some { kind, span, children }
    else if n ∈ children then (arena.node? n).map fun x => { x with parent := some arena.size }
    else arena.node? n

/-- `after` is `arena` with `child` as the last child of `parent`. -/
structure Attached (arena : Arena) (parent child : NodeId) (after : Arena) : Prop where
  size : after.size = arena.size
  node? : ∀ n, after.node? n =
    if n = parent then (arena.node? n).map fun x => { x with children := x.children ++ [child] }
    else if n = child then (arena.node? n).map fun x => { x with parent := some parent }
    else arena.node? n

/-- `after` is `arena` with documentation on a node. -/
structure Documented (arena : Arena) (node : NodeId) (doc : Doc) (after : Arena) : Prop where
  size : after.size = arena.size
  node? : ∀ n, after.node? n =
    if n = node then (arena.node? n).map fun x => { x with doc := some doc } else arena.node? n

namespace Made
variable {arena after : Arena} {kind : Kind} {span : Span} {children : List NodeId}

theorem kind? (h : Made arena kind span children after) (n : NodeId) :
    after.kind? n = if n = arena.size then some kind else arena.kind? n := by
  unfold Arena.kind?
  rw [h.node?]
  split_ifs
  · rfl
  · simp [Function.comp_def]
  · rfl

theorem children_eq (h : Made arena kind span children after) (n : NodeId) :
    after.children n = if n = arena.size then children else arena.children n := by
  unfold Arena.children
  rw [h.node?]
  split_ifs
  · rfl
  · cases arena.node? n <;> rfl
  · rfl

theorem parent? (h : Made arena kind span children after) (hc : ∀ c ∈ children, c < arena.size)
    (n : NodeId) : after.parent? n = if n ∈ children then some arena.size else arena.parent? n := by
  unfold Arena.parent?
  rw [h.node?]
  split_ifs with h1 h2 h2
  · exact absurd (hc n h2) (h1 ▸ Nat.lt_irrefl _)
  · simp [h1, Arena.node?_eq_none]
  · obtain ⟨x, hx⟩ := Arena.exists_node? (hc n h2)
    simp [hx]
  · rfl

theorem doc? (h : Made arena kind span children after) (n : NodeId) : after.doc? n = arena.doc? n := by
  unfold Arena.doc?
  rw [h.node?]
  split_ifs with h1
  · simp [h1, Arena.node?_eq_none]
  · cases arena.node? n <;> rfl
  · rfl

end Made

namespace Attached
variable {arena after : Arena} {parent child : NodeId}

theorem kind? (h : Attached arena parent child after) (n : NodeId) : after.kind? n = arena.kind? n := by
  unfold Arena.kind?
  rw [h.node?]
  split_ifs <;> simp [Function.comp_def]

theorem children_eq (h : Attached arena parent child after) (hp : parent < arena.size) (n : NodeId) :
    after.children n = if n = parent then arena.children n ++ [child] else arena.children n := by
  unfold Arena.children
  rw [h.node?]
  split_ifs with h1
  · obtain ⟨x, hx⟩ := Arena.exists_node? (h1 ▸ hp)
    simp [hx]
  · cases arena.node? n <;> rfl
  · rfl

theorem parent? (h : Attached arena parent child after) (hc : child < arena.size) (hne : child ≠ parent)
    (n : NodeId) : after.parent? n = if n = child then some parent else arena.parent? n := by
  unfold Arena.parent?
  rw [h.node?]
  split_ifs with h1 h2 h2
  · exact absurd (h2.symm.trans h1) hne
  · cases arena.node? n <;> rfl
  · obtain ⟨x, hx⟩ := Arena.exists_node? (h2 ▸ hc)
    simp [hx]
  · rfl

theorem doc? (h : Attached arena parent child after) (n : NodeId) : after.doc? n = arena.doc? n := by
  unfold Arena.doc?
  rw [h.node?]
  split_ifs <;> cases arena.node? n <;> rfl

end Attached

namespace Documented
variable {arena after : Arena} {node : NodeId} {doc : Doc}

theorem kind? (h : Documented arena node doc after) (n : NodeId) : after.kind? n = arena.kind? n := by
  unfold Arena.kind?
  rw [h.node?]
  split_ifs <;> simp [Function.comp_def]

theorem children_eq (h : Documented arena node doc after) (n : NodeId) :
    after.children n = arena.children n := by
  unfold Arena.children
  rw [h.node?]
  split_ifs <;> cases arena.node? n <;> rfl

theorem parent? (h : Documented arena node doc after) (n : NodeId) :
    after.parent? n = arena.parent? n := by
  unfold Arena.parent?
  rw [h.node?]
  split_ifs <;> cases arena.node? n <;> rfl

theorem doc? (h : Documented arena node doc after) (hn : node < arena.size) (n : NodeId) :
    after.doc? n = if n = node then some doc else arena.doc? n := by
  unfold Arena.doc?
  rw [h.node?]
  split_ifs with h1
  · obtain ⟨x, hx⟩ := Arena.exists_node? (h1 ▸ hn)
    simp [hx]
  · rfl

end Documented

structure Assembly where
  arena : Arena
  pending : Pending

namespace Assembly

inductive Step : Assembly → Assembly → Prop
  /-- A node is made over the nodes that were made last. -/
  | make {arena after : Arena} {kind : Kind} {span : Span} {role : Role} {children rest : Pending}
      (forms : Forms kind children role) (made : Made arena kind span (children.map Prod.snd) after) :
      Step ⟨arena, children.reverse ++ rest⟩ ⟨after, (role, arena.size) :: rest⟩
  | serve {arena : Arena} {role other : Role} {n : NodeId} {rest : Pending}
      (serves : role.Serves n other) : Step ⟨arena, (role, n) :: rest⟩ ⟨arena, (other, n) :: rest⟩
  /-- An expression of the right kind stands for a target. -/
  | aim {arena : Arena} {kind : Kind} {n : NodeId} {rest : Pending}
      (hk : arena.kind? n = some kind) (target : kind.isTarget = true) :
      Step ⟨arena, (.expression, n) :: rest⟩ ⟨arena, (.target, n) :: rest⟩
  /-- Documentation takes the types that were made last. -/
  | document {arena after : Arena} {described statement : NodeId} {doc : Doc} {rest : Pending}
      (documented : Documented arena described doc after) :
      Step ⟨arena, (doc.typeRoots.map (Role.type, ·)).reverse ++ (.stating described, statement) :: rest⟩
        ⟨after, (.stating described, statement) :: rest⟩
  /-- A script goes under the root of its region. -/
  | enroll {arena after : Arena} {root script : NodeId} {rest : Pending}
      (hr : arena.kind? root = some .root) (attached : Attached arena root script after) :
      Step ⟨arena, (.script, script) :: rest⟩ ⟨after, rest⟩
  /-- Nodes of what was refused stay without a parent. -/
  | abandon {arena : Arena} {pending rest : Pending} (h : rest.Sublist pending) :
      Step ⟨arena, pending⟩ ⟨arena, rest⟩

abbrev Steps : Assembly → Assembly → Prop := Relation.ReflTransGen Step

/-- All pending nodes are in the arena. -/
def Bounded (s : Assembly) : Prop := ∀ e ∈ s.pending, e.2 < s.arena.size

theorem Step.bounded {s s' : Assembly} (h : Step s s') (hs : s.Bounded) : s'.Bounded := by
  cases h with
  | make _ made =>
    intro e he
    rw [made.size]
    rcases List.mem_cons.1 he with rfl | he
    · exact Nat.lt_succ_self _
    · exact Nat.lt_succ_of_lt (hs e (List.mem_append_right _ he))
  | serve | aim =>
    intro e he
    rcases List.mem_cons.1 he with rfl | he
    · exact (List.forall_mem_cons.1 hs).1
    · exact (List.forall_mem_cons.1 hs).2 e he
  | document documented =>
    intro e he
    rw [documented.size]
    exact hs e (List.mem_append_right _ he)
  | enroll _ attached =>
    intro e he
    rw [attached.size]
    exact hs e (List.mem_cons_of_mem _ he)
  | abandon h => exact fun e he => hs e (h.subset he)

theorem Steps.bounded {s s' : Assembly} (h : Steps s s') (hs : s.Bounded) : s'.Bounded := by
  induction h with
  | refl => exact hs
  | tail _ h ih => exact h.bounded ih

end Assembly

end ScriptIndex
