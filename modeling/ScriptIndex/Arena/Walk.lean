import ScriptIndex.Arena.Name

/-! # Walks over a tree

A walk goes through a tree a parent before its children and reports each node with its place: the
module of the innermost script around it and whether any scope is open there. A policy may keep the
walk out of a node, and may send it through the types in a node's documentation, which it walks at the
node's own place, as trees without a parent. -/

namespace ScriptIndex

structure Place where
  module : Option ModuleId
  /-- Whether no scope is open. -/
  isGlobal : Bool
deriving Repr, DecidableEq

def Place.outermost : Place := ⟨none, true⟩

/-- The place of what a scope holds. -/
def Place.enclosed (place : Place) : Place := { place with isGlobal := false }

/-- When a walk goes through the types in a node's documentation. -/
inductive TypeOrder
  | never | beforeOwner | afterOwner
deriving Repr, DecidableEq

structure Policy where
  /-- Whether to walk a node and what is below it, given the parent it is reached from. -/
  enters : NodeId → Option NodeId → Bool
  types : TypeOrder

structure Arrival where
  node : NodeId
  /-- The node it was reached from; none for the root of a tree. -/
  parent : Option NodeId
  place : Place
  /-- Whether the walk went into it. -/
  entered : Bool
deriving Repr, DecidableEq

namespace Arena

variable (arena : Arena)

def placeAt (around : Place) (node : NodeId) : Place :=
  match arena.kind? node with
  | some (.script module) => { around with module }
  | _ => around

/-- Whether a block or function opens a scope for its children. The body of a function shares the
scope of the function. -/
def opensScope (node : NodeId) (parent : Option NodeId) : Bool :=
  match arena.kind? node with
  | some .function => true
  | some .block => !parent.any arena.isFunction
  | _ => false

/-- The children of a node, each with its place. The name of a function declaration stands outside the
scope of the function. -/
def childPlaces (here : Place) (node : NodeId) (parent : Option NodeId) : List (Place × NodeId) :=
  let inner := if arena.opensScope node parent then here.enclosed else here
  match arena.children node with
  | [] => []
  | first :: rest =>
    (if arena.isFunctionDeclaration node then here else inner, first) :: rest.map (inner, ·)

def walkWithin (policy : Policy) : Nat → Place → Option NodeId → NodeId → List Arrival
  | 0, _, _, _ => []
  | depth + 1, around, parent, node =>
    if policy.enters node parent then
      let here := arena.placeAt around node
      let types (order : TypeOrder) : List Arrival :=
        if policy.types = order then
          (arena.typeRoots node).flatMap (walkWithin policy depth here none)
        else []
      let below := (arena.childPlaces here node parent).flatMap fun (place, child) =>
        walkWithin policy depth place (some node) child
      types .beforeOwner ++ [⟨node, parent, here, true⟩] ++ types .afterOwner ++ below
    else [⟨node, parent, around, false⟩]

/-- The walk from a root, in order. A path of child and type links has at most `arena.size` nodes in
the arena and at most one beyond it, which is refused. -/
def walk (policy : Policy) (root : NodeId) : Except Failure (List Arrival) := do
  let arrivals := arena.walkWithin policy (arena.size + 1) .outermost none root
  arrivals.forM fun arrival => arena.check arrival.node
  return arrivals

end Arena

end ScriptIndex
