import ScriptIndex.Arena.Walk

/-! # Traversals with callbacks

A traversal goes through a tree and asks a callback at each node whether to go into it, and what to do
there. It keeps the module and the scopes that it is in as a state, which it changes on its way down and
puts back on its way up. From a node, a callback may start traversals of other trees, which begin in the
state that the node is in. The policies of walks are such callbacks. -/

namespace ScriptIndex

/-- Where a traversal is. -/
structure Context where
  module : Option ModuleId
  /-- The nodes that opened the scopes, the innermost first. -/
  scopes : List NodeId
deriving Repr, DecidableEq

namespace Context

def outermost : Context := ⟨none, []⟩

/-- What a callback sees of it. -/
def place (c : Context) : Place := ⟨c.module, c.scopes.isEmpty⟩

end Context

/-- What a callback does at a node. It ends in a state of its own, or has another tree traversed first and
goes on from the place and the state it is in then. -/
inductive Response (σ : Type)
  | done (state : σ)
  | traverse (root : NodeId) (state : σ) (resume : Place → σ → Response σ)

/-- Callbacks are told a node, the node that it was reached from and the place around it; `visit` is told
the place of the node itself. -/
structure Callback (σ : Type) where
  enters : Place → NodeId → Option NodeId → σ → Bool × σ
  visit : Place → NodeId → Option NodeId → σ → Response σ

/-- A call to a callback, with the traversals that were started in it: their roots and their calls. -/
inductive Call
  | mk (arrival : Arrival) (started : List (NodeId × List Call))

def Call.arrival : Call → Arrival
  | mk arrival _ => arrival

/-- The state of a traversal and that of its callback. -/
structure TraversalState (σ : Type) where
  context : Context
  state : σ

/-- A part of a traversal. -/
abbrev Traversal (σ : Type) := StateM (TraversalState σ)

namespace Traversal

variable {σ α : Type}

def inModule (module : Option ModuleId) (x : Traversal σ α) : Traversal σ α := do
  let outer := (← get).context.module
  modify fun t => { t with context := { t.context with module } }
  let a ← x
  modify fun t => { t with context := { t.context with module := outer } }
  return a

def inScope (node : NodeId) (x : Traversal σ α) : Traversal σ α := do
  modify fun t => { t with context := { t.context with scopes := node :: t.context.scopes } }
  let a ← x
  modify fun t => { t with context := { t.context with scopes := t.context.scopes.tail } }
  return a

def place : Traversal σ Place := return (← get).context.place

/-- Whether the callback lets the traversal into a node. -/
def enters (callback : Callback σ) (parent : Option NodeId) (node : NodeId) : Traversal σ Bool :=
  modifyGet fun t =>
    let (enters, state) := callback.enters t.context.place node parent t.state
    (enters, { t with state })

/-- Does what the callback answers, given how to traverse a tree. -/
def follow (traverse : NodeId → Traversal σ (List Call)) :
    Response σ → Traversal σ (List (NodeId × List Call))
  | .done state => do
    modify fun t => { t with state }
    return []
  | .traverse root state resume => do
    modify fun t => { t with state }
    let calls ← traverse root
    let t ← get
    return (root, calls) :: (← follow traverse (resume t.context.place t.state))

def visit (callback : Callback σ) (traverse : NodeId → Traversal σ (List Call)) (parent : Option NodeId)
    (node : NodeId) : Traversal σ Call := do
  let t ← get
  let here := t.context.place
  let started ← follow traverse (callback.visit here node parent t.state)
  return ⟨⟨node, parent, here, true⟩, started⟩

/-- The calls at the nodes of a list, one node after the other. -/
def each (branch : NodeId → Traversal σ (List Call)) : List NodeId → Traversal σ (List Call)
  | [] => return []
  | node :: rest => do
    let calls ← branch node
    return calls ++ (← each branch rest)

end Traversal

open Traversal in
/-- Traverses what is below a node that is reached from `parent`, at most `depth` deep, and gives the calls
made to the callback. -/
def Arena.branch {σ : Type} (arena : Arena) (callback : Callback σ) :
    Nat → Option NodeId → NodeId → Traversal σ (List Call)
  | 0, _, _ => return []
  | depth + 1, parent, node => do
    if ← enters callback parent node then
      let visit := visit callback (branch arena callback depth none) parent node
      let below := each (branch arena callback depth (some node))
      let children := arena.children node
      match arena.kind? node with
      | some (.script module) => inModule module do
        return (← visit) :: (← below children)
      | some .function =>
        let call ← visit
        -- the name of a declaration stands outside the scope of the function
        let outside := if arena.isFunctionDeclaration node then 1 else 0
        let name ← below (children.take outside)
        let rest ← inScope node (below (children.drop outside))
        return call :: (name ++ rest)
      | some .block =>
        let call ← visit
        if parent.any arena.isFunction then return call :: (← below children)
        else return call :: (← inScope node (below children))
      | _ => return (← visit) :: (← below children)
    else return [⟨⟨node, parent, ← place, false⟩, []⟩]

/-- Traverses a tree, as one whose root has no parent. -/
def Arena.traverse {σ : Type} (arena : Arena) (callback : Callback σ) (depth : Nat) (root : NodeId) :
    Traversal σ (List Call) :=
  arena.branch callback depth none root

/-- A response that has trees traversed one after the other. -/
def Response.through {σ : Type} : List NodeId → (Place → σ → Response σ) → Place → σ → Response σ
  | [], resume, place, state => resume place state
  | root :: rest, resume, _, state => .traverse root state (through rest resume)

/-- The callback that keeps to a policy and takes note of each arrival. -/
def Policy.callback {σ : Type} (policy : Policy) (arena : Arena) (note : σ → Arrival → σ) : Callback σ where
  enters around node parent state :=
    let entered := policy.enters node parent
    (entered, if entered then state else note state ⟨node, parent, around, false⟩)
  visit here node parent state :=
    let arrival : Arrival := ⟨node, parent, here, true⟩
    match policy.types with
    | .never => .done (note state arrival)
    | .beforeOwner =>
      .through (arena.typeRoots node) (fun _ state => .done (note state arrival)) here state
    | .afterOwner => .through (arena.typeRoots node) (fun _ => .done) here (note state arrival)

end ScriptIndex
