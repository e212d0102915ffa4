import ScriptIndex.Arena.Basic

/-! # Descendants

An iterator over a tree keeps the nodes that it has yet to go through on a stack. -/

namespace ScriptIndex

structure Descendants where
  arena : Arena
  /-- The next node comes first. -/
  stack : List NodeId
deriving Repr, DecidableEq

/-- Goes through a node and all that is below it. -/
def Arena.descendants (arena : Arena) (root : NodeId) : Descendants := ⟨arena, [root]⟩

namespace Descendants

/-- A node is followed by its children. -/
def next? (it : Descendants) : Option (NodeId × Descendants) :=
  match it.stack with
  | [] => none
  | node :: rest => some (node, { it with stack := it.arena.children node ++ rest })

/-- The iterator comes to an end, and has given these nodes by then. -/
inductive Yields : Descendants → List NodeId → Prop
  | done {it : Descendants} : it.next? = none → Yields it []
  | next {it after : Descendants} {node : NodeId} {nodes : List NodeId} :
      it.next? = some (node, after) → Yields after nodes → Yields it (node :: nodes)

end Descendants

end ScriptIndex
