import ScriptIndex.Arena.Kind
import ScriptIndex.Comment.Doc
import ScriptIndex.SyntaxError

/-! # Arenas

An arena holds the nodes of all trees. A node is known by its index and is never removed, so that
other tables may be keyed by nodes. The functions that read an arena are total: outside it there is
no kind, no parent, no child and no documentation.

Indices are natural numbers and not words of 32 bits. The arenas that are meant have fewer than 2^32 nodes, so
that `Arena.push` never comes to an index that such a word could not hold. -/

namespace ScriptIndex

structure Node where
  kind : Kind
  span : Span
  parent : Option NodeId := none
  children : List NodeId := []
  doc : Option Doc := none
deriving Repr, DecidableEq

structure Arena where
  nodes : Array Node
deriving Repr, DecidableEq

/-- Why something was not done: a text was refused, an index lies outside the arena, or a loop ran
longer than its input allows. -/
inductive Failure
  | rejected (error : SyntaxError)
  | unknownNode (node : NodeId)
  | exhausted
deriving Repr, DecidableEq

namespace Arena

def empty : Arena := ⟨#[]⟩

def size (arena : Arena) : Nat := arena.nodes.size

def node? (arena : Arena) (node : NodeId) : Option Node := arena.nodes[node]?

def contains (arena : Arena) (node : NodeId) : Bool := node < arena.size

def check (arena : Arena) (node : NodeId) : Except Failure Unit :=
  if arena.contains node then .ok () else .error (.unknownNode node)

def kind? (arena : Arena) (node : NodeId) : Option Kind := (arena.node? node).map (·.kind)

def parent? (arena : Arena) (node : NodeId) : Option NodeId := (arena.node? node).bind (·.parent)

def children (arena : Arena) (node : NodeId) : List NodeId :=
  match arena.node? node with
  | some n => n.children
  | none => []

def child? (arena : Arena) (node : NodeId) (i : Nat) : Option NodeId := (arena.children node)[i]?

def firstChild? (arena : Arena) (node : NodeId) : Option NodeId := (arena.children node).head?

def doc? (arena : Arena) (node : NodeId) : Option Doc := (arena.node? node).bind (·.doc)

def typeRoots (arena : Arena) (node : NodeId) : List NodeId :=
  match arena.doc? node with
  | some doc => doc.typeRoots
  | none => []

def declares (arena : Arena) (node : NodeId) : Bool := (arena.doc? node).any (·.declares)

/-- Adds a node that is in no tree yet. Its index is the old size. -/
def push (arena : Arena) (kind : Kind) (span : Span) : NodeId × Arena :=
  (arena.size, ⟨arena.nodes.push { kind, span }⟩)

def pushRoot (arena : Arena) : NodeId × Arena := arena.push .root ⟨0, 0⟩

/-- Makes `child` the last child of `parent`. -/
def append (arena : Arena) (parent child : NodeId) : Except Failure Arena := do
  arena.check child
  arena.check parent
  let nodes := arena.nodes.modify child fun n => { n with parent := some parent }
  return ⟨nodes.modify parent fun n => { n with children := n.children ++ [child] }⟩

def setDoc (arena : Arena) (node : NodeId) (doc : Doc) : Except Failure Arena := do
  arena.check node
  return ⟨arena.nodes.modify node fun n => { n with doc := some doc }⟩

theorem contains_iff {arena : Arena} {node : NodeId} : arena.contains node = true ↔ node < arena.size := by
  simp [contains]

@[simp] theorem size_push (arena : Arena) (kind : Kind) (span : Span) :
    (arena.push kind span).2.size = arena.size + 1 := by
  simp [push, size]

@[simp] theorem fst_push (arena : Arena) (kind : Kind) (span : Span) :
    (arena.push kind span).1 = arena.size := rfl

theorem node?_push (arena : Arena) (kind : Kind) (span : Span) (node : NodeId) :
    (arena.push kind span).2.node? node
      = if node = arena.size then some { kind, span } else arena.node? node := by
  simp only [push, node?, Array.getElem?_push]
  rfl

theorem node?_eq_none {arena : Arena} {n : NodeId} (h : arena.size ≤ n) : arena.node? n = none := by
  simp [node?, show arena.nodes.size ≤ n from h]

theorem exists_node? {arena : Arena} {n : NodeId} (h : n < arena.size) : ∃ x, arena.node? n = some x :=
  ⟨arena.nodes[n], Array.getElem?_eq_getElem h⟩

theorem le_of_node?_eq_none {arena : Arena} {n : NodeId} (h : arena.node? n = none) : arena.size ≤ n :=
  Nat.le_of_not_lt fun hlt => by
    obtain ⟨x, hx⟩ := exists_node? hlt
    cases h.symm.trans hx

theorem lt_of_node? {arena : Arena} {n : NodeId} {x : Node} (h : arena.node? n = some x) : n < arena.size :=
  Nat.lt_of_not_le fun hle => by rw [node?_eq_none hle] at h; cases h

theorem lt_of_kind? {arena : Arena} {n : NodeId} {kind : Kind} (h : arena.kind? n = some kind) : n < arena.size := by
  obtain ⟨x, hx, -⟩ := Option.map_eq_some_iff.1 h
  exact lt_of_node? hx

theorem lt_of_parent? {arena : Arena} {n p : NodeId} (h : arena.parent? n = some p) : n < arena.size := by
  obtain ⟨x, hx, -⟩ := Option.bind_eq_some_iff.1 h
  exact lt_of_node? hx

theorem lt_of_mem_children {arena : Arena} {n c : NodeId} (h : c ∈ arena.children n) : n < arena.size :=
  Nat.lt_of_not_le fun hle => by simp [children, node?_eq_none hle] at h

end Arena

end ScriptIndex
