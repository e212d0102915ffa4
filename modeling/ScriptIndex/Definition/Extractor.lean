import ScriptIndex.Definition.Basic

/-! # Extractors

An extractor says whether a node defines a name, given the region that it stands in. It goes by the arena
alone, or it keeps a state of its own from one question to the next. -/

namespace ScriptIndex

abbrev Extractor := Arena → NodeId → Region → Option Definition

/-- An extractor that keeps a state of its own. -/
abbrev StatefulExtractor (σ : Type) := Arena → NodeId → Region → StateM σ (Option Definition)

/-- Asks another extractor, and takes note of each question. -/
def StatefulExtractor.recording {σ : Type} (extractor : StatefulExtractor σ) :
    StatefulExtractor (σ × List (NodeId × Region)) := fun arena node region (state, asked) =>
  let (answer, state) := extractor arena node region state
  (answer, (state, asked ++ [(node, region)]))

namespace Extractor

def stateless (extractor : Extractor) : StatefulExtractor Unit := fun arena node region =>
  return extractor arena node region

/-- What a node defines by its form alone, under the given parent: a declared variable, the name of a
function, the target of an assignment, the key of an object or the parameter of a function. -/
def syntacticUnder (arena : Arena) (parent node : NodeId) (region : Region) : Option Definition :=
  let isFirst := arena.firstChild? parent == some node
  let isNamed := (arena.givenName? node).isSome
  let concreteIf (holds : Bool) (rvalue : Option NodeId) : Option Definition :=
    if holds then some (.concrete node rvalue region) else none
  match arena.kind? parent with
  | some (.declaration _) => concreteIf isNamed (arena.firstChild? node)
  | some .function => concreteIf (isFirst && isNamed) (some parent)
  | some .assign => concreteIf isFirst (arena.child? parent 1)
  | some .object => concreteIf (arena.isKey node) (arena.firstChild? node)
  | some .params =>
    concreteIf (arena.isName node && (arena.parent? parent).any arena.isFunction) none
  | _ => none

/-- Goes by the form of the program alone. A variable without initial value and a parameter are
definitions without value. -/
def syntactic : Extractor := fun arena node region =>
  (arena.parent? node).bind fun parent => syntacticUnder arena parent node region

end Extractor

end ScriptIndex
