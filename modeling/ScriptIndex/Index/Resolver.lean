import ScriptIndex.Index.Gathering

/-! # Resolving names

A resolver gathers the definitions of an arena once and then says which definitions a use of a name may
refer to. It goes by canonical names alone, so that its answer is a list of candidates. -/

namespace ScriptIndex

inductive DefinitionError
  | notGathered
  | notAFunction (node : NodeId)
  | unknownNode (node : NodeId)
deriving Repr, DecidableEq

def DefinitionError.message : DefinitionError → String
  | notGathered => "definitions have not been gathered"
  | notAFunction node => s!"node {nodeLabel node} is not a function"
  | unknownNode node => s!"node {nodeLabel node} is not in the arena"

inductive GatherState
  | notRun | done
deriving Repr, DecidableEq

structure Resolver (σ : Type) where
  arena : Arena
  extractor : StatefulExtractor σ
  /-- The state that the extractor is in. -/
  memory : σ
  state : GatherState
  gathering : Gathering

namespace Resolver

variable {σ : Type}

def ofStateful (arena : Arena) (extractor : StatefulExtractor σ) (memory : σ) : Resolver σ :=
  ⟨arena, extractor, memory, .notRun, .empty⟩

def ofArena (arena : Arena) (extractor : Extractor) : Resolver Unit := ofStateful arena extractor.stateless ()

def isGathered (r : Resolver σ) : Bool := r.state == .done

/-- Gathers the definitions below two roots. Only the first time has an effect. -/
def gather (r : Resolver σ) (externs source : NodeId) : Except Failure (Resolver σ) :=
  match r.state with
  | .done => return { r with gathering := r.gathering.log .alreadyGathered }
  | .notRun => do
    let (gathering, memory) ← r.gathering.run r.arena r.extractor externs source r.memory
    return { r with memory, state := .done, gathering }

def index (r : Resolver σ) : Except DefinitionError Index :=
  match r.state with
  | .done => .ok r.gathering.index
  | .notRun => .error .notGathered

def check (r : Resolver σ) (node : NodeId) : Except DefinitionError Unit :=
  if r.arena.contains node then .ok () else .error (.unknownNode node)

/-- The node whose name a use refers by: `f.call` and `f.apply` refer to what `f` does. -/
def referent (r : Resolver σ) (use : NodeId) : NodeId :=
  match r.arena.kind? use with
  | some (.property text) =>
    if text == "apply" || text == "call" then (r.arena.firstChild? use).getD use else use
  | _ => use

/-- The definitions that a use may refer to, if any. A defining node is no use. -/
def definitionsAt (r : Resolver σ) (use : NodeId) : Except DefinitionError (Option (List Definition)) := do
  let index ← r.index
  if (index.site? use).isSome then return none
  r.check use
  match r.arena.canonicalName? (r.referent use) with
  | none => return none
  | some name =>
    match index.definitions name with
    | [] => return none
    | definitions => return some definitions

/-- The site that defines a function through the node that names it. -/
def siteOfFunction (r : Resolver σ) (function : NodeId) : Except DefinitionError (Option Site) := do
  let index ← r.index
  r.check function
  if r.arena.isFunction function then
    return (r.arena.functionName? function).bind index.site?
  else throw (.notAFunction function)

/-- All sites in the order in which they were found. -/
def sites (r : Resolver σ) : Except DefinitionError (List Site) := return (← r.index).sites

def named (r : Resolver σ) (name : String) : Except DefinitionError (List Definition) :=
  return (← r.index).definitions name

/-- All canonical names in the order in which they were found. -/
def names (r : Resolver σ) : Except DefinitionError (List String) := return (← r.index).names

end Resolver

end ScriptIndex
