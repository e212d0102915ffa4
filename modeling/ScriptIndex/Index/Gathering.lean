import ScriptIndex.Arena.CanonicalName
import ScriptIndex.Definition.Extractor
import ScriptIndex.Index.Basic
import ScriptIndex.Index.Event

/-! # Gathering definitions

Gathering walks a region and records what the extractor finds at each node. In the externs, parameters
and bodies of functions are documentation only; the types in documentation are walked; and an
expression statement `a.b` is a stub, a declaration that gives nothing but the name. A stub yields to a
definition of the same qualified name, unless that definition is documented as a declaration, and a stub
that is not so documented is left out where the name is defined already. -/

namespace ScriptIndex

structure Gathering where
  index : Index
  events : List Event

/-- Whether gathering from externs goes into a node: not into a type of a function, and of a function
only into its name. -/
def Arena.entersExtern (arena : Arena) (node : NodeId) (parent : Option NodeId) : Bool :=
  (!arena.isFunction node || (arena.firstChild? node).any arena.isName)
    && parent.all fun p => !arena.isFunction p || arena.firstChild? p == some node

/-- How gathering walks a region. -/
def Arena.gatherPolicy (arena : Arena) : Region → Policy
  | .externs => ⟨arena.entersExtern, .beforeOwner⟩
  | .source => ⟨fun _ _ => true, .never⟩

/-- What is recorded of a definition: its value only if that is immutable or a function. -/
def Definition.recorded (arena : Arena) (region : Region) (d : Definition) : Definition :=
  match d.rvalue with
  | none => d
  | some value =>
    if arena.isImmutable value || arena.isFunction value then d else .unknown d.lvalue region

namespace Gathering

variable {σ : Type} (arena : Arena)

def empty : Gathering := ⟨.empty, []⟩

def log (g : Gathering) (event : Event) : Gathering := { g with events := g.events ++ [event] }

def record (g : Gathering) (region : Region) (arrival : Arrival) (name : String) (d : Definition) :
    Gathering :=
  { g with index := g.index.insert name ⟨arrival.node, d, arrival.place, region⟩ }

/-- Drops one stub in favour of a definition at `node`, if they are the same qualified name. -/
def dropStub (node : NodeId) (name : String) (g : Gathering) (stub : Definition) : Gathering :=
  if arena.sameQualified stub.lvalue node then
    let g := g.log (.stubDropped name stub.lvalue node)
    match g.index.remove? name stub with
    | some index => { g with index }
    | none => g
  else g

/-- Drops the stubs that a definition at `node` supersedes. -/
def dropSuperseded (g : Gathering) (node : NodeId) (name : String) : Gathering :=
  if arena.isQualified node && !arena.declares node then
    ((g.index.definitions name).filter (·.isStub)).foldl (dropStub arena node name) g
  else g

def recordFound (g : Gathering) (region : Region) (arrival : Arrival) (d : Definition) : Gathering :=
  match arena.canonicalName? d.lvalue with
  | none => g
  | some name =>
    let g := if region = .externs then g.dropSuperseded arena arrival.node name else g
    g.record region arrival name (d.recorded arena region)

/-- Whether a stub at `node` adds nothing to what is recorded under its name. -/
def isRedundant (g : Gathering) (node : NodeId) (name : String) : Bool :=
  !arena.declares node && arena.isQualified node
    && (g.index.definitions name).any fun d => arena.sameQualified d.lvalue node

def recordStub (g : Gathering) (arrival : Arrival) : Gathering :=
  match arena.canonicalName? arrival.node with
  | none => g
  | some name =>
    if g.isRedundant arena arrival.node name then g.log (.stubSkipped name arrival.node)
    else g.record .externs arrival name (.stub arrival.node)

/-- Takes note of a node that the walk has come to, and of what the extractor says of it. -/
def note (region : Region) (g : Gathering) (arrival : Arrival) (answer : Option Definition) : Gathering :=
  let g :=
    match answer with
    | none => g
    | some d => g.recordFound arena region arrival d
  if region = .externs && arrival.parent.any arena.isExpressionStatement then
    g.recordStub arena arrival
  else g

/-- Asks the extractor about a node that the walk has come to. -/
def visit (extractor : StatefulExtractor σ) (region : Region) (g : Gathering) (arrival : Arrival) :
    StateM σ Gathering :=
  return g.note arena region arrival (← extractor arena arrival.node region)

def addRegion (extractor : StatefulExtractor σ) (region : Region) (root : NodeId) (g : Gathering) :
    StateT σ (Except Failure) Gathering := do
  let arrivals ← arena.walk (arena.gatherPolicy region) root
  let g := (g.log (.regionSpan region)).log .enter
  let g ← modifyGet ((arrivals.filter (·.entered)).foldlM (visit arena extractor region) g)
  return g.log .exit

def run (extractor : StatefulExtractor σ) (externs source : NodeId) (g : Gathering) :
    StateT σ (Except Failure) Gathering := do
  let g := (g.log (.gatherSpan externs source)).log .enter
  let g ← g.addRegion arena extractor .externs externs
  let g ← g.addRegion arena extractor .source source
  return (g.log (.gathered g.index.buckets.length g.index.sites.length)).log .exit

end Gathering

end ScriptIndex
