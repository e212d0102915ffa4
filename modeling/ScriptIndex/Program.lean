import ScriptIndex.Region
import ScriptIndex.Script.Statement

/-! # Programs

A program is an arena whose first two nodes are the roots of its regions: externs, which declare what
exists outside, and source. A script that is refused leaves the nodes that were read of it. -/

namespace ScriptIndex

structure Options where
  module : Option ModuleId
  /-- Whether documentation comments are read; otherwise they are comments like all others. -/
  docs : Bool
deriving Repr, DecidableEq

def Options.standard : Options := ⟨none, true⟩

/-- The tokens of a source as the options show them. -/
def Options.stream (options : Options) (source : List UInt8) : Stream :=
  let stream := Stream.ofBytes source
  if options.docs then stream else stream.withoutDocs

namespace Region

def root : Region → NodeId
  | externs => 0
  | source => 1

end Region

namespace Build

/-- Reads a script that is under no root yet. -/
def script (source : List UInt8) (options : Options) : Build NodeId :=
  (ScriptReader.script options.module).run' (.ofStream (options.stream source))

def scriptUnder (root : NodeId) (source : List UInt8) (options : Options) : Build NodeId := do
  let script ← script source options
  update (·.append root script)
  return script

def addScript (region : Region) (source : List UInt8) (options : Options) : Build NodeId :=
  scriptUnder region.root source options

/-- Reads the expression that a source begins with; only one token after it is looked at. -/
def expression (source : List UInt8) (options : Options) : Build NodeId :=
  ScriptReader.expression.run' (.ofStream (options.stream source))

end Build

namespace Program

def empty : Arena := Arena.empty.pushRoot.2.pushRoot.2

def parse (externs source : List UInt8) : Except Failure Arena :=
  let scripts : Build Unit := do
    let _ ← Build.addScript .externs externs .standard
    let _ ← Build.addScript .source source .standard
  match scripts.run empty with
  | .ok _ arena => .ok arena
  | .error failure _ => .error failure

def error? (source : List UInt8) : Option SyntaxError :=
  match parse [] source with
  | .error (.rejected e) => some e
  | _ => none

end Program

end ScriptIndex
