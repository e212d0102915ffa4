import ScriptIndex.Arena.Walk
import ScriptIndex.Region

/-! # Definitions

What may define a name, and the record of where it was found. -/

namespace ScriptIndex

inductive Definition
  /-- The value is absent, an immutable literal or a function. -/
  | concrete (lvalue : NodeId) (rvalue : Option NodeId) (region : Region)
  /-- There is a value, but nothing is known of it. -/
  | unknown (lvalue : NodeId) (region : Region)
  /-- A declaration in the externs that gives nothing but the name. -/
  | stub (lvalue : NodeId)
deriving Repr, DecidableEq

namespace Definition

def lvalue : Definition → NodeId
  | concrete lvalue _ _ | unknown lvalue _ | stub lvalue => lvalue

def rvalue : Definition → Option NodeId
  | concrete _ rvalue _ => rvalue
  | unknown _ _ | stub _ => none

def region : Definition → Region
  | concrete _ _ region | unknown _ region => region
  | stub _ => .externs

def isStub : Definition → Bool
  | stub _ => true
  | concrete _ _ _ | unknown _ _ => false

end Definition

/-- A node that defines a name, and its place. -/
structure Site where
  node : NodeId
  definition : Definition
  place : Place
  region : Region
deriving Repr, DecidableEq

end ScriptIndex
