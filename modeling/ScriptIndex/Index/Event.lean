import ScriptIndex.Comment.Doc
import ScriptIndex.Region

/-! # Events

What happens while definitions are gathered, and how each event is logged. -/

namespace ScriptIndex

def nodeLabel (node : NodeId) : String := s!"#{node}"

inductive Event
  | gatherSpan (externs source : NodeId)
  | regionSpan (region : Region)
  /-- The span that has just begun is entered. -/
  | enter
  /-- The innermost span is left. -/
  | exit
  /-- A definition at `other` supersedes a stub. -/
  | stubDropped (name : String) (stub other : NodeId)
  /-- A stub repeats what is already defined. -/
  | stubSkipped (name : String) (node : NodeId)
  | gathered (names sites : Nat)
  | alreadyGathered
deriving Repr, DecidableEq

inductive LogValue
  | text (value : String)
  | count (value : Nat)
deriving Repr, DecidableEq

/-- The heading of a log entry and its named values. -/
structure LogEntry where
  level : String
  target : String
  /-- The name of a span or the message of an event. -/
  title : String
  fields : List (String × LogValue)
deriving Repr, DecidableEq

inductive LogLine
  | span (entry : LogEntry)
  | enter
  | exit
  | event (entry : LogEntry)
deriving Repr, DecidableEq

namespace Event

def debug (title : String) (fields : List (String × LogValue)) : LogEntry :=
  ⟨"DEBUG", "definition_js::provider", title, fields⟩

def trace (title : String) (fields : List (String × LogValue)) : LogEntry :=
  ⟨"TRACE", "definition_js::stubs", title, fields⟩

def node (node : NodeId) : LogValue := .text (nodeLabel node)

def line : Event → LogLine
  | gatherSpan externs source =>
    .span (debug "definition_js.gather" [("externs", node externs), ("source", node source)])
  | regionSpan region =>
    .span (debug "definition_js.gather_region" [("region", .text region.label)])
  | enter => .enter
  | exit => .exit
  | stubDropped name stub other =>
    .event (trace "dropping superseded stub"
      [("canonical", .text name), ("stub", node stub), ("by", node other)])
  | stubSkipped name stub =>
    .event (trace "skipping redundant stub" [("canonical", .text name), ("node", node stub)])
  | gathered names sites =>
    .event (debug "gathered definitions" [("names", .count names), ("sites", .count sites)])
  | alreadyGathered => .event (debug "definitions already gathered" [])

end Event

end ScriptIndex
