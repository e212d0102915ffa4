/-! # Spans of a source

Positions are byte offsets from the start of the source. -/

namespace ScriptIndex

/-- The bytes from `start` up to but not including `stop`. -/
structure Span where
  start : Nat
  stop : Nat
deriving Repr, DecidableEq, Inhabited

namespace Span

/-- The span as it stands in a message. -/
def label (s : Span) : String :=
  s!"Loc({s.start}, {s.stop})"

end Span

end ScriptIndex
