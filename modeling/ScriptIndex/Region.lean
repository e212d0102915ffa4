/-! # Regions of a program -/

namespace ScriptIndex

/-- The externs declare what exists outside the program; the source is the program itself. -/
inductive Region
  | externs | source
deriving Repr, DecidableEq

/-- The region as it stands in messages. -/
def Region.label : Region → String
  | externs => "externs"
  | source => "source"

end ScriptIndex
