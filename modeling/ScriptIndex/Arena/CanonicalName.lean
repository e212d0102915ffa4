import ScriptIndex.Arena.Name

/-! # Canonical names

The name that definitions and uses are filed under. A variable has its own name. A property has the
same canonical name whatever its receiver, as if `this` were the receiver, and an object key has that of
the property it defines. -/

namespace ScriptIndex

/-- The canonical name of the properties called `text`. -/
def propertyName (text : String) : String := "this." ++ text

def Arena.canonicalName? (arena : Arena) (node : NodeId) : Option String :=
  match arena.kind? node with
  | some (.name text) => if text != "" then some text else none
  | some (.property text) => some (propertyName text)
  | some (.key text) =>
    if (arena.parent? node).any arena.isObject then some (propertyName text) else none
  | _ => none

end ScriptIndex
