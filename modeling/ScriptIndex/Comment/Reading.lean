import ScriptIndex.Comment.Mention
import ScriptIndex.Comment.TypeExpression

/-! # Reading documentation

The types of the tags are read in order, before an unclosed brace is reported. A tag without a name
leaves no trace but the nodes of its type. -/

namespace ScriptIndex

namespace Build

def tag (mention : Mention) : Build Tag := do
  match mention.type with
  | none => return ⟨mention.name, none⟩
  | some text => return ⟨mention.name, some (← typeExpression text)⟩

/-- Reads the contents of a documentation comment. -/
def doc (text : Cursor) : Build Doc := do
  let (mentions, unclosed) := Mention.scan none text
  let tags ← mentions.mapM tag
  match unclosed with
  | none => return ⟨tags.filter fun tag => tag.name != ""⟩
  | some span => reject .malformedType span none

/-- Reads the contents of a documentation comment onto a node. -/
def document (node : NodeId) (text : Cursor) : Build Doc := do
  let doc ← doc text
  update (·.setDoc node doc)
  return doc

end Build

end ScriptIndex
