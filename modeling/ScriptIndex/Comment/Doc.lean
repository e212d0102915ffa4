/-! # Documentation

What a documentation comment says: its tags in order, each with the root of its type expression if it
has one. Type expressions live in the same arena as the documented node, under no parent. -/

namespace ScriptIndex

abbrev NodeId := Nat

structure Tag where
  name : String
  type : Option NodeId
deriving Repr, DecidableEq

structure Doc where
  tags : List Tag
deriving Repr, DecidableEq

/-- The tags that declare something about the documented name, rather than describe it. -/
def declaringTags : List String :=
  ["const", "constructor", "define", "enum", "export", "extends", "final", "implements", "interface",
   "package", "param", "private", "protected", "public", "record", "return", "this", "type", "typedef"]

namespace Doc

def hasTag (doc : Doc) (name : String) : Bool :=
  doc.tags.any fun tag => tag.name == name

def typeRoots (doc : Doc) : List NodeId :=
  doc.tags.filterMap Tag.type

/-- Whether some tag declares a type, a visibility, constness or the like. -/
def declares (doc : Doc) : Bool :=
  doc.tags.any fun tag => declaringTags.contains tag.name

end Doc

end ScriptIndex
