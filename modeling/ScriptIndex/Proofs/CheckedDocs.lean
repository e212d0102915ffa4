import ScriptIndex.Proofs.CheckedTypes

/-! # Documentation read by position

Documentation is read with every access checked, from a text that may stand anywhere: it is read as it is without
checks (`doc_eq`). -/

namespace ScriptIndex.CheckedBuild

def typeExpression (text : Cursor) : CheckedBuild NodeId :=
  (CheckedTypes.whole text).run' 0

def tag (mention : Mention) : CheckedBuild Tag := do
  match mention.type with
  | none => return ⟨mention.name, none⟩
  | some text => return ⟨mention.name, some (← typeExpression text)⟩

def doc (text : Cursor) : CheckedBuild Doc := do
  let (mentions, unclosed) ← Checked.scan text 0
  let tags ← mentions.mapM tag
  match unclosed with
  | none => return ⟨tags.filter fun tag => tag.name != ""⟩
  | some span => Build.reject .malformedType span none

def document (node : NodeId) (text : Cursor) : CheckedBuild Doc := do
  let doc ← doc text
  Build.update (·.setDoc node doc)
  return doc

open Mirrors

theorem typeExpression_mirrors (text : Cursor) : Mirrors (typeExpression text) (Build.typeExpression text) Eq := by
  refine seq (CheckedTypes.whole_mirrors text) ?_
  rintro r r' ⟨-, h⟩
  exact done h

theorem tag_mirrors (mention : Mention) : Mirrors (tag mention) (Build.tag mention) Eq := by
  obtain ⟨name, type⟩ := mention
  cases type with
  | none => exact done rfl
  | some text =>
    refine seq (typeExpression_mirrors text) ?_
    rintro type _ rfl
    exact done rfl

theorem doc_mirrors (text : Cursor) : Mirrors (doc text) (Build.doc text) Eq := by
  have hscan : Checked.scan text 0 = .ok (Mention.scan none text) := Checked.scan_eq text 0
  unfold Build.doc
  generalize Mention.scan none text = r at hscan ⊢
  obtain ⟨mentions, unclosed⟩ := r
  refine access hscan (seq (mapM fun mention _ => tag_mirrors mention) ?_)
  rintro tags _ rfl
  cases unclosed with
  | none => exact done rfl
  | some span => exact fun arena => .failed _ arena

theorem document_mirrors (node : NodeId) (text : Cursor) :
    Mirrors (document node text) (Build.document node text) Eq := by
  refine seq (doc_mirrors text) ?_
  rintro doc _ rfl
  exact seq (lift _) fun _ _ _ => done rfl

/-- A comment is read without a breach, wherever it stands. -/
theorem doc_eq (text : Cursor) : doc text = ofBuild (Build.doc text) := (doc_mirrors text).eq

end ScriptIndex.CheckedBuild
