import Mathlib.Data.List.Basic
import ScriptIndex.Comment.Mention
import ScriptIndex.Proofs.Phrases

/-! # Phrases of types

The types that stand between braces in a documentation comment, as trees; how each of them is written, with
blanks between lexemes as one likes; and the tree of nodes that it stands for. Every type inside another one is
written in parentheses. -/

namespace ScriptIndex

/-- A letter or a digit of ASCII, an underscore or a dollar sign. -/
def isNameChar (c : Char) : Bool :=
  c.isAlphanum || c == '_' || c == '$'

def isDottedChar (c : Char) : Bool :=
  isNameChar c || c == '.'

/-- The signs of the grammar of types. -/
def typeSigns : List Char := ['(', ')', '<', '>', ',', '|', '?', '!', '*', ':']

inductive TypeLexeme
  | sign (c : Char) (h : c ∈ typeSigns := by decide)
  | word (text : String) (ne : text ≠ "") (chars : text.toList.all isDottedChar = true)

/-- A dotted name. The word `function` alone is none. -/
structure TypeName where
  segments : List String
  ne_nil : segments ≠ []
  segment : ∀ s ∈ segments, s ≠ "" ∧ s.toList.all isNameChar = true
  notFunction : segments ≠ ["function"]

inductive TypePhrase
  | name (x : TypeName) (arguments : List TypePhrase)
  | union (first second : TypePhrase) (rest : List TypePhrase)
  | nullable (type : TypePhrase)
  | nonNull (type : TypePhrase)
  | all
  | unknown
  | function (params : List TypePhrase)
  | functionTo (params : List TypePhrase) (result : TypePhrase)

namespace TypeName

def text (x : TypeName) : String := ".".intercalate x.segments

theorem toList_text (x : TypeName) : x.text.toList = ['.'].intercalate (x.segments.map String.toList) :=
  String.toList_intercalate

theorem mem_intercalate {α : Type} {sep : List α} {a : α} : ∀ {parts : List (List α)},
    a ∈ sep.intercalate parts → a ∈ sep ∨ ∃ part ∈ parts, a ∈ part
  | [], h => by cases h
  | [part], h => .inr ⟨part, List.mem_singleton_self _, by rwa [List.intercalate_singleton] at h⟩
  | p :: q :: parts, h => by
    rw [List.intercalate_cons_cons, List.mem_append, List.mem_append] at h
    rcases h with (h | h) | h
    · exact .inr ⟨p, List.mem_cons_self .., h⟩
    · exact .inl h
    · exact (mem_intercalate h).imp_right fun ⟨part, hpart, ha⟩ => ⟨part, List.mem_cons_of_mem _ hpart, ha⟩

theorem chars (x : TypeName) : x.text.toList.all isDottedChar = true := by
  rw [toList_text, List.all_eq_true]
  intro c hc
  rcases mem_intercalate hc with hdot | ⟨part, hpart, hc⟩
  · rw [List.mem_singleton.1 hdot]
    rfl
  · obtain ⟨s, hs, rfl⟩ := List.mem_map.1 hpart
    rw [isDottedChar, List.all_eq_true.1 (x.segment s hs).2 c hc]
    rfl

/-- A name ends in a segment, not in a dot. -/
theorem exists_getLast? (x : TypeName) : ∃ c, x.text.toList.getLast? = some c ∧ isNameChar c = true := by
  rw [toList_text]
  obtain ⟨segments, hne, hsegment, hfunction⟩ := x
  dsimp only
  clear hfunction
  induction segments with
  | nil => exact absurd rfl hne
  | cons s rest ih =>
    cases rest with
    | nil =>
      obtain ⟨hs, hchars⟩ := hsegment s (List.mem_singleton_self s)
      have hlist : s.toList ≠ [] := mt String.toList_eq_nil_iff.1 hs
      refine ⟨s.toList.getLast hlist, ?_, List.all_eq_true.1 hchars _ (List.getLast_mem hlist)⟩
      rw [List.map_singleton, List.intercalate_singleton, List.getLast?_eq_some_getLast]
    | cons r rest =>
      obtain ⟨c, hc, hname⟩ := ih (List.cons_ne_nil _ _) (List.forall_mem_cons.1 hsegment).2
      refine ⟨c, ?_, hname⟩
      rw [List.map_cons, List.map_cons, List.intercalate_cons_cons, ← List.map_cons, List.getLast?_append, hc]
      rfl

/-- A name begins with a segment, not with a dot. -/
theorem exists_head? (x : TypeName) : ∃ c, x.text.toList.head? = some c ∧ isNameChar c = true := by
  rw [toList_text]
  obtain ⟨segments, hne, hsegment, hfunction⟩ := x
  dsimp only
  obtain ⟨s, rest, rfl⟩ := List.exists_cons_of_ne_nil hne
  obtain ⟨hs, hchars⟩ := hsegment s (List.mem_cons_self ..)
  obtain ⟨c, chars, hlist⟩ := List.exists_cons_of_ne_nil (mt String.toList_eq_nil_iff.1 hs)
  refine ⟨c, ?_, List.all_eq_true.1 hchars c (hlist ▸ List.mem_cons_self ..)⟩
  cases rest with
  | nil => rw [List.map_singleton, List.intercalate_singleton, hlist, List.head?_cons]
  | cons r rest =>
    rw [List.map_cons, List.map_cons, List.intercalate_cons_cons, hlist]
    rfl

theorem text_ne_empty (x : TypeName) : x.text ≠ "" := by
  intro h
  obtain ⟨c, hc, -⟩ := x.exists_getLast?
  rw [h] at hc
  cases hc

theorem text_ne_function (x : TypeName) : x.text ≠ "function" := by
  intro h
  have hlist := x.toList_text
  rw [h] at hlist
  match hsegments : x.segments with
  | [] => exact x.ne_nil hsegments
  | [s] =>
    rw [hsegments, List.map_singleton, List.intercalate_singleton] at hlist
    exact x.notFunction (hsegments.trans (congrArg (fun s => [s]) (String.toList_inj.1 hlist).symm))
  | s :: r :: rest =>
    rw [hsegments, List.map_cons, List.map_cons, List.intercalate_cons_cons] at hlist
    have hdot : '.' ∈ "function".toList := hlist ▸ by simp
    exact absurd hdot (by decide)

def lexeme (x : TypeName) : TypeLexeme := .word x.text x.text_ne_empty x.chars

end TypeName

/-! ## How types are written -/

namespace TypeLexeme

def bytes : TypeLexeme → List UInt8
  | sign c _ => [c.toUInt8]
  | word text _ _ => ascii text

def functionWord : TypeLexeme := .word "function" (by decide) (by decide)

def parens (lexemes : List TypeLexeme) : List TypeLexeme :=
  .sign '(' :: (lexemes ++ [.sign ')'])

/-- Parts with a sign between them. -/
def joined (mark : TypeLexeme) (parts : List (List TypeLexeme)) : List TypeLexeme :=
  [mark].intercalate parts

/-- The arguments of a name, if there are any. -/
def arguments : List (List TypeLexeme) → List TypeLexeme
  | [] => []
  | parts => .sign '<' :: (joined (.sign ',') parts ++ [.sign '>'])

end TypeLexeme

open TypeLexeme

mutual

def TypePhrase.lexemes : TypePhrase → List TypeLexeme
  | .name x types => x.lexeme :: arguments (typeOperands types)
  | .union first second rest =>
    joined (.sign '|') (parens first.lexemes :: parens second.lexemes :: typeOperands rest)
  | .nullable type => .sign '?' :: parens type.lexemes
  | .nonNull type => .sign '!' :: parens type.lexemes
  | .all => [.sign '*']
  | .unknown => [.sign '?']
  | .function params => functionWord :: parens (joined (.sign ',') (typeOperands params))
  | .functionTo params result =>
    functionWord :: (parens (joined (.sign ',') (typeOperands params)) ++ .sign ':' :: parens result.lexemes)

def typeOperands : List TypePhrase → List (List TypeLexeme)
  | [] => []
  | type :: types => parens type.lexemes :: typeOperands types

end

/-- A text is made of the lexemes, in order, and of blanks between, before and after them. -/
inductive Spaced : List TypeLexeme → List UInt8 → Prop
  | nil : Spaced [] []
  | blank {b : UInt8} {lexemes : List TypeLexeme} {text : List UInt8} (hb : Byte.isBlank b = true)
      (h : Spaced lexemes text) : Spaced lexemes (b :: text)
  | lexeme (w : TypeLexeme) {lexemes : List TypeLexeme} {text : List UInt8} (h : Spaced lexemes text) :
      Spaced (w :: lexemes) (w.bytes ++ text)

/-- A tag with the text of a type. -/
def tagged (name : String) (text : List UInt8) : List UInt8 :=
  ascii "@" ++ ascii name ++ ascii " \x7b" ++ text ++ ascii "\x7d"

/-! ## The nodes that types stand for -/

mutual

def TypePhrase.tree : TypePhrase → Tree
  | .name x types => .node (.typeName x.text) (typeTrees types)
  | .union first second rest => .node .typeUnion (first.tree :: second.tree :: typeTrees rest)
  | .nullable type => .node .typeNullable [type.tree]
  | .nonNull type => .node .typeNonNull [type.tree]
  | .all => .node .typeAll []
  | .unknown => .node .typeUnknown []
  | .function params => .node .function [.node .params (typeTrees params)]
  | .functionTo params result => .node .function [.node .params (typeTrees params), result.tree]

def typeTrees : List TypePhrase → List Tree
  | [] => []
  | type :: types => type.tree :: typeTrees types

end

end ScriptIndex
