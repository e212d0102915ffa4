import ScriptIndex.Token.Lexer
import ScriptIndex.Text.Utf8

/-! # Tags mentioned in a comment

A tag is an `@` at the start of a word, with the letters after it as its name. A type may follow on the
same line, between braces that match. This module finds the tags and the texts of their types; it does
not read the types. -/

namespace ScriptIndex

/-- A tag, with the text between its braces. -/
structure Mention where
  name : String
  type : Option Cursor
deriving Repr, DecidableEq

namespace Mention

def openBrace : UInt8 := '\x7b'.toUInt8
def closeBrace : UInt8 := '\x7d'.toUInt8

def startsWord (before : UInt8) : Bool :=
  (ascii " \t\n\r*").contains before

/-- The number of bytes before the closing brace of a text in which `depth` braces are open. -/
def closing? : Nat → List UInt8 → Option Nat
  | _, [] => none
  | depth, b :: rest =>
    if b == closeBrace then
      match depth with
      | 0 => some 0
      | depth + 1 => (closing? depth rest).map (· + 1)
    else (closing? (if b == openBrace then depth + 1 else depth) rest).map (· + 1)

/-- The `@` of a tag, its name, and the spaces and tabs after it. -/
structure Head where
  length : Nat
  name : List UInt8
  last : UInt8

/-- The head of the tag that begins with the byte before `rest`. -/
def head (rest : List UInt8) : Head :=
  let name := rest.takeWhile Byte.isLetter
  let spaces := (rest.drop name.length).takeWhile (ascii " \t").contains
  ⟨1 + name.length + spaces.length, name, (name ++ spaces).getLast?.getD '@'.toUInt8⟩

theorem length_advance_lt {c : Cursor} {b : UInt8} {rest : List UInt8} (h : c.rest = b :: rest) {n : Nat}
    (hn : 0 < n) : (c.advance n).rest.length < c.rest.length := by
  simp only [Cursor.advance, List.length_drop, h, List.length_cons]
  omega

theorem head_length_pos (rest : List UInt8) : 0 < (head rest).length := by
  simp only [head]
  omega

/-- The tags from the cursor on, given the byte before it. If a brace is never closed, the reading ends
there, and the second component is where. -/
def scan (before : Option UInt8) (c : Cursor) : List Mention × Option Span :=
  match _h : c.rest with
  | [] => ([], none)
  | b :: rest =>
    if b == '@'.toUInt8 && before.all startsWord then
      let head := head rest
      let name := Utf8.decode head.name
      let next := c.advance head.length
      if next.rest.head? == some openBrace then
        let inside := next.advance 1
        match closing? 0 inside.rest with
        | none => ([], some ⟨next.pos, next.pos + next.rest.length⟩)
        | some length =>
          let (mentions, unclosed) := scan (some closeBrace) (c.advance (head.length + length + 2))
          (⟨name, some ⟨inside.pos, inside.rest.take length⟩⟩ :: mentions, unclosed)
      else
        let (mentions, unclosed) := scan (some head.last) next
        (⟨name, none⟩ :: mentions, unclosed)
    else scan (some b) (c.advance 1)
termination_by c.rest.length
decreasing_by
  · exact length_advance_lt _h (by omega)
  · exact length_advance_lt _h (head_length_pos rest)
  · exact length_advance_lt _h Nat.one_pos

end Mention

end ScriptIndex
