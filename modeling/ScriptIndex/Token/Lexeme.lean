import ScriptIndex.Text.Byte
import ScriptIndex.SyntaxError

/-! # The lexeme or gap at the head of a text

The functions here look at the head of a list of bytes and say how far it reaches, without moving:
`gap?` for what may stand between tokens, `lexeme` for a token. A `Fault` says how many bytes from
the head the error concerns and how many of them are passed over. -/

namespace ScriptIndex

structure Fault where
  cause : Cause
  extent : Nat
  passed : Nat
deriving Repr, DecidableEq

structure Gap where
  length : Nat
  /-- Whether it is a documentation comment: one that opens with two stars and is not empty. -/
  isDoc : Bool
deriving Repr, DecidableEq

def opensDoc (bytes : List UInt8) : Bool :=
  (ascii "/**").isPrefixOf bytes && !(ascii "/**/").isPrefixOf bytes

/-- The gap at the head of the text, if there is one. A line comment ends before the line feed; a
block comment ends with the first closing mark after its opening mark. -/
def gap? (bytes : List UInt8) : Except Fault (Option Gap) :=
  let blanks := bytes.takeWhile Byte.isBlank
  if blanks ≠ [] then .ok (some ⟨blanks.length, false⟩)
  else if (ascii "//").isPrefixOf bytes then
    .ok (some ⟨(bytes.takeWhile (· != Byte.newline)).length, false⟩)
  else if (ascii "/*").isPrefixOf bytes then
    match offsetOf? (ascii "*/") (bytes.drop 2) with
    | some n => .ok (some ⟨n + 4, opensDoc bytes⟩)
    | none => .error ⟨.unterminatedComment, bytes.length, bytes.length⟩
  else .ok none

/-- How far the inside of a string literal reaches, its closing quote included. -/
inductive Quoted
  | closed (length : Nat)
  /-- A line feed or the end of the text comes before the closing quote. -/
  | cut (length : Nat)
deriving Repr, DecidableEq

namespace Quoted

/-- The same reach seen from `n` bytes earlier. -/
def after (n : Nat) : Quoted → Quoted
  | closed length => closed (n + length)
  | cut length => cut (n + length)

/-- Reads up to the closing quote. A backslash is taken together with whatever byte follows it, or
would follow it. -/
def read (quote : UInt8) : List UInt8 → Quoted
  | [] => cut 0
  | [b] => if b == Byte.newline then cut 0 else if b == Byte.backslash then cut 2
    else if b == quote then closed 1 else cut 1
  | b :: c :: rest => if b == Byte.newline then cut 0
    else if b == Byte.backslash then (read quote rest).after 2
    else if b == quote then closed 1 else (read quote (c :: rest)).after 1

end Quoted

/-- The kind of a word: a keyword of its own, or an identifier. -/
def wordKind (word : List UInt8) : TokenKind :=
  match TokenKind.keywords.find? fun entry => ascii entry.1 == word with
  | some (_, kind) => kind
  | none => .identifier

def punctuator? (bytes : List UInt8) : Option (String × TokenKind) :=
  TokenKind.punctuators.find? fun entry => (ascii entry.1).isPrefixOf bytes

/-- The length of the number at the head: digits, then perhaps a dot and more digits. -/
def numberLength (bytes : List UInt8) : Nat :=
  let whole := bytes.takeWhile Byte.isDigit
  match bytes.dropWhile Byte.isDigit with
  | [] => whole.length
  | b :: rest =>
    if b == '.'.toUInt8 then whole.length + 1 + (rest.takeWhile Byte.isDigit).length else whole.length

/-- The kind and length of the token at the head of a text that begins with no gap. The end of the
text is a token of length zero. -/
def lexeme : List UInt8 → Except Fault (TokenKind × Nat)
  | [] => .ok (.eof, 0)
  | b :: rest =>
    if Byte.isWordStart b then
      let word := b :: rest.takeWhile Byte.isWordPart
      .ok (wordKind word, word.length)
    else if Byte.isDigit b then
      let length := numberLength (b :: rest)
      if ((b :: rest).drop length).head?.any Byte.isWordStart then
        .error ⟨.malformedNumber, length + 1, length⟩
      else .ok (.numberLiteral, length)
    else if Byte.isQuote b then
      match Quoted.read b rest with
      | .closed length => .ok (.stringLiteral, length + 1)
      | .cut length => .error ⟨.unterminatedString, length + 1, length + 1⟩
    else match punctuator? (b :: rest) with
      | some (mark, kind) => .ok (kind, (ascii mark).length)
      | none => .error ⟨.invalidCharacter, 1, 0⟩

end ScriptIndex
