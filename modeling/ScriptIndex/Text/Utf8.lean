/-! # Reading bytes as UTF-8

Every list of bytes has a text. A byte that cannot begin a character, and each longest sequence that
begins a character without completing it, reads as one replacement character. -/

namespace ScriptIndex.Utf8

/-- A character that has begun: the bits read so far, the range its next byte must lie in, and how
many bytes follow that one. -/
structure Partial where
  value : Nat
  low : UInt8
  high : UInt8
  more : Nat
deriving Repr, DecidableEq

def replacement : Char := '\uFFFD'

/-- What a leading byte begins. The narrowed ranges exclude overlong forms, surrogates and values
above `0x10FFFF`. -/
def lead? (b : UInt8) : Option Partial :=
  if 0xC2 ≤ b && b ≤ 0xDF then some ⟨b.toNat % 0x20, 0x80, 0xBF, 0⟩
  else if b == 0xE0 then some ⟨0, 0xA0, 0xBF, 1⟩
  else if b == 0xED then some ⟨0xD, 0x80, 0x9F, 1⟩
  else if 0xE1 ≤ b && b ≤ 0xEF then some ⟨b.toNat % 0x10, 0x80, 0xBF, 1⟩
  else if b == 0xF0 then some ⟨0, 0x90, 0xBF, 2⟩
  else if 0xF1 ≤ b && b ≤ 0xF3 then some ⟨b.toNat % 0x08, 0x80, 0xBF, 2⟩
  else if b == 0xF4 then some ⟨4, 0x80, 0x8F, 2⟩
  else none

/-- Reads a byte where a character begins. -/
def start (b : UInt8) : List Char × Option Partial :=
  if b < 0x80 then ([Char.ofNat b.toNat], none)
  else match lead? b with
    | some p => ([], some p)
    | none => ([replacement], none)

/-- Reads one byte: the characters it completes, and the character it leaves begun. -/
def step : Option Partial → UInt8 → List Char × Option Partial
  | none, b => start b
  | some p, b =>
    if p.low ≤ b && b ≤ p.high then
      let value := p.value * 0x40 + b.toNat % 0x40
      match p.more with
      | 0 => ([Char.ofNat value], none)
      | more + 1 => ([], some ⟨value, 0x80, 0xBF, more⟩)
    else
      let (chars, next) := start b
      (replacement :: chars, next)

def decodeFrom : Option Partial → List UInt8 → List Char
  | none, [] => []
  | some _, [] => [replacement]
  | pending, b :: rest =>
    let (chars, next) := step pending b
    chars ++ decodeFrom next rest

/-- The text of any list of bytes. -/
def decode (bytes : List UInt8) : String :=
  String.ofList (decodeFrom none bytes)

end ScriptIndex.Utf8
