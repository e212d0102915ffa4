/-! # Bytes of a script

A script is a list of bytes. The classes below are over ASCII: a byte from `0x80` up is in none of
them, so it may stand only inside comments and string literals. -/

namespace ScriptIndex

/-- The bytes of a text made of ASCII characters. -/
def ascii (text : String) : List UInt8 :=
  text.toList.map Char.toUInt8

/-- The number of bytes before the first place in the list where `text` begins. -/
def offsetOf? (text : List UInt8) : List UInt8 → Option Nat
  | [] => if text.isEmpty then some 0 else none
  | b :: rest => if text.isPrefixOf (b :: rest) then some 0 else (offsetOf? text rest).map (· + 1)

namespace Byte

def newline : UInt8 := '\n'.toUInt8
def backslash : UInt8 := '\\'.toUInt8
def doubleQuote : UInt8 := 0x22
def singleQuote : UInt8 := 0x27

/-- Space, tab, line feed, form feed and carriage return. -/
def isBlank (b : UInt8) : Bool :=
  b == ' '.toUInt8 || b == '\t'.toUInt8 || b == newline || b == 0x0C || b == '\r'.toUInt8

def isDigit (b : UInt8) : Bool :=
  '0'.toUInt8 ≤ b && b ≤ '9'.toUInt8

def isLetter (b : UInt8) : Bool :=
  ('A'.toUInt8 ≤ b && b ≤ 'Z'.toUInt8) || ('a'.toUInt8 ≤ b && b ≤ 'z'.toUInt8)

def isWordStart (b : UInt8) : Bool :=
  isLetter b || b == '_'.toUInt8 || b == '$'.toUInt8

def isWordPart (b : UInt8) : Bool :=
  isWordStart b || isDigit b

def isQuote (b : UInt8) : Bool :=
  b == doubleQuote || b == singleQuote

/-- May stand in the name of a type: a dot separates the segments of a name. -/
def isTypeNamePart (b : UInt8) : Bool :=
  isLetter b || isDigit b || b == '_'.toUInt8 || b == '$'.toUInt8 || b == '.'.toUInt8

end Byte

end ScriptIndex
