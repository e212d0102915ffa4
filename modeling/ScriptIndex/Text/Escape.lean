/-! # Escapes in string literals

A backslash and the character after it stand for one character: `n`, `t`, `r` and `0` for the line
feed, tab, carriage return and null, and any other character for itself. -/

namespace ScriptIndex.Escape

/-- The character that an escaped character stands for. -/
def meaning : Char → Char
  | 'n' => '\n'
  | 't' => '\t'
  | 'r' => '\r'
  | '0' => '\x00'
  | c => c

/-- The text that the inside of a literal stands for. A backslash at the very end stands for
nothing. -/
def decode : List Char → List Char
  | [] => []
  | [c] => if c = '\\' then [] else [c]
  | c :: d :: rest => if c = '\\' then meaning d :: decode rest else c :: decode (d :: rest)

end ScriptIndex.Escape
