/-! # Kinds of tokens

The two tables say which words are keywords and which marks are punctuators. In the punctuator table
a mark stands before every shorter mark that begins it, so that the first mark found is the longest. -/

namespace ScriptIndex

inductive TokenKind
  | eof
  | andAnd | star | barBar | braceClose | braceOpen | bracketClose | bracketOpen | angleOpen | angleClose
  | colon | comma | dot | equals | equalsEquals | equalsEqualsEquals | bang | bangEquals
  | bangEqualsEquals | minus
  | identifier
  | constWord | elseWord | functionWord | ifWord | letWord | returnWord | thisWord | typeofWord | varWord
  | voidWord
  | falseLiteral | nullLiteral | numberLiteral | stringLiteral | trueLiteral
  | parenClose | parenOpen | plus | semicolon | slash
deriving Repr, DecidableEq

namespace TokenKind

def label : TokenKind → String
  | eof => "EOF"
  | andAnd => "AmpersandAmpersand"
  | star => "Asterisk"
  | barBar => "BarBar"
  | braceClose => "BraceClose"
  | braceOpen => "BraceOpen"
  | bracketClose => "BracketClose"
  | bracketOpen => "BracketOpen"
  | angleOpen => "ChevronLeft"
  | angleClose => "ChevronRight"
  | colon => "Colon"
  | comma => "Comma"
  | dot => "Dot"
  | equals => "Equals"
  | equalsEquals => "EqualsEquals"
  | equalsEqualsEquals => "EqualsEqualsEquals"
  | bang => "Exclamation"
  | bangEquals => "ExclamationEquals"
  | bangEqualsEquals => "ExclamationEqualsEquals"
  | minus => "Hyphen"
  | identifier => "Identifier"
  | constWord => "KeywordConst"
  | elseWord => "KeywordElse"
  | functionWord => "KeywordFunction"
  | ifWord => "KeywordIf"
  | letWord => "KeywordLet"
  | returnWord => "KeywordReturn"
  | thisWord => "KeywordThis"
  | typeofWord => "KeywordTypeof"
  | varWord => "KeywordVar"
  | voidWord => "KeywordVoid"
  | falseLiteral => "LiteralFalse"
  | nullLiteral => "LiteralNull"
  | numberLiteral => "LiteralNumber"
  | stringLiteral => "LiteralString"
  | trueLiteral => "LiteralTrue"
  | parenClose => "ParenthesisClose"
  | parenOpen => "ParenthesisOpen"
  | plus => "Plus"
  | semicolon => "Semicolon"
  | slash => "Slash"

def keywords : List (String × TokenKind) :=
  [("const", constWord), ("else", elseWord), ("false", falseLiteral), ("function", functionWord),
   ("if", ifWord), ("let", letWord), ("null", nullLiteral), ("return", returnWord), ("this", thisWord),
   ("true", trueLiteral), ("typeof", typeofWord), ("var", varWord), ("void", voidWord)]

/-- The marks, longer ones first. -/
def punctuators : List (String × TokenKind) :=
  [("===", equalsEqualsEquals), ("!==", bangEqualsEquals),
   ("==", equalsEquals), ("!=", bangEquals), ("&&", andAnd), ("||", barBar),
   ("=", equals), ("!", bang), ("(", parenOpen), (")", parenClose),
   ("\x7b", braceOpen), ("\x7d", braceClose), ("[", bracketOpen), ("]", bracketClose),
   ("<", angleOpen), (">", angleClose), (";", semicolon), (",", comma), (":", colon), (".", dot),
   ("+", plus), ("-", minus), ("*", star), ("/", slash)]

def isKeyword (kind : TokenKind) : Bool :=
  keywords.any fun entry => entry.2 == kind

end TokenKind

end ScriptIndex
