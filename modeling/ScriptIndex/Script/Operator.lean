import ScriptIndex.Arena.Kind
import ScriptIndex.Token.Kind

/-! # Operators

What tokens stand for as operators. A higher precedence binds tighter; operators of one precedence
associate to the left. -/

namespace ScriptIndex.TokenKind

/-- The operator that a token stands for between operands, and its precedence. -/
def binaryOp? : TokenKind → Option (BinaryOp × Nat)
  | .barBar => some (.logicalOr, 1)
  | .andAnd => some (.logicalAnd, 2)
  | .equalsEquals => some (.equality, 3)
  | .equalsEqualsEquals => some (.strictEquality, 3)
  | .bangEquals => some (.inequality, 3)
  | .bangEqualsEquals => some (.strictInequality, 3)
  | .angleOpen => some (.lessThan, 4)
  | .angleClose => some (.greaterThan, 4)
  | .plus => some (.add, 5)
  | .minus => some (.sub, 5)
  | .star => some (.mul, 6)
  | .slash => some (.div, 6)
  | _ => none

/-- The operator that a token stands for before an operand. -/
def unaryOp? : TokenKind → Option UnaryOp
  | .bang => some .not
  | .minus => some .neg
  | .plus => some .plus
  | .voidWord => some .void
  | .typeofWord => some .typeof
  | _ => none

end ScriptIndex.TokenKind
