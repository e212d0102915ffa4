import ScriptIndex.Text.Byte

/-! # Decimal numerals and the doubles nearest to them

`Numeral` is a decimal `digits / 10 ^ places`; `Numeral.toBinary64` is the IEEE 754 double nearest to
it, ties going to the even significand, computed on natural numbers. Values of at least
`2 ^ 1024 - 2 ^ 970` become infinity. -/

namespace ScriptIndex

/-- An IEEE 754 double, given by its 64 bits. -/
structure Binary64 where
  bits : UInt64
deriving Repr, DecidableEq, Inhabited

/-- The number `digits / 10 ^ places`. -/
structure Numeral where
  digits : Nat
  places : Nat
deriving Repr, DecidableEq

namespace Binary64

def infinity : Binary64 := ⟨0x7FF0000000000000⟩

end Binary64

/-- The integer nearest to `n / d`, the even one of two equally near. -/
def nearestQuotient (n d : Nat) : Nat :=
  let q := n / d
  let r := 2 * (n % d)
  if r < d || (r == d && q % 2 == 0) then q else q + 1

/-- Whether `2 ^ e ≤ n / d`. -/
def powerAtMost (n d : Nat) (e : Int) : Bool :=
  match e with
  | .ofNat k => d * Nat.pow 2 k ≤ n
  | .negSucc k => d ≤ n * Nat.pow 2 (k + 1)

/-- The greatest `e` with `2 ^ e ≤ n / d`, for positive `n` and `d`. -/
def binaryExponent (n d : Nat) : Int :=
  let e : Int := n.log2 - d.log2
  if powerAtMost n d e then e else e - 1

namespace Numeral

def valueOf (bytes : List UInt8) : Nat :=
  bytes.foldl (fun n b => n * 10 + (b.toNat - '0'.toNat)) 0

/-- Reads digits with an optional fraction; the fraction may be empty. -/
def ofBytes? (bytes : List UInt8) : Option Numeral :=
  let whole := bytes.takeWhile Byte.isDigit
  match whole, bytes.dropWhile Byte.isDigit with
  | [], _ => none
  | _, [] => some ⟨valueOf whole, 0⟩
  | _, mark :: fraction =>
    if mark == '.'.toUInt8 && fraction.all Byte.isDigit then
      some ⟨valueOf (whole ++ fraction), fraction.length⟩
    else none

/-- The nearest double. With the unit `2 ^ (scale - 1074)` of the value's binade, a significand `m`
and its exponent are stored as `m + scale * 2 ^ 52`, and a significand that rounds up to `2 ^ 53`
carries into the exponent. -/
def toBinary64 (x : Numeral) : Binary64 :=
  if x.digits = 0 then ⟨0⟩
  else
    let places := Nat.pow 10 x.places
    let scale : Nat := (binaryExponent x.digits places + 1022).toNat
    let significand := nearestQuotient (x.digits * Nat.pow 2 1074) (places * Nat.pow 2 scale)
    let bits := significand + scale * Nat.pow 2 52
    if bits < Binary64.infinity.bits.toNat then ⟨bits.toUInt64⟩ else .infinity

end Numeral

end ScriptIndex
