/-!
# The numbers that literals stand for

An integer literal stands for an integer, a float literal for the double nearest to the decimal it writes. A double
consists of a sign, an exponent of eleven bits and a fraction of 52. Magnitudes are counted here in units of the least
one, `2 ^ -1074`.
-/

namespace GraphQL.Number

/-- The number that the digits write in base ten. -/
def natOfDigits (digits : List Char) : Nat := digits.foldl (fun n c => 10 * n + (c.toNat - '0'.toNat)) 0

/-- Whether the text consists of digits, one at least. -/
def areDigits (text : List Char) : Bool := text ≠ [] && text.all Char.isDigit

/-- Whether a text starts with a minus, and what comes after it. -/
def splitSign : List Char → Bool × List Char
  | '-' :: text => (true, text)
  | text => (false, text)

/-- The integer of a text `-? digits`. -/
def intOf? (text : List Char) : Option Int :=
  let (negative, digits) := splitSign text
  if areDigits digits then some (if negative then -(natOfDigits digits : Int) else natOfDigits digits) else none

/-- The integer of a literal. -/
def intOfLiteral? (raw : String) : Option Int := intOf? raw.toList

/-- The integer of a literal, if 32 bits hold it. -/
def int32OfLiteral? (raw : String) : Option Int :=
  (intOfLiteral? raw).filter fun n => -2147483648 ≤ n && n ≤ 2147483647

/-- The integer nearest to a fraction, of two the even one. -/
def roundHalfEven (a b : Nat) : Nat :=
  let (quotient, rest) := (a / b, a % b)
  if 2 * rest < b then quotient else if b < 2 * rest then quotient + 1 else quotient + quotient % 2

/-- The bits of an infinite magnitude: a full exponent over an empty fraction. -/
def infinityBits : Nat := 2047 <<< 52

/-- The bits of the double nearest to a fraction. From `2 ^ 53` units on, doubles lie `2 ^ scale` units apart; what is
rounded up to a power of two carries into the exponent. -/
def nearestBits (a b : Nat) : Nat :=
  let scale := (a / b).log2 - 52
  min (scale <<< 52 + roundHalfEven a (b <<< scale)) infinityBits

/-- A decimal: its sign, its digits as an integer, and the power of ten that they count. -/
structure Decimal where
  negative : Bool
  mantissa : Nat
  exponent : Int
deriving DecidableEq

/-- Whether a power of ten starts with the character. -/
def isMark (c : Char) : Bool := c = 'e' || c = 'E'

/-- The digits of a fraction `(. digits)?`. -/
def fractionOf? : List Char → Option (List Char)
  | [] => some []
  | '.' :: digits => if areDigits digits then some digits else none
  | _ => none

/-- The power of `([eE] [+-]? digits)?`. -/
def powerOf? : List Char → Option Int
  | [] => some 0
  | _ :: '+' :: digits => if areDigits digits then some (natOfDigits digits) else none
  | _ :: text => intOf? text

/-- The digits of a text without a sign as an integer, and the power of ten that they count. -/
def magnitudeOf? (text : List Char) : Option (Nat × Int) := do
  let (whole, tail) := (text.takeWhile Char.isDigit, text.dropWhile Char.isDigit)
  let fraction ← fractionOf? (tail.takeWhile (!isMark ·))
  let power ← powerOf? (tail.dropWhile (!isMark ·))
  if areDigits whole then some (natOfDigits (whole ++ fraction), power - fraction.length) else none

/-- The decimal that a number literal writes. -/
def decimalOfLiteral? (raw : String) : Option Decimal :=
  let (negative, text) := splitSign raw.toList
  (magnitudeOf? text).map fun (mantissa, exponent) => ⟨negative, mantissa, exponent⟩

namespace Decimal

/-- The bits of the double nearest to the magnitude of a decimal. A power of ten is not computed where it settles this
by its size. -/
def doubleBits (d : Decimal) : Nat :=
  match d.exponent with
  | .ofNat e =>
    if d.mantissa = 0 then 0
    else if 400 < e then infinityBits
    else nearestBits ((d.mantissa * Nat.pow 10 e) <<< 1074) 1
  | .negSucc k =>
    if d.mantissa.log2 + 1100 < 3 * (k + 1) then 0
    else nearestBits (d.mantissa <<< 1074) (Nat.pow 10 (k + 1))

/-- The double nearest to a decimal. -/
def toFloat (d : Decimal) : Float :=
  Float.ofBits (.ofNat (if d.negative then 1 <<< 63 + d.doubleBits else d.doubleBits))

/-- The least magnitude that is rounded to infinity: half way between the greatest double and the power of two that
would come next. -/
def overflow : Nat := Nat.pow 2 1024 - Nat.pow 2 970

/-- Whether the double nearest to a decimal is finite. A power of ten is not computed where it settles this by its
size. -/
def isFinite (d : Decimal) : Bool :=
  match d.exponent with
  | .ofNat e => d.mantissa = 0 || (e ≤ 400 && d.mantissa * Nat.pow 10 e < overflow)
  | .negSucc k => d.mantissa.log2 < 3 * (k + 1) || d.mantissa < overflow * Nat.pow 10 (k + 1)

end Decimal

/-- The double of a number literal, infinite when the literal is too large. -/
def floatOfLiteral (raw : String) : Float :=
  match decimalOfLiteral? raw with
  | some d => d.toFloat
  | none => 0.0 / 0.0

/-- The double of a number literal, if it is finite. -/
def finiteOfLiteral? (raw : String) : Option Float :=
  ((decimalOfLiteral? raw).filter Decimal.isFinite).map Decimal.toFloat

end GraphQL.Number
