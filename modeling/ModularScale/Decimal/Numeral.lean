import ModularScale.Decimal.BinaryFraction

/-! # Decimal numerals

The written form of a decimal number: a sign, digits before and after the point, and an exponent.
Its value as a float is the one nearest to the number it writes.
-/

namespace ModularScale

/-- A decimal numeral, read as `± whole.fraction * 10 ^ exponent`. -/
structure Numeral where
  negative : Bool
  whole : List Char
  fraction : List Char
  exponent : Int
deriving DecidableEq, Repr

namespace Numeral

def digitValue (c : Char) : Nat :=
  c.toNat - '0'.toNat

def ofDigits (digits : List Char) : Nat :=
  digits.foldl (fun n c => 10 * n + digitValue c) 0

/-- Whether a sign is a minus, and what follows the sign if there is one. -/
def splitSign : List Char → Bool × List Char
  | '-' :: cs => (true, cs)
  | '+' :: cs => (false, cs)
  | cs => (false, cs)

/-- The digits after a decimal point, and what follows them. -/
def splitFraction : List Char → List Char × List Char
  | '.' :: cs => (cs.takeWhile Char.isDigit, cs.dropWhile Char.isDigit)
  | cs => ([], cs)

def signed (negative : Bool) (n : Nat) : Int :=
  if negative then -n else n

/-- The exponent that a whole text is, or zero for the empty text. -/
def readExponent? : List Char → Option Int
  | [] => some 0
  | c :: cs =>
    let (negative, digits) := splitSign cs
    if (c = 'e' || c = 'E') && !digits.isEmpty && digits.all Char.isDigit then
      some (signed negative (ofDigits digits))
    else
      none

/-- Reads a whole text as a numeral, which has a digit before or after its point. -/
def read? (cs : List Char) : Option Numeral :=
  let (negative, cs) := splitSign cs
  let whole := cs.takeWhile Char.isDigit
  let (fraction, cs) := splitFraction (cs.dropWhile Char.isDigit)
  if whole.isEmpty && fraction.isEmpty then
    none
  else
    (readExponent? cs).map fun exponent => { negative, whole, fraction, exponent }

end Numeral

namespace Decimal

/-- The float nearest to `n * 10 ^ e`, where `n` has at most `digits` digits. A number from
`10 ^ 400` up is infinite and one below `10 ^ -400` is zero, so no larger power is computed. -/
def nearest (n digits : Nat) (e : Int) : Float :=
  if n = 0 || digits + e < -400 then 0
  else if 400 < e then infinity
  else ratio (n * Nat.pow 10 e.toNat) (Nat.pow 10 (-e).toNat)

end Decimal

namespace Numeral

def toFloat (x : Numeral) : Float :=
  let digits := x.whole ++ x.fraction
  Decimal.withSign x.negative
    (Decimal.nearest (ofDigits digits) digits.length (x.exponent - x.fraction.length))

end Numeral

end ModularScale
