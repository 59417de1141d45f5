import ModularScale.Decimal.BinaryFraction

/-! # Shortest decimals

The decimal with the fewest digits that reads back as a given float, and its written forms. The
decimals that read back fill an interval around the float, so the fewest digits are those of a
point of the interval on the coarsest grid of powers of ten that has one.
-/

namespace ModularScale

/-- The number `coefficient * 10 ^ exponent`. -/
structure Decimal where
  coefficient : Nat
  exponent : Int
deriving DecidableEq, Repr

/-- Which of two equally near decimals is chosen. -/
inductive Tie
  | up
  | even
deriving DecidableEq, Repr

/-- The numbers from `low / unit` to `high / unit`, around `value / unit`. -/
structure Neighbourhood where
  low : Nat
  value : Nat
  high : Nat
  unit : Nat
  closed : Bool
deriving DecidableEq, Repr

namespace Neighbourhood

/-- The numbers that round to a positive binary fraction. The gap below a power of two is half the
gap above it, save for the least exponent. -/
def ofBinary (b : BinaryFraction) : Neighbourhood :=
  let scale := Nat.pow 2 (b.exponent - 2).toNat
  let below := if b.significand = BinaryFraction.hiddenBit && -1074 < b.exponent then 1 else 2
  { low := (4 * b.significand - below) * scale
    value := 4 * b.significand * scale
    high := (4 * b.significand + 2) * scale
    unit := Nat.pow 2 (2 - b.exponent).toNat
    closed := b.significand % 2 == 0 }

/-- The same numbers counted in units of `10 ^ k`. -/
def rescale (s : Neighbourhood) (k : Int) : Neighbourhood :=
  let factor := Nat.pow 10 (-k).toNat
  { s with
    low := s.low * factor
    value := s.value * factor
    high := s.high * factor
    unit := s.unit * Nat.pow 10 k.toNat }

def contains (s : Neighbourhood) (n : Nat) : Bool :=
  let m := n * s.unit
  (s.low < m || (s.closed && s.low == m)) && (m < s.high || (s.closed && m == s.high))

/-- The whole number in the neighbourhood that is nearest to its value. -/
def nearestWhole? (s : Neighbourhood) (tie : Tie) : Option Nat :=
  let n := s.value / s.unit
  match s.contains n, s.contains (n + 1) with
  | false, false => none
  | true, false => some n
  | false, true => some (n + 1)
  | true, true =>
    let half := (2 * n + 1) * s.unit
    if 2 * s.value < half then some n
    else if half < 2 * s.value then some (n + 1)
    else match tie with
      | .up => some (n + 1)
      | .even => some (if n % 2 = 0 then n else n + 1)

/-- Tries the grids from `10 ^ k` down to ever finer ones. -/
def coarsest (s : Neighbourhood) (tie : Tie) : Nat → Int → Decimal
  | 0, k => ⟨(s.rescale k).value / (s.rescale k).unit, k⟩
  | tries + 1, k =>
    match (s.rescale k).nearestWhole? tie with
    | some n => ⟨n, k⟩
    | none => s.coarsest tie tries (k - 1)

end Neighbourhood

namespace Decimal

/-- The decimal with the fewest digits that reads back as a positive binary fraction. Its value
lies below `2 ^ (log2 + 1)`, hence below the power of ten where the search starts, and seventeen
digits tell any two floats apart. -/
def shortest (tie : Tie) (b : BinaryFraction) : Decimal :=
  let bits := b.significand.log2 + 1 + b.exponent
  (Neighbourhood.ofBinary b).coarsest tie 20 (bits * 30103 / 100000 + 1)

/-- How floats are written. -/
structure Format where
  tie : Tie
  /-- Whether a number is written without an exponent, by the exponent of its first digit. -/
  isPositional : Int → Bool
  /-- What a whole number has after its digits. -/
  wholeSuffix : String
  nonFinite : Float → String

def zeros (n : Nat) : List Char :=
  List.replicate n '0'

/-- The digits of a decimal with a point where it belongs. -/
def positional (wholeSuffix : List Char) (digits : List Char) (exponent : Int) : List Char :=
  let places := (-exponent).toNat
  if 0 ≤ exponent then digits ++ zeros exponent.toNat ++ wholeSuffix
  else if places < digits.length then
    digits.take (digits.length - places) ++ '.' :: digits.drop (digits.length - places)
  else '0' :: '.' :: zeros (places - digits.length) ++ digits

/-- One digit before the point, and a signed exponent. -/
def scientific (digits : List Char) (exponent : Int) : List Char :=
  let mantissa := match digits with
    | d :: e :: ds => d :: '.' :: e :: ds
    | ds => ds
  mantissa ++ 'e' :: (if exponent < 0 then '-' else '+') :: Nat.toDigits 10 exponent.natAbs

def writeMagnitude (format : Format) (b : BinaryFraction) : List Char :=
  if b.significand = 0 then '0' :: format.wholeSuffix.toList
  else
    let d := shortest format.tie b
    let digits := Nat.toDigits 10 d.coefficient
    let first := d.exponent + digits.length - 1
    if format.isPositional first then positional format.wholeSuffix.toList digits d.exponent
    else scientific digits first

def write (format : Format) (x : Float) : String :=
  match BinaryFraction.ofFloat? x with
  | none => format.nonFinite x
  | some b => String.ofList ((if b.negative then ['-'] else []) ++ writeMagnitude format b)

/-- Numbers in style sheets and messages: all digits, no exponent, no needless point. -/
def plain : Format where
  tie := .up
  isPositional _ := true
  wholeSuffix := ""
  nonFinite x := if x.isNaN then "NaN" else if x < 0 then "-inf" else "inf"

end Decimal

end ModularScale
