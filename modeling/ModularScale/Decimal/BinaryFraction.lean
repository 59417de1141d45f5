/-! # Binary fractions

Each finite float is a whole number times a power of two. The float nearest to a quotient, the
nearest one of single precision and the nearest whole number are found by exact arithmetic.
-/

namespace ModularScale

/-- The number `± significand * 2 ^ exponent`. -/
structure BinaryFraction where
  negative : Bool
  significand : Nat
  exponent : Int
deriving DecidableEq, Repr

/-- How many binary digits a number has at most, and the least exponent of the last one. -/
structure Precision where
  digits : Nat
  least : Int
deriving DecidableEq, Repr

namespace Precision

def single : Precision :=
  ⟨24, -149⟩

def double : Precision :=
  ⟨53, -1074⟩

end Precision

namespace BinaryFraction

/-- The number `2 ^ 52`, the least significand of a normal float. -/
def hiddenBit : Nat :=
  Nat.pow 2 52

def ofFloat? (x : Float) : Option BinaryFraction :=
  let bits := x.toBits.toNat
  let negative := decide (2048 * hiddenBit ≤ bits)
  let biased := bits / hiddenBit % 2048
  let fraction := bits % hiddenBit
  if biased = 2047 then none
  else if biased = 0 then some ⟨negative, fraction, -1074⟩
  else some ⟨negative, fraction + hiddenBit, (biased : Int) - 1075⟩

/-- The magnitude as a quotient of whole numbers, one of which is a power of two. -/
def numerator (b : BinaryFraction) : Nat :=
  b.significand * Nat.pow 2 b.exponent.toNat

def denominator (b : BinaryFraction) : Nat :=
  Nat.pow 2 (-b.exponent).toNat

/-- The quotient `n / d` as a whole number; a half goes to the even one. -/
def divHalfEven (n d : Nat) : Nat :=
  let q := n / d
  let twice := 2 * (n % d)
  if twice < d || (twice == d && q % 2 == 0) then q else q + 1

/-- The exponent of the first binary digit of `n / d`, which is the difference of the logarithms
or less by one. -/
def leading (n d : Nat) : Int :=
  let k : Int := n.log2 - d.log2
  if d * Nat.pow 2 k.toNat ≤ n * Nat.pow 2 (-k).toNat then k else k - 1

/-- The number of a precision that is nearest to `n / d`; a half goes to the even one. -/
def ofRatio (p : Precision) (n d : Nat) : BinaryFraction :=
  let exponent := max (leading n d - (p.digits - 1)) p.least
  { negative := false
    significand := divHalfEven (n * Nat.pow 2 (-exponent).toNat) (d * Nat.pow 2 exponent.toNat)
    exponent }

end BinaryFraction

namespace Decimal

def infinity : Float :=
  Float.ofBits 0x7FF0000000000000

def notANumber : Float :=
  Float.ofBits 0x7FF8000000000000

def withSign (negative : Bool) (x : Float) : Float :=
  if negative then -x else x

/-- The float nearest to `n / d`. The bits of floats count them in their order, so the exponent
and the significand add up, and infinity follows the largest number. -/
def ratio (n d : Nat) : Float :=
  let b := BinaryFraction.ofRatio .double n d
  let bits := (b.exponent + 1074).toNat * BinaryFraction.hiddenBit + b.significand
  if n = 0 then 0 else Float.ofBits (UInt64.ofNat (min bits (2047 * BinaryFraction.hiddenBit)))

/-- The place of a float in the total order of all floats, where `-0` comes before `0`. The bits of
negative floats count down. -/
def orderKey (x : Float) : Int :=
  let bits := x.toBits.toNat
  if bits < Nat.pow 2 63 then bits else Nat.pow 2 63 - 1 - bits

/-- The nearest whole number; a half goes away from zero. -/
def roundHalfAway (x : Float) : Float :=
  match BinaryFraction.ofFloat? x with
  | none => x
  | some b =>
    withSign b.negative (ratio ((2 * b.numerator + b.denominator) / (2 * b.denominator)) 1)

/-- The nearest number of single precision, which is infinite from `2 ^ 128` up. -/
def toSingle (x : Float) : Float :=
  match BinaryFraction.ofFloat? x with
  | none => x
  | some b =>
    let s := BinaryFraction.ofRatio .single b.numerator b.denominator
    withSign b.negative
      (if Nat.pow 2 128 * s.denominator ≤ s.numerator then infinity
      else ratio s.numerator s.denominator)

end Decimal

end ModularScale
