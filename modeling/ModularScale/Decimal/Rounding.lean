import ModularScale.Decimal.Shortest

/-! # Rounding to decimal places

Sizes and percentages are written with a given number of decimal places at most.
-/

namespace ModularScale.Decimal

/-- Multiplies `acc` by `base ^ n`, squaring the base for each binary digit of `n`. -/
def mulPower (acc base : Float) (n : Nat) : Float :=
  let acc := if n % 2 = 1 then acc * base else acc
  if h : n / 2 = 0 then acc else mulPower acc (base * base) (n / 2)
termination_by n
decreasing_by omega

def powerOfTen (places : Int) : Float :=
  let p := mulPower 1 10 places.natAbs
  if places < 0 then 1 / p else p

/-- The nearest number with so many decimal places, where zero has no sign. -/
def roundTo (places : Int) (x : Float) : Float :=
  let factor := powerOfTen places
  let rounded := roundHalfAway (x * factor) / factor
  if rounded == 0 then 0 else rounded

def writeRounded (places : Int) (x : Float) : String :=
  write plain (roundTo places x)

/-- What percentage `size` is of `reference`. -/
def writePercentage (places : Int) (size reference : Float) : String :=
  writeRounded places (size / reference * 100)

end ModularScale.Decimal
