import ModularScale.Settings
import ModularScale.Decimal.Rounding

/-! # The modular scale

Step `n` of the scale is the root size times the `n`-th power of the ratio.
-/

namespace ModularScale

/-- The parameters of a scale, as `ofParameters` admits them. -/
structure Scale where
  ratio : Float
  documentFontSize : Float

namespace Decimal

def isPositive (x : Float) : Bool :=
  x.isFinite && 0 < x

/-- A real power of a positive number. -/
def power (base exponent : Float) : Float :=
  if exponent == 0 then 1 else Float.pow base exponent

end Decimal

namespace Scale

/-- Decimal places of the sizes that are written. -/
def places : Int := 4

/-- The scale with a finite ratio above 1 and a finite positive font size. -/
def ofParameters (ratio documentFontSize : Float) : Except SettingsError Scale :=
  if !(ratio.isFinite && 1 < ratio) then .error (.invalidRatio ratio)
  else if !Decimal.isPositive documentFontSize then
    .error (.invalidDocumentFontSize documentFontSize)
  else .ok ⟨ratio, documentFontSize⟩

/-- The size of a step relative to the document font size, where the root font has a size of its
own. -/
def size (s : Scale) (root exponent : Float) : Float :=
  root / s.documentFontSize * Decimal.power s.ratio exponent

/-- The root size as a percentage of the document font size. -/
def percentage (s : Scale) (root : Float) : String :=
  Decimal.writePercentage places root s.documentFontSize ++ "%"

end Scale

end ModularScale
