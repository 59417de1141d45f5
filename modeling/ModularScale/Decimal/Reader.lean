import ModularScale.Decimal.Numeral
import ModularScale.Text.Casing

/-! # Reading numbers

A float is written as a decimal numeral, as an infinity or as no number; a number is a finite one,
with any blank characters around it.
-/

namespace ModularScale.Decimal

/-- The values without digits, in any case and with any sign. -/
def readSpecial? (cs : List Char) : Option Float :=
  let (negative, cs) := Numeral.splitSign cs
  let name := String.ofList (Text.asciiLower cs)
  if name = "inf" || name = "infinity" then some (withSign negative infinity)
  else if name = "nan" then some notANumber
  else none

def readFloat? (cs : List Char) : Option Float :=
  ((Numeral.read? cs).map Numeral.toFloat).or (readSpecial? cs)

/-- The finite number that a text is, apart from blank characters at its ends. -/
def readNumber? (text : String) : Option Float :=
  (readFloat? (Text.trim text.toList)).filter Float.isFinite

def isNumber (text : String) : Bool :=
  (readNumber? text).isSome

end ModularScale.Decimal
