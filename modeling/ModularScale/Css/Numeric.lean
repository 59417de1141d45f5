import ModularScale.Css.Character
import ModularScale.Decimal.Numeral

/-! # Numbers in style sheets

A number needs a digit; a point or an exponent mark counts only if a digit follows. Its value is
summed digit by digit, each step rounded.
-/

namespace ModularScale.Css

/-- Whether a number starts here. -/
def startsNumber : List Char → Bool
  | '+' :: '.' :: cs => startsWith Char.isDigit cs
  | '-' :: '.' :: cs => startsWith Char.isDigit cs
  | '.' :: cs => startsWith Char.isDigit cs
  | '+' :: cs => startsWith Char.isDigit cs
  | '-' :: cs => startsWith Char.isDigit cs
  | cs => startsWith Char.isDigit cs

def signLength : List Char → Nat
  | '+' :: _ => 1
  | '-' :: _ => 1
  | _ => 0

/-- The digits behind a point. -/
def fractionDigits : List Char → List Char
  | '.' :: cs => cs.takeWhile Char.isDigit
  | _ => []

/-- A point counts only if digits follow it. -/
def fractionLength (digits : List Char) : Nat :=
  if digits.isEmpty then 0 else 1 + digits.length

/-- The exponent behind an exponent mark that a number follows. -/
def exponentPart : List Char → Scan Int
  | [] => ⟨0, 0⟩
  | c :: cs =>
    let sign := signLength cs
    let digits := (cs.drop sign).takeWhile Char.isDigit
    if (c = 'e' || c = 'E') && !digits.isEmpty then
      ⟨Numeral.signed (startsWith (· == '-') cs) (Numeral.ofDigits digits),
        1 + sign + digits.length⟩
    else
      ⟨0, 0⟩

/-- The number at the start of a text. -/
def numeral (cs : List Char) : Scan Numeral :=
  let sign := signLength cs
  let whole := (cs.drop sign).takeWhile Char.isDigit
  let afterWhole := cs.drop (sign + whole.length)
  let fraction := fractionDigits afterWhole
  let exponent := exponentPart (afterWhole.drop (fractionLength fraction))
  { value :=
      { negative := startsWith (· == '-') cs
        whole
        fraction
        exponent := exponent.value }
    length := sign + whole.length + fractionLength fraction + exponent.length }

/-- Adds up digits behind the point, the first of which counts `factor`. -/
def sumFraction (sum factor : Float) : List Char → Float
  | [] => sum
  | c :: cs =>
    sumFraction (sum + Float.ofNat (Numeral.digitValue c) * factor) (factor * 0.1) cs

/-- The value of a number token, in single precision. -/
def value (x : Numeral) : Float :=
  let whole := x.whole.foldl (fun n c => n * 10 + Float.ofNat (Numeral.digitValue c)) 0
  let magnitude := whole + sumFraction 0 0.1 x.fraction
  let signed := Decimal.withSign x.negative magnitude
  Decimal.toSingle
    (if x.exponent = 0 then signed else signed * Float.pow 10 (Float.ofInt x.exponent))

end ModularScale.Css
