import ModularScale.Css.Name
import ModularScale.Decimal.Shortest
import ModularScale.Json.Reader

/-! # What JSON literals stand for

The characters of a string with escapes and the value of a number.
-/

namespace ModularScale.Json

def codeUnit (a b c d : Char) : Nat :=
  Css.ofHex [a, b, c, d]

def isHighSurrogate (n : Nat) : Bool :=
  0xD800 ≤ n && n < 0xDC00

def isLowSurrogate (n : Nat) : Bool :=
  0xDC00 ≤ n && n < 0xE000

def shortEscape (c : Char) : Char :=
  if c = 'b' then '\x08'
  else if c = 'f' then '\x0c'
  else if c = 'n' then '\n'
  else if c = 'r' then '\r'
  else if c = 't' then '\t'
  else c

/-- The text that a literal writes, unless a surrogate stands in it without its other half. -/
def unescape? : List Char → Option (List Char)
  | [] => some []
  | '\\' :: 'u' :: a :: b :: c :: d :: cs =>
    let unit := codeUnit a b c d
    if isHighSurrogate unit then
      match cs with
      | '\\' :: 'u' :: a :: b :: c :: d :: cs =>
        let low := codeUnit a b c d
        if isLowSurrogate low then
          (unescape? cs).map (Char.ofNat (0x10000 + (unit - 0xD800) * 0x400 + (low - 0xDC00)) :: ·)
        else none
      | _ => none
    else if isLowSurrogate unit then none
    else (unescape? cs).map (Char.ofNat unit :: ·)
  | '\\' :: c :: cs => (unescape? cs).map (shortEscape c :: ·)
  | c :: cs => (unescape? cs).map (c :: ·)

def text? : Json → Option String
  | string literal => (unescape? literal).map String.ofList
  | _ => none

/-- Adds digits to a significand as long as it stays below `2 ^ 64`, and counts them. -/
def takeDigits (significand : Nat) : List Char → Nat × Nat
  | [] => (significand, 0)
  | c :: cs =>
    let next := 10 * significand + Numeral.digitValue c
    if next < Nat.pow 2 64 then
      let tail := takeDigits next cs
      (tail.1, tail.2 + 1)
    else (significand, 0)

/-- The product `x * 10 ^ e`, one rounded step at a time, unless it is too large. -/
def scale? (x : Float) (e : Int) : Option Float :=
  if e.natAbs ≤ 308 then
    let power := Decimal.ratio (Nat.pow 10 e.natAbs) 1
    if 0 ≤ e then (some (x * power)).filter Float.isFinite else some (x / power)
  else if x == 0 then some x
  else if 0 ≤ e then none
  else scale? (x / 1e308) (e + 308)
termination_by e.natAbs
decreasing_by omega

/-- The value of a numeral, whose digits count up to a significand of 64 bits. -/
def floatOfNumeral? (x : Numeral) : Option Float :=
  let whole := takeDigits 0 x.whole
  let all := takeDigits whole.1 x.fraction
  let exponent := x.exponent + (x.whole.length - whole.2 : Nat) - all.2
  (scale? (Decimal.ratio all.1 1) exponent).map (Decimal.withSign x.negative)

def float? : Json → Option Float
  | number literal => (Numeral.read? literal).bind floatOfNumeral?
  | _ => none

/-- Numbers in JSON: a point or an exponent in each of them. -/
def numberFormat : Decimal.Format where
  tie := .even
  isPositional first := -5 ≤ first && first < 16
  wholeSuffix := ".0"
  nonFinite _ := "null"

def ofFloat (x : Float) : Json :=
  number (Decimal.write numberFormat x).toList

end ModularScale.Json
