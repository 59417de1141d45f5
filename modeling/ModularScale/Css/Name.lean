import ModularScale.Css.Character
import ModularScale.Decimal.Numeral

/-! # Names and escapes

A name is a run of letters, digits, dashes and escapes; an escape is a backslash before the code
of a character or before the character itself.
-/

namespace ModularScale.Css

def hexValue (c : Char) : Nat :=
  if c.isDigit then Numeral.digitValue c else c.toLower.toNat - 'a'.toNat + 10

def ofHex (digits : List Char) : Nat :=
  digits.foldl (fun n c => 16 * n + hexValue c) 0

/-- The character with this code, if there is one other than NUL. -/
def characterOf (n : Nat) : Char :=
  if n ≠ 0 ∧ n.isValidChar then Char.ofNat n else replacement

/-- The character that an escape stands for. The text starts behind the backslash, and a code has
six digits at most and may be closed by a space. -/
def escape : List Char → Scan Char
  | [] => ⟨replacement, 0⟩
  | c :: cs =>
    if isHexDigit c then
      let digits := ((c :: cs).take 6).takeWhile isHexDigit
      ⟨characterOf (ofHex digits), digits.length + spaceLength ((c :: cs).drop digits.length)⟩
    else
      ⟨replaceNul c, 1⟩

/-- The longest name at the start of a text, with its escapes resolved. -/
def name : List Char → Scan (List Char)
  | [] => ⟨[], 0⟩
  | c :: cs =>
    if isNameChar c then (name cs).cons (replaceNul c) 1
    else if c = '\\' && !startsWith isNewline cs then
      let escaped := escape cs
      (name (cs.drop escaped.length)).cons escaped.value (1 + escaped.length)
    else
      ⟨[], 0⟩
termination_by cs => cs.length
decreasing_by all_goals simp only [List.length_cons, List.length_drop]; omega

/-- Whether a name, and not a number or a delimiter, starts here. -/
def startsName : List Char → Bool
  | '-' :: cs => startsWith (fun c => isNameStart c || c == '-' || c == '\\') cs
  | '\\' :: cs => !startsWith isNewline cs
  | cs => startsWith isNameStart cs

end ModularScale.Css
