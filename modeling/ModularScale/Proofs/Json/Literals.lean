import ModularScale.Json.Literal

/-! # Strings that are read back

A text is written with escapes, so that the literal ends at its closing quote and stands for the
same text again.
-/

namespace ModularScale.Json

variable {c : Char} {cs rest : List Char}

theorem isHexDigit_hexDigit : ∀ n < 16, Css.isHexDigit (hexDigit n) = true := by
  decide

theorem ofHex_hexDigit : ∀ m < 2, ∀ n < 16,
    Css.ofHex ['0', '0', hexDigit m, hexDigit n] = 16 * m + n := by
  decide

/-- The forms in which a character is written. -/
inductive EscapeForm (c : Char) : List Char → Prop
  | short (d : Char) : isShortEscape d = true → d ≠ 'u' → shortEscape d = c → EscapeForm c ['\\', d]
  | long : c.toNat < 0x20 → EscapeForm c
    ['\\', 'u', '0', '0', hexDigit (c.toNat / 16), hexDigit (c.toNat % 16)]
  | plain : c ≠ '"' → c ≠ '\\' → ¬c.toNat < 0x20 → EscapeForm c [c]

theorem escapeForm (c : Char) : EscapeForm c (escapeChar c) := by
  unfold escapeChar
  simp only [Bool.or_eq_true, decide_eq_true_eq]
  split
  case isTrue h =>
    rcases h with rfl | rfl
    · exact .short '"' rfl (by decide) rfl
    · exact .short '\\' rfl (by decide) rfl
  case isFalse h =>
    rw [not_or] at h
    repeat' split
    case isTrue hc => exact .short 'b' rfl (by decide) hc.symm
    case isTrue hc => exact .short 'f' rfl (by decide) hc.symm
    case isTrue hc => exact .short 'n' rfl (by decide) hc.symm
    case isTrue hc => exact .short 'r' rfl (by decide) hc.symm
    case isTrue hc => exact .short 't' rfl (by decide) hc.symm
    case isTrue hc => exact .long hc
    case isFalse hc => exact .plain h.1 h.2 hc

theorem stringLiteral?_escapeChar (c : Char) (rest : List Char) :
    stringLiteral? (escapeChar c ++ rest) =
      (stringLiteral? rest).map fun tail => (escapeChar c ++ tail.1, tail.2) := by
  have h := escapeForm c
  generalize escapeChar c = literal at h
  cases h with
  | short d hd hu hc => simp [stringLiteral?, hd, hu]
  | long hc =>
    have h₁ := isHexDigit_hexDigit (c.toNat / 16) (by omega)
    have h₂ := isHexDigit_hexDigit (c.toNat % 16) (by omega)
    have h₀ : Css.isHexDigit '0' = true := rfl
    simp [stringLiteral?, h₀, h₁, h₂]
  | plain hq hb hc => simp [stringLiteral?, hb, hc]

theorem unescape?_escapeChar (c : Char) (rest : List Char) :
    unescape? (escapeChar c ++ rest) = (unescape? rest).map (c :: ·) := by
  have h := escapeForm c
  generalize escapeChar c = literal at h
  cases h with
  | short d hd hu hc => simp [unescape?, hu, hc]
  | long hc =>
    have hunit : codeUnit '0' '0' (hexDigit (c.toNat / 16)) (hexDigit (c.toNat % 16)) = c.toNat := by
      rw [codeUnit, ofHex_hexDigit _ (by omega) _ (by omega)]
      omega
    have hhigh : isHighSurrogate c.toNat = false := by
      simp [isHighSurrogate]
      omega
    have hlow : isLowSurrogate c.toNat = false := by
      simp [isLowSurrogate]
      omega
    rw [List.cons_append, unescape?.eq_def]
    simp [hunit, hhigh, hlow]
  | plain hq hb hc => simp [unescape?, hb]

/-- The literal of a text ends right before the quote behind it. -/
theorem stringLiteral?_escape (cs rest : List Char) :
    stringLiteral? (escape cs ++ '"' :: rest) = some (escape cs, rest) := by
  induction cs with
  | nil => rfl
  | cons c cs ih =>
    rw [escape, List.flatMap_cons, List.append_assoc, stringLiteral?_escapeChar, ← escape, ih]
    rfl

theorem unescape?_escape (cs : List Char) : unescape? (escape cs) = some cs := by
  induction cs with
  | nil => rfl
  | cons c cs ih =>
    rw [escape, List.flatMap_cons, unescape?_escapeChar, ← escape, ih]
    rfl

theorem text?_ofText (s : String) : (ofText s).text? = some s := by
  rw [ofText, text?, unescape?_escape, Option.map_some, String.ofList_toList]

end ModularScale.Json
