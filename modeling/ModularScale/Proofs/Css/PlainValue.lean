import ModularScale.Proofs.Css.Printing

/-! # Plain values

A value of letters, digits, points, dashes and percent signs is read back behind its property.
-/

namespace ModularScale.Css

open Components

variable {c : Char} {a cs n : List Char} {inside : Option Bracket}

/-- A character of numbers, of names in ASCII and of percentages. -/
def isPlainChar (c : Char) : Bool :=
  c.isAlphanum || c == '-' || c == '.' || c == '%'

/-- A text of plain characters. -/
def IsPlain (a : List Char) : Prop :=
  ∀ c ∈ a, isPlainChar c = true

theorem lt_of_isPlainChar (h : isPlainChar c = true) : c.toNat < 128 := by
  unfold isPlainChar at h
  delta Char.isAlphanum Char.isAlpha Char.isUpper Char.isLower Char.isDigit at h
  simp only [Bool.or_eq_true, Bool.and_eq_true, decide_eq_true_eq, beq_iff_eq,
    UInt32.le_iff_toNat_le, ge_iff_le] at h
  rcases h with ((((⟨-, h⟩ | ⟨-, h⟩) | ⟨-, h⟩) | rfl) | rfl) | rfl
  · exact Nat.lt_of_le_of_lt h (by decide)
  · exact Nat.lt_of_le_of_lt h (by decide)
  · exact Nat.lt_of_le_of_lt h (by decide)
  · decide
  · decide
  · decide

/-- What a test that only holds of other characters says of a plain one. -/
theorem eq_false_of_isPlainChar {p : Char → Bool} (h : isPlainChar c = true)
    (hp : ∀ n < 128, isPlainChar (Char.ofNat n) = true → p (Char.ofNat n) = false) :
    p c = false := by
  have hc := hp c.toNat (lt_of_isPlainChar h)
  rw [Char.ofNat_toNat] at hc
  exact hc h

theorem isBlank_of_isPlainChar (h : isPlainChar c = true) : Text.isBlank c = false :=
  eq_false_of_isPlainChar h (by decide +kernel)

theorem isSpace_of_isPlainChar (h : isPlainChar c = true) : isSpace c = false :=
  eq_false_of_isPlainChar h (by decide +kernel)

namespace Token

/-- Whether a token with this text can be part of a value in which nothing is enclosed. -/
def isPlain (text : List Char) (token : Token) : Bool :=
  token.isInline && token.isClosed text && token ≠ .whiteSpace

end Token

theorem isPlain_numericToken (text cs : List Char) :
    (numericToken cs).value.isPlain text = true :=
  value_numericToken (P := fun t => t.isPlain text = true) (fun _ => rfl) (fun _ _ => rfl)
    (fun _ => rfl) cs

theorem isPlain_signToken (h : isPlainChar c = true) (text cs : List Char) :
    (signToken c cs).value.isPlain text = true := by
  fun_cases signToken c cs with
  | case1 | case2 | case3 | case5 => rfl
  | case4 _ _ _ hc =>
    obtain rfl : c = '/' := of_decide_eq_true (Bool.and_eq_true_iff.mp hc).1
    cases h
  | case6 =>
    dsimp only
    split <;> first | rfl | cases h

/-- Plain characters make up tokens without brackets and without marks that enclose. -/
theorem isPlain_nextToken (h : IsPlain (c :: cs)) (text : List Char) :
    (nextToken c cs).value.isPlain text = true := by
  have hc : isPlainChar c = true := h c List.mem_cons_self
  have hq : (c = '"' || c = '\'') = false :=
    eq_false_of_isPlainChar (p := fun c => c = '"' || c = '\'') hc (by decide +kernel)
  rw [nextToken, isSpace_of_isPlainChar hc, if_neg Bool.false_ne_true, hq,
    if_neg Bool.false_ne_true]
  split
  · exact isPlain_numericToken text _
  split
  · rfl
  split
  · rw [nameToken_eq]
    split
    case isTrue hs =>
      cases hd : (c :: cs).drop (name (c :: cs)).length with
      | nil => rw [hd] at hs; cases hs
      | cons d ds =>
        rw [hd] at hs
        obtain rfl : d = '(' := beq_iff_eq.mp hs
        cases h '(' (List.mem_of_mem_drop (hd ▸ List.mem_cons_self))
    case isFalse => rfl
  · exact isPlain_signToken hc text cs

theorem isPlain_tokens (h : IsPlain a) : ∀ l ∈ tokens a, l.token.isPlain l.text = true := by
  generalize hls : tokens a = ls
  induction ls generalizing a with
  | nil => exact List.forall_mem_nil _
  | cons l ls ih =>
    cases a with
    | nil => rw [tokens_nil] at hls; cases hls
    | cons c cs =>
      rw [tokens_cons, List.cons.injEq] at hls
      obtain ⟨rfl, hls⟩ := hls
      refine List.forall_mem_cons.mpr ⟨isPlain_nextToken h _, ih (fun d hd => ?_) hls⟩
      exact h d (List.mem_cons_of_mem _ (List.mem_of_mem_drop hd))

theorem IsPlain.solid (h : IsPlain a) (inside : Option Bracket) :
    Solid inside (row (tokens a)) := by
  have htokens := isPlain_tokens h
  simp only [Token.isPlain, Bool.and_eq_true, decide_eq_true_eq] at htokens
  have hregular : Regular (tokens a) := by
    refine regular_tokens (fun hm => ?_) (fun c hc hb => ?_) fun l hl => (htokens l hl).1.2
    · cases h _ hm
    · rw [isBlank_of_isPlainChar (h c hc)] at hb
      cases hb
  have hsound : Sound inside (row (tokens a)) :=
    ⟨balanced_row (fun l hl => (htokens l hl).1.1) inside, [], by simpa using hregular⟩
  refine hsound.solid (fun l hl => ?_) (fun l hl => ?_)
  · exact (htokens l (by simpa using List.mem_of_head? hl)).2
  · exact (htokens l (by simpa using List.mem_of_getLast? hl)).2

/-- A plain value is read back. -/
theorem IsPlain.reprints_declaration (h : IsPlain a) (hn : IsName n) (hp : propertyName n = n)
    (line : Option Nat) : Reprints .block
      (.single ⟨.declaration (String.ofList n) (String.ofList a) false, line⟩ .nil) := by
  have hs := h.solid (some .curly)
  have hpasses : (row (tokens a)).passes valueStop = true := by
    refine passes_row (fun l hl => ?_) _
    have hl := isPlain_tokens h l hl
    rw [Token.isPlain, Bool.and_eq_true, Bool.and_eq_true] at hl
    exact hl.1.1
  have hi : splitImportant (row (tokens a)).text = ((row (tokens a)).text, false) := by
    rcases splitImportant_cases (row (tokens a)).text with ⟨hf, ha⟩ | ⟨x, b, ha, -, -⟩
    · rw [hs.trimmed.trim_eq] at ha
      exact Prod.ext ha hf
    · rw [hs.trimmed.trim_eq, text_row_tokens] at ha
      cases h '!' (by simp [ha])
  have hread := hs.reprints_declaration hn hp hpasses hi line
  rwa [text_row_tokens] at hread

end ModularScale.Css
