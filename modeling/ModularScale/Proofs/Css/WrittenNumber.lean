import ModularScale.Proofs.Css.Scanning
import ModularScale.Proofs.Decimal.Spelled

/-! # Written numbers of style sheets

The number at the start of a text is the longest one that is written there: a sign if there is one,
digits, a point only if digits follow it, and an exponent only if it has digits.
-/

namespace ModularScale.Css

open Numeral (IsSign IsDigits IsExponent)

variable {cs ds rest sign text tail : List Char} {negative : Bool} {e : Int} {x : Numeral}

/-- The numbers that a text may write. A point in them has digits behind it. -/
inductive WritesNumber : Numeral → List Char → Prop
  | whole {negative : Bool} {sign whole tail : List Char} {e : Int} :
    IsSign negative sign → IsDigits whole → IsExponent e tail →
    WritesNumber ⟨negative, whole, [], e⟩ (sign ++ (whole ++ tail))
  | pointed {negative : Bool} {sign whole fraction tail : List Char} {e : Int} :
    IsSign negative sign → (∀ c ∈ whole, c.isDigit = true) → IsDigits fraction →
    IsExponent e tail →
    WritesNumber ⟨negative, whole, fraction, e⟩ (sign ++ (whole ++ '.' :: (fraction ++ tail)))

theorem WritesNumber.isDigit (h : WritesNumber x text) :
    ∀ c ∈ x.whole ++ x.fraction, c.isDigit = true := by
  cases h with
  | whole _ hw =>
    rw [List.append_nil]
    exact hw.isDigit
  | pointed _ hw hf => exact List.forall_mem_append.mpr ⟨hw, hf.isDigit⟩

/-- Whether a text cannot go on with a number that it follows. -/
structure EndsNumber (rest : List Char) : Prop where
  no_digit : startsWith (fun c => c.isDigit || c == '.') rest = false
  no_exponent : exponentPart rest = ⟨0, 0⟩

/-! ### Parts of numbers -/

theorem startsWith_append {p : Char → Bool} {a b : List Char} (ha : startsWith p a = false)
    (hb : startsWith p b = false) : startsWith p (a ++ b) = false := by
  cases a with
  | nil => exact hb
  | cons => exact ha

theorem startsWith_isDigit (h : startsWith (fun c => c.isDigit || c == '.') rest = false) :
    startsWith Char.isDigit rest = false := by
  cases rest with
  | nil => rfl
  | cons c rest => exact (Bool.or_eq_false_iff.mp h).1

theorem splitSign_eq (cs : List Char) :
    Numeral.splitSign cs = (startsWith (· == '-') cs, cs.drop (signLength cs)) := by
  unfold Numeral.splitSign signLength
  split
  · rfl
  · rfl
  case h_3 hm hp =>
    have hs : startsWith (· == '-') cs = false := by
      cases cs with
      | nil => rfl
      | cons c cs => exact beq_eq_false_iff_ne.mpr fun hc => hm cs (hc ▸ rfl)
    rw [hs]
    split
    · exact absurd rfl (hp _)
    · exact absurd rfl (hm _)
    · rfl

theorem exists_sign (cs : List Char) : ∃ sign, IsSign (startsWith (· == '-') cs) sign ∧
    cs = sign ++ cs.drop (signLength cs) ∧ sign.length = signLength cs := by
  obtain ⟨sign, hs, hcs⟩ := Numeral.exists_sign cs
  rw [splitSign_eq] at hs hcs
  refine ⟨sign, hs, hcs, ?_⟩
  have hl := congrArg List.length hcs
  rw [List.length_append, List.length_drop] at hl
  have := signLength_le cs
  omega

theorem sign_append (h : IsSign negative sign)
    (hr : startsWith (fun c => c == '+' || c == '-') rest = false) :
    startsWith (· == '-') (sign ++ rest) = negative ∧ signLength (sign ++ rest) = sign.length := by
  have hs := Numeral.splitSign_append h hr
  rw [splitSign_eq, Prod.mk.injEq] at hs
  refine ⟨hs.1, ?_⟩
  have hl := congrArg List.length hs.2
  have := signLength_le (sign ++ rest)
  rw [List.length_drop, List.length_append] at *
  omega

theorem signedDigits_append (h : IsSign negative sign) (hd : IsDigits ds)
    (hr : startsWith Char.isDigit rest = false) : signedDigits (sign ++ (ds ++ rest)) = ds := by
  rw [signedDigits, (sign_append h (hd.not_sign rest)).2, List.drop_left,
    (span_append hd.isDigit hr).1]

/-- What counts as an exponent is one that is written there. -/
theorem exists_exponent (cs : List Char) : ∃ tail rest, cs = tail ++ rest ∧
    IsExponent (exponentPart cs).value tail ∧ tail.length = (exponentPart cs).length := by
  cases cs with
  | nil => exact ⟨[], [], rfl, .none, rfl⟩
  | cons c cs =>
    rw [exponentPart_cons]
    split
    case isFalse => exact ⟨[], c :: cs, rfl, .none, rfl⟩
    case isTrue h =>
      obtain ⟨hmark, hne⟩ := Bool.and_eq_true_iff.mp h
      obtain ⟨sign, hs, hcs, hl⟩ := exists_sign cs
      have hd : IsDigits (signedDigits cs) :=
        ⟨List.isEmpty_eq_false_iff.mp (Bool.not_eq_true' _ ▸ hne),
          fun _ => List.mem_takeWhile_imp⟩
      refine ⟨c :: (sign ++ signedDigits cs), (cs.drop (signLength cs)).dropWhile Char.isDigit,
        ?_, .marked (by simpa using hmark) hs hd, ?_⟩
      · rw [signedDigits, List.cons_append, List.append_assoc, List.takeWhile_append_dropWhile,
          ← hcs]
      · rw [List.length_cons, List.length_append, hl, Nat.add_comm _ 1, Nat.add_assoc]

theorem exponentPart_append (h : IsExponent e tail) (hr : EndsNumber rest) :
    exponentPart (tail ++ rest) = ⟨e, tail.length⟩ := by
  cases h with
  | none => exact hr.no_exponent
  | marked hmark hs hd =>
    have hdigits := signedDigits_append hs hd (startsWith_isDigit hr.no_digit)
    obtain ⟨hneg, hlen⟩ := sign_append hs (hd.not_sign rest)
    have hne := List.isEmpty_eq_false_iff.mpr hd.ne_nil
    rw [List.cons_append, List.append_assoc, exponentPart_cons, hdigits, hneg, hlen, if_pos,
      List.length_cons, List.length_append]
    · congr 1
      omega
    · simpa [hne] using hmark

/-! ### Reading numbers -/

theorem fractionDigits_of_startsWith
    (h : startsWith (fun c => c.isDigit || c == '.') rest = false) : fractionDigits rest = [] := by
  unfold fractionDigits
  split
  · cases h
  · rfl

theorem exists_fractionDigits (h : fractionDigits rest ≠ []) :
    IsDigits (fractionDigits rest) ∧ ∃ r, rest = '.' :: (fractionDigits rest ++ r) := by
  unfold fractionDigits at *
  split at h
  · exact ⟨⟨h, fun _ => List.mem_takeWhile_imp⟩, _, by rw [List.takeWhile_append_dropWhile]⟩
  · exact absurd rfl h

/-- A number is read up to what cannot go on with it. -/
theorem numeral_append (h : WritesNumber x text) (hr : EndsNumber rest) :
    numeral (text ++ rest) = ⟨x, text.length⟩ := by
  have hrest := startsWith_isDigit hr.no_digit
  cases h with
  | @whole negative sign whole tail e hs hw he =>
    have htail := startsWith_append he.not_numeric hr.no_digit
    obtain ⟨hneg, hlen⟩ := sign_append hs (hw.not_sign (tail ++ rest))
    obtain ⟨htake, -⟩ := span_append hw.isDigit (startsWith_isDigit htail)
    rw [List.append_assoc, List.append_assoc, numeral]
    simp only [hneg, hlen, List.drop_left, htake, ← List.drop_drop,
      fractionDigits_of_startsWith htail, fractionLength, List.isEmpty_nil, if_true,
      List.drop_zero, exponentPart_append he hr, List.length_append]
    congr 1
    omega
  | @pointed negative sign whole fraction tail e hs hw hf he =>
    have hdigit := startsWith_isDigit (startsWith_append he.not_numeric hr.no_digit)
    obtain ⟨hfrac, -⟩ := span_append hf.isDigit hdigit
    have hpoint : startsWith Char.isDigit ('.' :: (fraction ++ (tail ++ rest))) = false := rfl
    obtain ⟨htake, -⟩ := span_append hw hpoint
    have hsign : startsWith (fun c => c == '+' || c == '-')
        (whole ++ '.' :: (fraction ++ (tail ++ rest))) = false := by
      by_cases hn : whole = []
      · rw [hn]
        rfl
      · exact IsDigits.not_sign ⟨hn, hw⟩ _
    obtain ⟨hneg, hlen⟩ := sign_append hs hsign
    have hne := List.isEmpty_eq_false_iff.mpr hf.ne_nil
    have hdrop : ('.' :: (fraction ++ (tail ++ rest))).drop (1 + fraction.length) =
        tail ++ rest := by
      rw [Nat.add_comm, List.drop_succ_cons, List.drop_left]
    rw [List.append_assoc, List.append_assoc, List.cons_append, List.append_assoc, numeral]
    simp only [hneg, hlen, List.drop_left, htake, ← List.drop_drop, fractionDigits, hfrac,
      fractionLength, hne, Bool.false_eq_true, if_false, hdrop, exponentPart_append he hr,
      List.length_append, List.length_cons]
    congr 1
    omega

theorem startsWith_digits (h : IsDigits ds) (rest : List Char) :
    startsWith Char.isDigit (ds ++ rest) = true := by
  obtain ⟨c, ds, rfl⟩ := List.exists_cons_of_ne_nil h.ne_nil
  exact h.isDigit c List.mem_cons_self

/-- Where a number is written a number starts, whatever follows it. -/
theorem startsNumber_of_writes (h : WritesNumber x text) (rest : List Char) :
    startsNumber (text ++ rest) = true := by
  rw [startsNumber_eq]
  cases h with
  | @whole negative sign whole tail e hs hw he =>
    rw [List.append_assoc, List.append_assoc, (sign_append hs (hw.not_sign _)).2, List.drop_left,
      startsWith_digits hw, Bool.true_or]
  | @pointed negative sign whole fraction tail e hs hw hf he =>
    by_cases hn : whole = []
    · subst hn
      rw [List.append_assoc, List.nil_append, List.cons_append, List.append_assoc,
        (sign_append hs (by rfl)).2, List.drop_left, List.tail_cons, startsWith_digits hf]
      rfl
    · have hw : IsDigits whole := ⟨hn, hw⟩
      rw [List.append_assoc, List.append_assoc, (sign_append hs (hw.not_sign _)).2, List.drop_left,
        startsWith_digits hw, Bool.true_or]

/-- The number at the start of a text is written there. -/
theorem writes_numeral (h : startsNumber cs = true) :
    WritesNumber (numeral cs).value (cs.take (numeral cs).length) := by
  rw [startsNumber_iff] at h
  obtain ⟨sign, hs, hcs, hsign⟩ := exists_sign cs
  have hw : ∀ c ∈ (cs.drop (signLength cs)).takeWhile Char.isDigit, c.isDigit = true :=
    fun _ => List.mem_takeWhile_imp
  have hbody := List.takeWhile_append_dropWhile (p := Char.isDigit) (l := cs.drop (signLength cs))
  unfold numeral at h ⊢
  dsimp only at h ⊢
  rw [← List.drop_drop] at h ⊢
  generalize startsWith (· == '-') cs = negative at *
  generalize signLength cs = k at *
  generalize cs.drop k = body at *
  generalize body.takeWhile Char.isDigit = whole at *
  generalize body.dropWhile Char.isDigit = rest at *
  subst hcs hbody hsign
  rw [List.drop_left] at *
  by_cases hf : fractionDigits rest = []
  · rw [hf] at h ⊢
    have hne : whole ≠ [] := h.elim id fun h => absurd rfl h
    obtain ⟨tail, r, hrest, he, htail⟩ := exists_exponent rest
    have htake : (sign ++ (whole ++ rest)).take (sign.length + whole.length + 0 + tail.length) =
        sign ++ (whole ++ tail) := by
      rw [hrest, ← List.append_assoc whole, ← List.append_assoc sign]
      exact List.take_left' (by simp only [List.length_append]; omega)
    rw [fractionLength, List.isEmpty_nil, if_pos rfl, List.drop_zero, ← htail, htake]
    exact .whole hs ⟨hne, hw⟩ he
  · obtain ⟨hd, r, hrest⟩ := exists_fractionDigits hf
    generalize fractionDigits rest = fraction at *
    subst hrest
    have hdrop : ('.' :: (fraction ++ r)).drop (1 + fraction.length) = r := by
      rw [Nat.add_comm, List.drop_succ_cons, List.drop_left]
    obtain ⟨tail, r', hr, he, htail⟩ := exists_exponent r
    have htake : (sign ++ (whole ++ '.' :: (fraction ++ r))).take
        (sign.length + whole.length + (1 + fraction.length) + tail.length) =
        sign ++ (whole ++ '.' :: (fraction ++ tail)) := by
      rw [hr, ← List.append_assoc fraction, ← List.cons_append, ← List.append_assoc whole,
        ← List.append_assoc sign]
      exact List.take_left' (by simp only [List.length_append, List.length_cons]; omega)
    rw [fractionLength, List.isEmpty_eq_false_iff.mpr hf, if_neg Bool.false_ne_true, hdrop, ← htail,
      htake]
    exact .pointed hs hw hd he

end ModularScale.Css
