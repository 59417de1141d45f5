import ModularScale.Proofs.Css.WrittenNumber
import ModularScale.Proofs.Decimal.LowerBound

/-! # Values of written numbers

The digits of a number are added up in double precision, each at the value of its place, and the
sum is narrowed to single precision. Rounding does not make zero of a sum that has a digit in one of
the first places behind the point, but further places are lost.
-/

namespace ModularScale.Css

open Float.Model Float.Model.UnpackedFloat BinaryFraction Numeral Decimal

variable {c : Char} {cs : List Char} {s x z : Float} {d i : Nat} {y : Numeral}

/-! ### Digits -/

theorem hasParts_ten : HasParts 10 .positive 5629499534213120 (-49) :=
  HasParts.of_ofFloat? ⟨by decide, by decide, by decide, by decide⟩ (by decide)

theorem hasParts_tenth : HasParts 0.1 .positive 7205759403792794 (-56) :=
  HasParts.of_ofFloat? ⟨by decide, by decide, by decide, by decide⟩ (by decide)

/-- Whether a float is positive and has all its digits, where the last one counts `2 ^ k` or more. -/
def isAtLeast (k : Int) (x : Float) : Bool :=
  (ofFloat? x).any fun b =>
    !b.negative && decide (hiddenBit ≤ b.significand) && decide (k ≤ b.exponent)

theorem atLeast_of_isAtLeast {k : Int} (h : isAtLeast k x = true) : AtLeast k x := by
  obtain ⟨b, hb, h⟩ := (Option.any_eq_true _ _).mp h
  simp only [Bool.and_eq_true, Bool.not_eq_true', decide_eq_true_eq] at h
  exact atLeast_of_ofFloat? hb h.1.1 h.1.2 h.2

theorem unpack_ofNat_zero : (Float.ofNat 0).toModel.unpack = .zero .positive := rfl

theorem atLeast_digit (h0 : d ≠ 0) (hd : d ≤ 9) : AtLeast (-52) (Float.ofNat d) := by
  have h : ∀ d < 10, d ≠ 0 → isAtLeast (-52) (Float.ofNat d) = true := by decide
  exact atLeast_of_isAtLeast (h d (Nat.lt_succ_of_le hd) h0)

theorem isUnsigned_digit (hd : d ≤ 9) : IsUnsigned (Float.ofNat d).toModel.unpack := by
  rcases eq_or_ne d 0 with rfl | h0
  · exact unpack_ofNat_zero ▸ .zero
  · exact (atLeast_digit h0 hd).isUnsigned

theorem isFinite_digit (hd : d ≤ 9) : (Float.ofNat d).isFinite = true := by
  have h : ∀ d < 10, (Float.ofNat d).isFinite = true := by decide
  exact h d (Nat.lt_succ_of_le hd)

theorem unpack_zero_mul (hx : x.toModel.unpack = .zero .positive)
    (hy : IsUnsigned z.toModel.unpack) (hf : z.isFinite = true) :
    (x * z).toModel.unpack = .zero .positive := by
  show (Float.Model.pack
    (UnpackedFloat.mul Format.binary64 x.toModel.unpack z.toModel.unpack)).unpack = _
  change z.toModel.unpack.isFinite = true at hf
  rw [hx]
  generalize z.toModel.unpack = u at hy hf
  cases hy with
  | infinity => cases hf
  | zero => rfl
  | finite m e hm =>
    rw [show UnpackedFloat.mul Format.binary64 (.zero .positive) (.finite .positive m e hm) =
      .zero .positive from rfl]
    rfl

theorem unpack_zero_add (hx : x.toModel.unpack = .zero .positive)
    (hz : z.toModel.unpack = .zero .positive) : (x + z).toModel.unpack = .zero .positive := by
  show (Float.Model.pack
    (UnpackedFloat.add Format.binary64 x.toModel.unpack z.toModel.unpack)).unpack = _
  rw [hx, hz]
  rfl

/-! ### Before the point -/

/-- Appends a digit to those before the point. -/
def addDigit (sum : Float) (c : Char) : Float :=
  sum * 10 + Float.ofNat (digitValue c)

theorem isUnsigned_addDigit (hs : IsUnsigned s.toModel.unpack) (hc : c.isDigit = true) :
    IsUnsigned (addDigit s c).toModel.unpack :=
  (hs.mul hasParts_ten).add (isUnsigned_digit (digitValue_le hc))

theorem atLeast_addDigit (hs : AtLeast (-52) s) (hc : c.isDigit = true) :
    AtLeast (-52) (addDigit s c) := by
  have hten : AtLeast (-49) (s * 10) := hs.mul (.parts hasParts_ten (le_refl _)) (by decide)
  exact ((hten.mono (by decide)).add (by decide) (isUnsigned_digit (digitValue_le hc))).1

theorem atLeast_addDigit_of_ne (hs : IsUnsigned s.toModel.unpack) (hc : c.isDigit = true)
    (h0 : digitValue c ≠ 0) : AtLeast (-52) (addDigit s c) :=
  ((atLeast_digit h0 (digitValue_le hc)).add (by decide) (hs.mul hasParts_ten)).2

theorem isUnsigned_foldl_addDigit (hs : IsUnsigned s.toModel.unpack)
    (hd : ∀ c ∈ cs, c.isDigit = true) : IsUnsigned (cs.foldl addDigit s).toModel.unpack := by
  induction cs generalizing s with
  | nil => exact hs
  | cons c cs ih =>
    have hd := List.forall_mem_cons.mp hd
    exact ih (isUnsigned_addDigit hs hd.1) hd.2

theorem atLeast_foldl_addDigit (hs : AtLeast (-52) s) (hd : ∀ c ∈ cs, c.isDigit = true) :
    AtLeast (-52) (cs.foldl addDigit s) := by
  induction cs generalizing s with
  | nil => exact hs
  | cons c cs ih =>
    have hd := List.forall_mem_cons.mp hd
    exact ih (atLeast_addDigit hs hd.1) hd.2

theorem atLeast_foldl_addDigit_of_mem (hs : IsUnsigned s.toModel.unpack)
    (hd : ∀ c ∈ cs, c.isDigit = true) (h : ∃ c ∈ cs, digitValue c ≠ 0) :
    AtLeast (-52) (cs.foldl addDigit s) := by
  induction cs generalizing s with
  | nil =>
    obtain ⟨c, hc, -⟩ := h
    cases hc
  | cons c cs ih =>
    have hd := List.forall_mem_cons.mp hd
    rw [List.foldl_cons]
    rcases List.or_exists_of_exists_mem_cons h with h0 | h
    · exact atLeast_foldl_addDigit (atLeast_addDigit_of_ne hs hd.1 h0) hd.2
    · exact ih (isUnsigned_addDigit hs hd.1) hd.2 h

theorem unpack_foldl_addDigit (hs : s.toModel.unpack = .zero .positive)
    (h : ∀ c ∈ cs, digitValue c = 0) :
    (cs.foldl addDigit s).toModel.unpack = .zero .positive := by
  induction cs generalizing s with
  | nil => exact hs
  | cons c cs ih =>
    have h := List.forall_mem_cons.mp h
    refine ih ?_ h.2
    rw [addDigit, h.1]
    exact unpack_zero_add (unpack_zero_mul hs hasParts_ten.isUnsigned rfl) rfl

/-! ### Behind the point -/

/-- What a one counts that stands `i` places behind the first one behind the point. -/
def placeValue : Nat → Float
  | 0 => 0.1
  | i + 1 => placeValue i * 0.1

theorem sumFraction_cons (s : Float) (i : Nat) (c : Char) (cs : List Char) :
    sumFraction s (placeValue i) (c :: cs) =
      sumFraction (s + Float.ofNat (digitValue c) * placeValue i) (placeValue (i + 1)) cs := rfl

theorem isUnsigned_placeValue (i : Nat) : IsUnsigned (placeValue i).toModel.unpack := by
  induction i with
  | zero => exact hasParts_tenth.isUnsigned
  | succ i ih => exact ih.mul hasParts_tenth

theorem isFinite_placeValue (i : Nat) : (placeValue i).isFinite = true := by
  induction i with
  | zero => rfl
  | succ i ih => exact isFinite_mul ih hasParts_tenth (by decide)

/-- The places whose ones are no less than the least number of single precision. -/
theorem atLeast_placeValue (hi : i < 44) : AtLeast (-201) (placeValue i) := by
  have h : ∀ i < 44, isAtLeast (-201) (placeValue i) = true := by decide
  exact atLeast_of_isAtLeast (h i hi)

theorem isUnsigned_digit_mul (hc : c.isDigit = true) (i : Nat) :
    IsUnsigned (Float.ofNat (digitValue c) * placeValue i).toModel.unpack :=
  isUnsigned_mul (isUnsigned_digit (digitValue_le hc)) (isFinite_digit (digitValue_le hc))
    (isUnsigned_placeValue i) (isFinite_placeValue i)

theorem isUnsigned_sumFraction (hs : IsUnsigned s.toModel.unpack)
    (hd : ∀ c ∈ cs, c.isDigit = true) :
    IsUnsigned (sumFraction s (placeValue i) cs).toModel.unpack := by
  induction cs generalizing s i with
  | nil => exact hs
  | cons c cs ih =>
    have hd := List.forall_mem_cons.mp hd
    rw [sumFraction_cons]
    exact ih (hs.add (isUnsigned_digit_mul hd.1 i)) hd.2

theorem atLeast_sumFraction (hs : AtLeast (-201) s) (hd : ∀ c ∈ cs, c.isDigit = true) :
    AtLeast (-201) (sumFraction s (placeValue i) cs) := by
  induction cs generalizing s i with
  | nil => exact hs
  | cons c cs ih =>
    have hd := List.forall_mem_cons.mp hd
    rw [sumFraction_cons]
    exact ih (hs.add (by decide) (isUnsigned_digit_mul hd.1 i)).1 hd.2

theorem atLeast_sumFraction_of_mem (hs : IsUnsigned s.toModel.unpack)
    (hd : ∀ c ∈ cs, c.isDigit = true) (h : ∃ c ∈ cs.take (44 - i), digitValue c ≠ 0) :
    AtLeast (-201) (sumFraction s (placeValue i) cs) := by
  induction cs generalizing s i with
  | nil =>
    obtain ⟨c, hc, -⟩ := h
    rw [List.take_nil] at hc
    cases hc
  | cons c cs ih =>
    have hd := List.forall_mem_cons.mp hd
    rcases Nat.lt_or_ge i 44 with hi | hi
    · rw [show 44 - i = 44 - (i + 1) + 1 by omega, List.take_succ_cons] at h
      rw [sumFraction_cons]
      rcases List.or_exists_of_exists_mem_cons h with h0 | h
      · have hc : AtLeast (-201) (Float.ofNat (digitValue c) * placeValue i) :=
          (atLeast_digit h0 (digitValue_le hd.1)).mul (atLeast_placeValue hi) (by decide)
        exact atLeast_sumFraction (hc.add (by decide) hs).2 hd.2
      · exact ih (hs.add (isUnsigned_digit_mul hd.1 i)) hd.2 h
    · rw [Nat.sub_eq_zero_of_le hi, List.take_zero] at h
      obtain ⟨c, hc, -⟩ := h
      cases hc

theorem unpack_sumFraction (hs : s.toModel.unpack = .zero .positive)
    (h : ∀ c ∈ cs, digitValue c = 0) :
    (sumFraction s (placeValue i) cs).toModel.unpack = .zero .positive := by
  induction cs generalizing s i with
  | nil => exact hs
  | cons c cs ih =>
    have h := List.forall_mem_cons.mp h
    rw [sumFraction_cons, h.1]
    refine ih (unpack_zero_add hs ?_) h.2
    exact unpack_zero_mul unpack_ofNat_zero (isUnsigned_placeValue i) (isFinite_placeValue i)

/-! ### Values -/

theorem value_eq (he : y.exponent = 0) : value y = toSingle (withSign y.negative
    (y.whole.foldl addDigit 0 + sumFraction 0 (placeValue 0) y.fraction)) := by
  unfold value
  dsimp only
  rw [if_pos he]
  rfl

theorem value_beq_zero (he : y.exponent = 0)
    (h : ∀ c ∈ y.whole ++ y.fraction, digitValue c = 0) : (value y == 0) = true := by
  have h := List.forall_mem_append.mp h
  rw [value_eq he]
  exact toSingle_withSign_zero (unpack_zero_add (unpack_foldl_addDigit unpack_zero h.1)
    (unpack_sumFraction unpack_zero h.2)) y.negative

theorem value_beq_zero_of_mem (he : y.exponent = 0)
    (hd : ∀ c ∈ y.whole ++ y.fraction, c.isDigit = true)
    (h : ∃ c ∈ y.whole ++ y.fraction.take 44, digitValue c ≠ 0) : (value y == 0) = false := by
  have hd := List.forall_mem_append.mp hd
  have hzero : IsUnsigned (0 : Float).toModel.unpack := unpack_zero ▸ .zero
  rw [value_eq he]
  refine toSingle_beq_zero ?_ y.negative
  obtain ⟨c, hc, h0⟩ := h
  rcases List.mem_append.mp hc with hc | hc
  · have hw := atLeast_foldl_addDigit_of_mem hzero hd.1 ⟨c, hc, h0⟩
    exact ((hw.mono (by decide)).add (by decide) (isUnsigned_sumFraction hzero hd.2)).1
  · have hf := atLeast_sumFraction_of_mem (i := 0) hzero hd.2 ⟨c, hc, h0⟩
    exact (hf.add (by decide) (isUnsigned_foldl_addDigit hzero hd.1)).2

theorem ofDigits_append (a b : List Char) :
    ofDigits (a ++ b) = ofDigits a * 10 ^ b.length + ofDigits b := by
  induction b using List.reverseRecOn with
  | nil => simp [ofDigits]
  | append_singleton b c ih =>
    rw [← List.append_assoc, ofDigits_concat, ih, ofDigits_concat, List.length_append,
      List.length_singleton, Nat.pow_succ]
    ring

theorem ofDigits_eq_zero_iff : ofDigits cs = 0 ↔ ∀ c ∈ cs, digitValue c = 0 := by
  induction cs using List.reverseRecOn with
  | nil => exact ⟨fun _ => List.forall_mem_nil _, fun _ => rfl⟩
  | append_singleton cs c ih =>
    rw [ofDigits_concat, List.forall_mem_append, List.forall_mem_singleton, ← ih]
    omega

/-- A number that is not below the least place that counts has a digit other than zero there. -/
theorem exists_ne_zero_of_le (he : y.exponent = 0)
    (hd : ∀ c ∈ y.whole ++ y.fraction, c.isDigit = true) (h : 10 ^ (-44 : Int) ≤ |y.toRat|) :
    ∃ c ∈ y.whole ++ y.fraction.take 44, digitValue c ≠ 0 := by
  by_contra hzero
  push Not at hzero
  have hdigits : ofDigits (y.whole ++ y.fraction) = ofDigits (y.fraction.drop 44) := by
    conv_lhs => rw [← y.fraction.take_append_drop 44, ← List.append_assoc]
    rw [ofDigits_append, ofDigits_eq_zero_iff.mpr hzero, Nat.zero_mul, Nat.zero_add]
  rw [abs_toRat, magnitude, hdigits, he, zero_sub] at h
  rcases Nat.lt_or_ge 44 y.fraction.length with hl | hl
  · -- the digits that are left count less than a one in the last place that counts
    have hlt : ofDigits (y.fraction.drop 44) < 10 ^ (y.fraction.drop 44).length :=
      ofDigits_lt fun c hc => hd c (List.mem_append_right _ (List.mem_of_mem_drop hc))
    rw [List.length_drop] at hlt
    have hpow : (10 : ℚ) ^ (-44 : Int) =
        (10 ^ (y.fraction.length - 44) : Nat) * 10 ^ (-(y.fraction.length : Int)) := by
      rw [Nat.cast_pow, Nat.cast_ofNat, ← zpow_natCast, ← zpow_add₀ (by decide)]
      congr 1
      omega
    rw [hpow] at h
    exact absurd (Nat.cast_le.mp (le_of_mul_le_mul_right h (by positivity))) (Nat.not_le.mpr hlt)
  · rw [List.drop_of_length_le hl] at h
    exact absurd h (by norm_num [ofDigits])

/-- Without an exponent, the number zero has the value zero, and no number has that is not below
`10 ^ -44`. -/
theorem value_beq_zero_of_toRat (he : y.exponent = 0)
    (hd : ∀ c ∈ y.whole ++ y.fraction, c.isDigit = true) :
    (y.toRat = 0 → (value y == 0) = true) ∧
    (10 ^ (-44 : Int) ≤ |y.toRat| → (value y == 0) = false) := by
  refine ⟨fun h => value_beq_zero he (ofDigits_eq_zero_iff.mp ?_),
    fun h => value_beq_zero_of_mem he hd (exists_ne_zero_of_le he hd h)⟩
  rw [← abs_eq_zero, abs_toRat, magnitude, mul_eq_zero] at h
  exact_mod_cast h.resolve_right (zpow_ne_zero _ (by decide))

end ModularScale.Css
