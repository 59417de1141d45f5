import Mathlib
import ModularScale.Proofs.Decimal.Unpacked

/-! # Rounded quotients

The quotient of two floats is a float near enough to the true quotient that this would be rounded to
it.
-/

namespace ModularScale.BinaryFraction

open Float.Model Float.Model.UnpackedFloat

variable {s t : Sign} {m n : Nat} {e f : Int} {x q : ℚ} {em : ExtendedMantissa}

/-- A number of which a significand holds the whole part, and two further bits whether it is half
way to the next whole number and whether it lies strictly between such points. -/
structure Describes (em : ExtendedMantissa) (x : ℚ) : Prop where
  le : (em.mantissa : ℚ) ≤ x
  lt : x < em.mantissa + 1
  round : em.roundBit = true ↔ em.mantissa + 1 / 2 ≤ x
  sticky : em.stickyBit = true ↔ x ≠ em.mantissa ∧ x ≠ em.mantissa + 1 / 2

/-- A whole part and a rest are described. -/
theorem describes_fraction (m : Nat) {k n : Nat} (hk : k < n) :
    Describes (.ofMantissaAndAccuracy m (accuracyOfFraction k n)) (m + k / n) := by
  have hn : (0 : ℚ) < n := by exact_mod_cast Nat.zero_lt_of_lt hk
  have hlt : (k : ℚ) / n < 1 := (div_lt_one hn).mpr (by exact_mod_cast hk)
  have hle : (0 : ℚ) ≤ k / n := by positivity
  have hhalf : (k : ℚ) / n = 1 / 2 ↔ 2 * k = n := by
    rw [div_eq_div_iff hn.ne' two_ne_zero, one_mul, mul_comm]
    exact_mod_cast Iff.rfl
  have hbelow : (1 : ℚ) / 2 ≤ k / n ↔ n ≤ 2 * k := by
    rw [div_le_div_iff₀ two_pos hn, one_mul, mul_comm (k : ℚ)]
    exact_mod_cast Iff.rfl
  have hround : (m : ℚ) + 1 / 2 ≤ m + k / n ↔ n ≤ 2 * k := by
    rw [add_le_add_iff_left, hbelow]
  have hexact : (m : ℚ) + k / n ≠ m ↔ k ≠ 0 := by
    rw [Ne, add_eq_left, div_eq_zero_iff, not_or, Nat.cast_eq_zero]
    exact and_iff_left hn.ne'
  have hne : (m : ℚ) + k / n ≠ m + 1 / 2 ↔ 2 * k ≠ n := by
    rw [Ne, add_right_inj, hhalf]
  unfold accuracyOfFraction
  split
  case isTrue h =>
    subst h
    refine ⟨?_, ?_, ?_, ?_⟩ <;> simp [ExtendedMantissa.ofMantissaAndAccuracy]
  case isFalse h =>
    have hmant : ∀ o, (ExtendedMantissa.ofMantissaAndAccuracy m (.inexact o)).mantissa = m := by
      intro o
      cases o <;> rfl
    refine ⟨?_, ?_, ?_, ?_⟩
    · rw [hmant]
      linarith
    · rw [hmant]
      linarith
    · rw [hmant, hround]
      rcases Nat.lt_trichotomy (2 * k) n with hc | hc | hc
      · rw [Nat.compare_eq_lt.mpr hc]
        simp [ExtendedMantissa.ofMantissaAndAccuracy, hc]
      · rw [Nat.compare_eq_eq.mpr hc]
        simp [ExtendedMantissa.ofMantissaAndAccuracy, hc]
      · rw [Nat.compare_eq_gt.mpr hc]
        simp [ExtendedMantissa.ofMantissaAndAccuracy, hc.le]
    · rw [hmant, hexact, hne]
      rcases Nat.lt_trichotomy (2 * k) n with hc | hc | hc
      · rw [Nat.compare_eq_lt.mpr hc]
        simp [ExtendedMantissa.ofMantissaAndAccuracy, h, hc.ne]
      · rw [Nat.compare_eq_eq.mpr hc]
        simp [ExtendedMantissa.ofMantissaAndAccuracy, hc]
      · rw [Nat.compare_eq_gt.mpr hc]
        simp [ExtendedMantissa.ofMantissaAndAccuracy, h, hc.ne']

theorem Describes.shiftRightOne (h : Describes em x) : Describes em.shiftRightOne (x / 2) := by
  obtain ⟨hle, hlt, hr, hs⟩ := h
  have hm : (em.mantissa : ℚ) = 2 * (em.mantissa / 2 : ℕ) + (em.mantissa % 2 : ℕ) := by
    exact_mod_cast (Nat.div_add_mod em.mantissa 2).symm
  have hsticky : (em.roundBit || em.stickyBit) = true ↔ x ≠ em.mantissa := by
    rw [Bool.or_eq_true, hr, hs]
    constructor
    · rintro (h | h)
      · intro he
        linarith
      · exact h.1
    · intro hne
      by_cases he : x = em.mantissa + 1 / 2
      · exact .inl he.ge
      · exact .inr ⟨hne, he⟩
  unfold ExtendedMantissa.shiftRightOne
  generalize em.mantissa / 2 = half at hm ⊢
  rcases Nat.mod_two_eq_zero_or_one em.mantissa with h2 | h2
  · rw [h2, Nat.cast_zero, add_zero] at hm
    rw [hm] at hle hlt hsticky
    refine ⟨by linarith, by linarith, ?_, ?_⟩
    · simp only [h2, bne_self_eq_false, Bool.false_eq_true, false_iff, not_le]
      linarith
    · rw [hsticky]
      refine ⟨fun hne => ⟨fun he => hne (by linarith), fun he => by linarith⟩, ?_⟩
      rintro ⟨hne, -⟩ he
      exact hne (by linarith)
  · rw [h2, Nat.cast_one] at hm
    rw [hm] at hle hlt hsticky
    refine ⟨by linarith, by linarith, ?_, ?_⟩
    · simp only [h2, bne_iff_ne, ne_eq, one_ne_zero, not_false_eq_true, true_iff]
      linarith
    · rw [hsticky]
      refine ⟨fun hne => ⟨fun he => by linarith, fun he => hne (by linarith)⟩, ?_⟩
      rintro ⟨-, hne⟩ he
      exact hne (by linarith)

theorem Describes.shiftRight (h : Describes em x) (k : Nat) : Describes (em >>> k) (x / 2 ^ k) := by
  show Describes (k.repeat ExtendedMantissa.shiftRightOne em) _
  induction k with
  | zero => simpa [Nat.repeat] using h
  | succ k ih =>
    rw [pow_succ, ← div_div]
    exact ih.shiftRightOne

/-- The significand is rounded to the nearest whole number; a half goes to the even one. -/
theorem Describes.rounded (h : Describes em x) :
    |x - em.roundedMantissa| ≤ 1 / 2 ∧
      (em.roundedMantissa % 2 = 1 → |x - em.roundedMantissa| < 1 / 2) := by
  obtain ⟨hle, hlt, hr, hs⟩ := h
  obtain ⟨m, round, sticky⟩ := em
  simp only at hle hlt hr hs
  cases round with
  | false =>
    have hx : x < m + 1 / 2 := by
      rw [← not_le, ← hr]
      simp
    have hm : (ExtendedMantissa.mk m false sticky).roundedMantissa = m := by cases sticky <;> rfl
    rw [hm]
    have habs : |x - m| < 1 / 2 := by
      rw [abs_lt]
      constructor <;> linarith
    exact ⟨habs.le, fun _ => habs⟩
  | true =>
    have hx : (m : ℚ) + 1 / 2 ≤ x := hr.mp rfl
    cases sticky with
    | true =>
      have hm : (ExtendedMantissa.mk m true true).roundedMantissa = m + 1 := rfl
      have hne := (hs.mp rfl).2
      have hx' := lt_of_le_of_ne hx (Ne.symm hne)
      rw [hm]
      have habs : |x - (m + 1 : ℕ)| < 1 / 2 := by
        rw [abs_lt, Nat.cast_add, Nat.cast_one]
        constructor <;> linarith
      exact ⟨habs.le, fun _ => habs⟩
    | false =>
      have hm : (ExtendedMantissa.mk m true false).roundedMantissa = m + m % 2 := rfl
      have hx' : x = m + 1 / 2 := by
        by_contra hne
        have := hs.mpr ⟨fun he => by linarith, hne⟩
        cases this
      rw [hm]
      refine ⟨?_, fun hodd => by omega⟩
      rcases Nat.mod_two_eq_zero_or_one m with h2 | h2
      · rw [h2, hx', Nat.add_zero, add_sub_cancel_left, abs_of_pos one_half_pos]
      · rw [h2, hx', Nat.cast_add, Nat.cast_one, abs_le]
        constructor <;> linarith

/-- A number that is rounded to a normal float. Numbers half way to an odd significand are not
rounded to it, and the gap below a power of two is half as wide as others. -/
structure Rounds (m : Nat) (e : Int) (q : ℚ) : Prop where
  le : q / 2 ^ e ≤ m + 1 / 2
  ge : m - (if m = hiddenBit then 1 / 4 else 1 / 2) ≤ q / 2 ^ e
  odd : m % 2 = 1 → q / 2 ^ e < m + 1 / 2 ∧ m - 1 / 2 < q / 2 ^ e

theorem targetExponent_eq (m : Nat) (e : Int) :
    Format.binary64.targetExponent (totalExponent m e) = max (m.log2 + e - 52) (-1074) := by
  have h : (m.log2 : Int) + 1 + e - 53 = m.log2 + e - 52 := by omega
  show max ((m.log2 : Int) + 1 + e - 53) (-1074) = _
  rw [h]

/-- A shift to the exponent that is asked for. -/
theorem shiftToTargetExponent_eq {k : Nat} (acc : Accuracy) (hm : m.log2 = 52 + k)
    (he : -1074 ≤ e + k) : shiftToTargetExponent Format.binary64 m e acc =
      (ExtendedMantissa.ofMantissaAndAccuracy m acc >>> k, e + k) := by
  have ht : max ((m.log2 : Int) + e - 52) (-1074) = e + k := by
    rw [hm]
    omega
  have hk : (e + k - e).toNat = k := by omega
  unfold shiftToTargetExponent shiftToExponent
  rw [targetExponent_eq, ht]
  simp only [hk]

theorem mantissa_ofMantissaAndAccuracy (m : Nat) (acc : Accuracy) :
    (ExtendedMantissa.ofMantissaAndAccuracy m acc).mantissa = m := by
  cases acc with
  | exact => rfl
  | inexact o => cases o <;> rfl

/-- A significand that is rounded up to the next power of two is halved. -/
theorem roundWithAccuracy_eq {k p : Nat} (acc : Accuracy) (hp : p.log2 = 52 + k)
    (he : -1074 ≤ e + k)
    (hm : (ExtendedMantissa.ofMantissaAndAccuracy p acc >>> k).roundedMantissa = m)
    (hlo : hiddenBit ≤ m) (hhi : m ≤ 2 * hiddenBit) :
    ∃ m' e' h, roundWithAccuracy Format.binary64 s p e acc = .finite s m' e' h ∧
      (m < 2 * hiddenBit ∧ m' = m ∧ e' = e + k ∨
        m = 2 * hiddenBit ∧ m' = hiddenBit ∧ e' = e + k + 1) := by
  have hpos : 0 < hiddenBit := by decide
  unfold roundWithAccuracy
  rw [shiftToTargetExponent_eq acc hp he]
  simp only [hm]
  rcases Nat.lt_or_eq_of_le hhi with h | h
  · have hlog : m.log2 = 52 + 0 := (Nat.log2_eq_iff (by omega)).mpr ⟨hlo, h⟩
    have hmant : (ExtendedMantissa.ofMantissaAndAccuracy m .exact >>> 0).mantissa = m := rfl
    simp only [shiftToTargetExponent_eq .exact hlog (show -1074 ≤ e + k + (0 : Nat) by omega), hmant]
    rw [dif_neg (by omega)]
    exact ⟨m, _, by omega, rfl, .inl ⟨h, rfl, by omega⟩⟩
  · have hlog : m.log2 = 52 + 1 := by
      rw [h]
      exact Nat.log2_two_pow (n := 53)
    have hmant : (ExtendedMantissa.ofMantissaAndAccuracy m .exact >>> 1).mantissa = hiddenBit := by
      rw [h]
      rfl
    simp only [shiftToTargetExponent_eq .exact hlog (show -1074 ≤ e + k + (1 : Nat) by omega), hmant]
    rw [dif_neg (by omega)]
    exact ⟨hiddenBit, _, by omega, rfl, .inr ⟨h, rfl, by omega⟩⟩

/-- Shifted to a significand with all its digits, and what this is rounded to. -/
theorem shifted_bounds {k p : Nat} {acc : Accuracy}
    (hx : Describes (.ofMantissaAndAccuracy p acc) x) (hp : p.log2 = 52 + k) :
    (2 : ℚ) ^ 52 ≤ x / 2 ^ k ∧ x / 2 ^ k < 2 ^ 53 ∧
      hiddenBit ≤ (ExtendedMantissa.ofMantissaAndAccuracy p acc >>> k).roundedMantissa ∧
      (ExtendedMantissa.ofMantissaAndAccuracy p acc >>> k).roundedMantissa ≤ 2 * hiddenBit := by
  have hh : hiddenBit = 2 ^ 52 := rfl
  have h2k : (0 : ℚ) < 2 ^ k := by positivity
  have hp0 : p ≠ 0 := by
    rintro rfl
    simp at hp
    omega
  obtain ⟨hpl, hpu⟩ := (Nat.log2_eq_iff hp0).mp hp
  have hpl : (2 : ℚ) ^ 52 * 2 ^ k ≤ p := by exact_mod_cast (pow_add 2 52 k).symm.trans_le hpl
  have hpu : (p : ℚ) + 1 ≤ 2 ^ 53 * 2 ^ k := by
    rw [← pow_add]
    exact_mod_cast (show p + 1 ≤ 2 ^ (53 + k) by rw [show 53 + k = 52 + k + 1 by omega]; exact hpu)
  have hxl : (2 : ℚ) ^ 52 ≤ x / 2 ^ k := by
    rw [le_div_iff₀ h2k]
    exact hpl.trans (mantissa_ofMantissaAndAccuracy p acc ▸ hx.le)
  have hxu : x / 2 ^ k < 2 ^ 53 := by
    rw [div_lt_iff₀ h2k]
    exact (mantissa_ofMantissaAndAccuracy p acc ▸ hx.lt).trans_le hpu
  obtain ⟨hn, -⟩ := (hx.shiftRight k).rounded
  generalize (ExtendedMantissa.ofMantissaAndAccuracy p acc >>> k).roundedMantissa = m at hn
  rw [abs_le] at hn
  refine ⟨hxl, hxu, ?_, ?_⟩
  · by_contra hc
    have : (m : ℚ) + 1 ≤ 2 ^ 52 := by exact_mod_cast Nat.lt_of_not_le hc
    linarith
  · by_contra hc
    have : (2 : ℚ) ^ 53 + 1 ≤ m := by exact_mod_cast Nat.lt_of_not_le hc
    linarith

/-- What is rounded to a normal float is in reach of it. -/
theorem roundWithAccuracy_normal {k p : Nat} {acc : Accuracy}
    (hx : Describes (.ofMantissaAndAccuracy p acc) x) (hp : p.log2 = 52 + k)
    (hlo : -1074 ≤ e + k) (hhi : e + k ≤ 970) :
    ∃ m' e' h, roundWithAccuracy Format.binary64 s p e acc = .finite s m' e' h ∧
      IsNormal m' e' ∧ Rounds m' e' (x * 2 ^ e) := by
  have hhq : (hiddenBit : ℚ) = 2 ^ 52 := by exact_mod_cast (rfl : hiddenBit = 2 ^ 52)
  obtain ⟨hxl, hxu, hml, hmu⟩ := shifted_bounds hx hp
  obtain ⟨hn, hodd⟩ := (hx.shiftRight k).rounded
  generalize hm : (ExtendedMantissa.ofMantissaAndAccuracy p acc >>> k).roundedMantissa = m at *
  rw [abs_le] at hn
  obtain ⟨m', e', h, hr, hc⟩ := roundWithAccuracy_eq (s := s) acc hp hlo hm hml hmu
  refine ⟨m', e', h, hr, ?_⟩
  have hexp : x * 2 ^ e / 2 ^ (e + k) = x / 2 ^ k := by
    rw [zpow_add₀ two_ne_zero, zpow_natCast]
    field_simp
  have hhalf : x * 2 ^ e / 2 ^ (e + k + 1) = x / 2 ^ k / 2 := by
    rw [zpow_add_one₀ two_ne_zero, ← div_div, hexp]
  rcases hc with ⟨hlt, rfl, rfl⟩ | ⟨heq, rfl, rfl⟩
  · refine ⟨⟨hml, hlt, hlo, by omega⟩, ⟨?_, ?_, ?_⟩⟩
    · rw [hexp]
      linarith
    · rw [hexp]
      split
      case isTrue he =>
        rw [he, hhq]
        linarith
      case isFalse => linarith
    · intro ho
      rw [hexp]
      obtain ⟨h1, h2⟩ := abs_lt.mp (hodd ho)
      constructor <;> linarith
  · have heq : (m : ℚ) = 2 ^ 53 := by exact_mod_cast heq
    refine ⟨⟨le_refl _, by omega, by omega, by omega⟩, ⟨?_, ?_, ?_⟩⟩
    · rw [hhalf, hhq]
      linarith
    · rw [hhalf, if_pos rfl, hhq]
      linarith
    · intro ho
      exact absurd ho (by decide)

/-- The quotient of two normal floats, if it is in range. -/
theorem div_normal (hm : IsNormal m e) (hn : IsNormal n f) (hlo : -1021 ≤ e - f)
    (hhi : e - f ≤ 1022) (hm0 : 0 < m) (hn0 : 0 < n) :
    ∃ m' e' h, UnpackedFloat.div Format.binary64 (.finite s m e hm0) (.finite t n f hn0) =
        .finite (s / t) m' e' h ∧
      IsNormal m' e' ∧ Rounds m' e' (m * 2 ^ e / (n * 2 ^ f)) := by
  have ht : min (e - f)
      (Format.binary64.targetExponent (totalExponent m e - totalExponent n f)) = e - f - 53 := by
    unfold totalExponent
    rw [hm.log2, hn.log2]
    show min (e - f) (max (((52 : Nat) : Int) + 1 + e - ((52 : Nat) + 1 + f) - 53) (-1074)) = _
    omega
  have hs : (e - f - (e - f - 53)).toNat = 53 := by omega
  have hlow : 2 ^ 52 ≤ m <<< 53 / n := by
    rw [Nat.le_div_iff_mul_le hn0, Nat.shiftLeft_eq]
    have h1 : 2 ^ 52 ≤ m := hm.le_significand
    have h2 : n < 2 * 2 ^ 52 := hn.significand_lt
    omega
  have hhigh : m <<< 53 / n < 2 ^ 54 := by
    rw [Nat.div_lt_iff_lt_mul hn0, Nat.shiftLeft_eq]
    have h1 : m < 2 * 2 ^ 52 := hm.significand_lt
    have h2 : 2 ^ 52 ≤ n := hn.le_significand
    omega
  have hk : ∃ k ≤ 1, (m <<< 53 / n).log2 = 52 + k := by
    rcases Nat.lt_or_ge (m <<< 53 / n) (2 ^ 53) with h | h
    · exact ⟨0, by omega, (Nat.log2_eq_iff (by omega)).mpr ⟨hlow, h⟩⟩
    · exact ⟨1, by omega, (Nat.log2_eq_iff (by omega)).mpr ⟨h, hhigh⟩⟩
  obtain ⟨k, hk1, hk⟩ := hk
  have hx := describes_fraction (m <<< 53 / n) (Nat.mod_lt (m <<< 53) hn0)
  obtain ⟨m', e', h, hr, hnorm, hround⟩ :=
    roundWithAccuracy_normal (s := s / t) (e := e - f - 53) hx hk (by omega) (by omega)
  refine ⟨m', e', h, ?_, hnorm, ?_⟩
  · unfold UnpackedFloat.div divCore
    simp only [ht, hs]
    exact hr
  · have hn' : (n : ℚ) ≠ 0 := by exact_mod_cast hn0.ne'
    have hdiv : ((m <<< 53 / n : ℕ) : ℚ) + ((m <<< 53 % n : ℕ) : ℚ) / n = m * 2 ^ 53 / n := by
      rw [eq_div_iff hn', add_mul, div_mul_cancel₀ _ hn']
      exact_mod_cast (by rw [Nat.div_add_mod' , Nat.shiftLeft_eq] :
        m <<< 53 / n * n + m <<< 53 % n = m * 2 ^ 53)
    have hval : ((m <<< 53 / n : ℕ) + ((m <<< 53 % n : ℕ) : ℚ) / n) * 2 ^ (e - f - 53) =
        m * 2 ^ e / (n * 2 ^ f) := by
      rw [hdiv, zpow_sub₀ two_ne_zero, zpow_sub₀ two_ne_zero]
      field_simp
    rw [← hval]
    exact hround

end ModularScale.BinaryFraction
