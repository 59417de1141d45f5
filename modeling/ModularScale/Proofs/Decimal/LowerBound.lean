import ModularScale.Proofs.Decimal.Finite
import ModularScale.Proofs.Decimal.Unsigned

/-! # Lower bounds of sums and products

A float that is not too small stays so in sums with other numbers without a sign, however they are
rounded. A bound is the least exponent that a float with all its digits can have.
-/

namespace ModularScale

open Float.Model Float.Model.UnpackedFloat

variable {x y : Float} {s t : Sign} {m n p : Nat} {e f j k : Int}

namespace BinaryFraction

/-- A positive float with all its digits, the last of which counts `2 ^ k` at least, or infinity. -/
inductive AtLeast (k : Int) (x : Float) : Prop
  | infinity : x.toModel.unpack = .infinity .positive → AtLeast k x
  | parts {m : Nat} {e : Int} : HasParts x .positive m e → k ≤ e → AtLeast k x

theorem AtLeast.mono (h : AtLeast k x) (hj : j ≤ k) : AtLeast j x := by
  cases h with
  | infinity h => exact .infinity h
  | parts h he => exact .parts h (hj.trans he)

theorem HasParts.isUnsigned (h : HasParts x .positive m e) : IsUnsigned x.toModel.unpack := by
  obtain ⟨-, hm, hu⟩ := h
  rw [hu]
  exact .finite m e hm

theorem AtLeast.isUnsigned (h : AtLeast k x) : IsUnsigned x.toModel.unpack := by
  cases h with
  | infinity h =>
    rw [h]
    exact .infinity
  | parts h => exact h.isUnsigned

theorem AtLeast.beq_zero (h : AtLeast k x) : (x == 0) = false := by
  cases h with
  | infinity h =>
    show x.toModel.unpack.beq (0 : Float).toModel.unpack = false
    rw [h]
    rfl
  | parts h => exact h.beq_zero

theorem atLeast_of_ofFloat? {b : BinaryFraction} (h : ofFloat? x = some b)
    (hn : b.negative = false) (hm : hiddenBit ≤ b.significand) (hk : k ≤ b.exponent) :
    AtLeast k x := by
  obtain ⟨hlt, hle, hge⟩ := bounds_of_ofFloat? h
  obtain ⟨negative, m, e⟩ := b
  obtain rfl : negative = false := hn
  have hpos : 0 < hiddenBit := by decide
  exact .parts (HasParts.of_ofFloat? ⟨hm, by omega, hle, hge⟩ h) hk

theorem atLeast_of_infinity {u : UnpackedFloat} (hx : x.toModel = .pack u)
    (hu : u = .infinity .positive) : AtLeast k x := by
  refine .infinity ?_
  rw [hx, hu]
  rfl

/-! ### Rounding -/

/-- Digits that do not fit between the exponents of floats make an infinity. -/
theorem atLeast_pack (hl : hiddenBit ≤ m) (hu : m < 2 * hiddenBit) (hk : -1074 ≤ k) (he : k ≤ e)
    (hm : 0 < m) (hx : x.toModel = .pack (.finite .positive m e hm)) : AtLeast k x := by
  by_cases hle : e ≤ 971
  · exact .parts (HasParts.of_model ⟨hl, hu, hk.trans he, hle⟩ ⟨hm, hx⟩) he
  · have hun : IsUnsigned x.toModel.unpack := by
      rw [hx]
      exact (IsUnsigned.finite m e hm).unpack_pack
    refine .infinity (hun.eq_infinity ?_)
    show x.toModel.unpack.isFinite = false
    rw [hx, ← Bool.not_eq_true, isFinite_pack_finite]
    exact hle

theorem describes_exact (m : Nat) : Describes (.ofMantissaAndAccuracy m .exact) m := by
  have h := describes_fraction m Nat.one_pos
  rwa [Nat.cast_zero, zero_div, add_zero] at h

/-- Rounding keeps the place of the first digit, or moves it up. -/
theorem atLeast_round {i : Nat} (hp : p.log2 = 52 + i) (hk : -1074 ≤ k) (he : k ≤ e + i)
    (hx : x.toModel = .pack (roundWithAccuracy Format.binary64 .positive p e .exact)) :
    AtLeast k x := by
  obtain ⟨-, -, hlo, hhi⟩ := shifted_bounds (describes_exact p) hp
  obtain ⟨m', e', h, hr, hc⟩ :=
    roundWithAccuracy_eq (s := .positive) .exact hp (hk.trans he) rfl hlo hhi
  rw [hr] at hx
  rcases hc with ⟨hlt, rfl, rfl⟩ | ⟨-, rfl, rfl⟩
  · exact atLeast_pack hlo hlt hk he h hx
  · exact atLeast_pack (Nat.le_refl _) (by decide) hk (by omega) h hx

/-! ### Sums -/

/-- The exact sum of two positive numbers, at the smaller exponent of the two. -/
def exactSum (m : Nat) (e : Int) (n : Nat) (f : Int) : Nat :=
  m <<< (e - min e f).toNat + n <<< (f - min e f).toNat

theorem exactSum_comm (m : Nat) (e : Int) (n : Nat) (f : Int) :
    exactSum m e n f = exactSum n f m e := by
  rw [exactSum, exactSum, min_comm, Nat.add_comm]

theorem le_log2_exactSum (hm : hiddenBit ≤ m) (n : Nat) (f : Int) :
    52 + (e - min e f).toNat ≤ (exactSum m e n f).log2 := by
  have hle : 2 ^ (52 + (e - min e f).toNat) ≤ exactSum m e n f := by
    rw [Nat.pow_add, exactSum, Nat.shiftLeft_eq]
    exact (Nat.mul_le_mul_right _ hm).trans (Nat.le_add_right _ _)
  have hne : exactSum m e n f ≠ 0 := (Nat.lt_of_lt_of_le (Nat.two_pow_pos _) hle).ne'
  exact (Nat.le_log2 hne).mpr hle

theorem add_finite (hm : 0 < m) (hn : 0 < n) :
    UnpackedFloat.add Format.binary64 (.finite .positive m e hm) (.finite .positive n f hn) =
      UnpackedFloat.round Format.binary64 .positive (exactSum m e n f) (min e f) := by
  have hpos : 0 < exactSum m e n f := by
    rw [exactSum, Nat.shiftLeft_eq]
    exact Nat.lt_of_lt_of_le (Nat.mul_pos hm (Nat.two_pow_pos _)) (Nat.le_add_right _ _)
  have hgt : compare (exactSum m e n f : Int) 0 = .gt :=
    compare_gt_iff_gt.mpr (Int.natCast_pos.mpr hpos)
  show UnpackedFloat.normalize Format.binary64 (exactSum m e n f : Int) (min e f) .positive = _
  unfold UnpackedFloat.normalize
  rw [hgt, Int.toNat_natCast]

theorem round_of_le_log2 (hp : 52 ≤ p.log2) :
    UnpackedFloat.round Format.binary64 s p e =
      roundWithAccuracy Format.binary64 s p e .exact := by
  have ht : (e - Format.binary64.targetExponent (totalExponent p e)).toNat = 0 := by
    rw [targetExponent_eq]
    omega
  unfold UnpackedFloat.round decreaseExponent
  simp only [ht, Nat.shiftLeft_zero, Nat.cast_zero, sub_zero]

theorem IsUnsigned.add (hx : IsUnsigned x.toModel.unpack) (hy : IsUnsigned y.toModel.unpack) :
    IsUnsigned (x + y).toModel.unpack := by
  show IsUnsigned (Float.Model.pack
    (UnpackedFloat.add Format.binary64 x.toModel.unpack y.toModel.unpack)).unpack
  refine IsUnsigned.unpack_pack ?_
  generalize x.toModel.unpack = u at hx
  generalize y.toModel.unpack = v at hy
  cases hx with
  | zero => cases hy with
    | zero => exact .zero
    | infinity => exact .infinity
    | finite n f hn => exact .finite n f hn
  | infinity => cases hy <;> exact .infinity
  | finite m e hm => cases hy with
    | zero => exact .finite m e hm
    | infinity => exact .infinity
    | finite n f hn =>
      rw [add_finite]
      exact isUnsigned_roundWithAccuracy _ _ _

theorem AtLeast.add (hx : AtLeast k x) (hk : -1074 ≤ k) (hy : IsUnsigned y.toModel.unpack) :
    AtLeast k (x + y) ∧ AtLeast k (y + x) := by
  have hadd : ∀ x y : Float, (x + y).toModel = .pack
    (UnpackedFloat.add Format.binary64 x.toModel.unpack y.toModel.unpack) := fun _ _ => rfl
  have hxy := hadd x y
  have hyx := hadd y x
  cases hx with
  | infinity hx =>
    rw [hx] at hxy hyx
    generalize y.toModel.unpack = v at hy hxy hyx
    cases hy <;> exact ⟨atLeast_of_infinity hxy rfl, atLeast_of_infinity hyx rfl⟩
  | @parts m e hx he =>
    obtain ⟨hn, hm, hu⟩ := hx
    rw [hu] at hxy hyx
    generalize y.toModel.unpack = v at hy hxy hyx
    cases hy with
    | zero => exact ⟨.parts (HasParts.of_model hn ⟨hm, hxy⟩) he,
        .parts (HasParts.of_model hn ⟨hm, hyx⟩) he⟩
    | infinity => exact ⟨atLeast_of_infinity hxy rfl, atLeast_of_infinity hyx rfl⟩
    | finite n f hn' =>
      have hlog := le_log2_exactSum (e := e) hn.le_significand n f
      obtain ⟨i, hi⟩ := Nat.exists_eq_add_of_le (Nat.le_trans (Nat.le_add_right 52 _) hlog)
      have hle : 52 ≤ (exactSum m e n f).log2 := Nat.le_trans (Nat.le_add_right 52 _) hlog
      rw [add_finite, round_of_le_log2 hle] at hxy
      rw [add_finite, exactSum_comm, min_comm, round_of_le_log2 hle] at hyx
      have hk' : k ≤ min e f + i := by omega
      exact ⟨atLeast_round hi hk hk' hxy, atLeast_round hi hk hk' hyx⟩

/-! ### Products -/

theorem AtLeast.mul (hx : AtLeast k x) (hy : AtLeast j y) (hkj : -1074 ≤ k + j + 52) :
    AtLeast (k + j + 52) (x * y) := by
  have hmul : (x * y).toModel = .pack
    (UnpackedFloat.mul Format.binary64 x.toModel.unpack y.toModel.unpack) := rfl
  cases hx with
  | infinity hx =>
    rw [hx] at hmul
    cases hy with
    | infinity hy =>
      rw [hy] at hmul
      exact atLeast_of_infinity hmul rfl
    | parts hy =>
      obtain ⟨-, hn, hv⟩ := hy
      rw [hv] at hmul
      exact atLeast_of_infinity hmul rfl
  | @parts m e hx he =>
    obtain ⟨hm, hm0, hu⟩ := hx
    rw [hu] at hmul
    cases hy with
    | infinity hy =>
      rw [hy] at hmul
      exact atLeast_of_infinity hmul rfl
    | @parts n f hy hf =>
      obtain ⟨hn, hn0, hv⟩ := hy
      rw [hv] at hmul
      have hle : 2 ^ (52 + 52) ≤ m * n := by
        rw [Nat.pow_add]
        exact Nat.mul_le_mul hm.le_significand hn.le_significand
      have hlog : 52 + 52 ≤ (m * n).log2 := (Nat.le_log2 (Nat.mul_pos hm0 hn0).ne').mpr hle
      obtain ⟨i, hi⟩ := Nat.exists_eq_add_of_le (Nat.le_trans (Nat.le_add_right 52 _) hlog)
      exact atLeast_round hi hkj (by omega) hmul

theorem isUnsigned_mul (hx : IsUnsigned x.toModel.unpack) (hfx : x.isFinite = true)
    (hy : IsUnsigned y.toModel.unpack) (hfy : y.isFinite = true) :
    IsUnsigned (x * y).toModel.unpack := by
  show IsUnsigned (Float.Model.pack
    (UnpackedFloat.mul Format.binary64 x.toModel.unpack y.toModel.unpack)).unpack
  refine IsUnsigned.unpack_pack ?_
  change x.toModel.unpack.isFinite = true at hfx
  change y.toModel.unpack.isFinite = true at hfy
  generalize x.toModel.unpack = u at hx hfx
  generalize y.toModel.unpack = v at hy hfy
  cases hx with
  | infinity => cases hfx
  | zero => cases hy with
    | infinity => cases hfy
    | zero => exact .zero
    | finite => exact .zero
  | finite m e hm => cases hy with
    | infinity => cases hfy
    | zero => exact .zero
    | finite => exact isUnsigned_roundWithAccuracy _ _ _

/-- Rounding moves the exponent no further than the digits that do not fit, but for a carry. -/
theorem exponent_roundWithAccuracy_le {hm : 0 < m}
    (h : roundWithAccuracy Format.binary64 s p e .exact = .finite t m f hm) :
    f ≤ max (max (p.log2 + e - 52) (-1074)) e + 1 := by
  unfold roundWithAccuracy shiftToTargetExponent shiftToExponent at h
  simp only [targetExponent_eq] at h
  split at h
  case isTrue => cases h
  case isFalse =>
    rw [UnpackedFloat.finite.injEq] at h
    obtain ⟨-, -, hf⟩ := h
    generalize hk : (max ((p.log2 : Int) + e - 52) (-1074) - e).toNat = k at hf
    obtain ⟨hn, -⟩ := ((describes_exact p).shiftRight k).rounded
    generalize (ExtendedMantissa.ofMantissaAndAccuracy p .exact >>> k).roundedMantissa = r at hf hn
    have hr : r < 2 ^ 54 := by
      have hp : (p : ℚ) / 2 ^ k < 2 ^ 53 := by
        rw [div_lt_iff₀ (by positivity), ← pow_add]
        have hp : p < 2 ^ (53 + k) := Nat.lt_log2_self.trans_le
          (Nat.pow_le_pow_right two_pos (by omega))
        exact_mod_cast hp
      have hr : (r : ℚ) < 2 ^ 54 := by
        rw [abs_le] at hn
        linarith
      exact_mod_cast hr
    have hlog : r.log2 ≤ 53 := by
      rcases Nat.eq_zero_or_pos r with rfl | hpos
      · exact Nat.zero_le 53
      · exact Nat.lt_succ_iff.mp ((Nat.log2_lt hpos.ne').mpr hr)
    omega

/-- A product with a number below a half stays finite. -/
theorem isFinite_mul (hx : x.isFinite = true) (hy : HasParts y t n f) (hf : f ≤ -54) :
    (x * y).isFinite = true := by
  obtain ⟨hnorm, hn, hv⟩ := hy
  show (Float.Model.pack
    (UnpackedFloat.mul Format.binary64 x.toModel.unpack y.toModel.unpack)).unpack.isFinite = true
  change x.toModel.unpack.isFinite = true at hx
  cases hu : x.toModel.unpack with
  | notANumber => rw [hu] at hx; cases hx
  | infinity s => rw [hu] at hx; cases hx
  | zero s =>
    rw [hv]
    generalize ht : s * t = r
    rw [show UnpackedFloat.mul Format.binary64 (.zero s) (.finite t n f hn) = .zero (s * t)
      from rfl, ht]
    cases r <;> rfl
  | finite s m e hm =>
    have hb : ofFloat? x = some ⟨s == .negative, m, e⟩ := by
      rw [ofFloat?_eq, hu]
      rfl
    obtain ⟨hlt, -, hle⟩ := bounds_of_ofFloat? hb
    dsimp only at hlt hle
    rw [hv, show UnpackedFloat.mul Format.binary64 (.finite s m e hm) (.finite t n f hn) =
      roundWithAccuracy Format.binary64 (s * t) (m * n) (e + f) .exact from rfl]
    rw [isFinite_pack fun s' m' e' hm' hr => ?_]
    · unfold roundWithAccuracy
      dsimp only
      split <;> rfl
    · have hlog : (m * n).log2 ≤ 105 := by
        refine Nat.lt_succ_iff.mp ((Nat.log2_lt (Nat.mul_pos hm hn).ne').mpr ?_)
        have hm' : m ≤ 2 ^ 53 := by
          have : hiddenBit = 2 ^ 52 := rfl
          omega
        exact Nat.lt_of_le_of_lt (Nat.mul_le_mul_right n hm')
          (Nat.mul_lt_mul_of_pos_left hnorm.significand_lt (Nat.two_pow_pos 53))
      have := exponent_roundWithAccuracy_le hr
      omega

/-! ### Quotients -/

theorem le_leading {d : Nat} (hn : n ≠ 0) (hd : d ≠ 0) (h : (2 : ℚ) ^ j * d ≤ n) :
    j ≤ leading n d := by
  have hlt : (2 : ℚ) ^ j * d < 2 ^ (leading n d + 1) * d :=
    h.trans_lt (leading_spec hn hd).2
  have hlt := (mul_lt_mul_iff_left₀ (by positivity)).mp hlt
  exact Int.lt_add_one_iff.mp ((zpow_lt_zpow_iff_right₀ one_lt_two).mp hlt)

theorem numerator_eq (b : BinaryFraction) :
    (b.numerator : ℚ) = b.significand * 2 ^ b.exponent * b.denominator := by
  have hpow := pow_toNat two_ne_zero b.exponent
  rw [numerator, denominator, Nat.pow_eq, Nat.pow_eq]
  push_cast at hpow ⊢
  rw [hpow, mul_assoc]

theorem le_leading_of_le {b : BinaryFraction} (hm : (2 : ℚ) ^ j ≤ b.significand * 2 ^ b.exponent) :
    b.numerator ≠ 0 ∧ b.denominator ≠ 0 ∧ j ≤ leading b.numerator b.denominator := by
  have hd : b.denominator ≠ 0 := (Nat.two_pow_pos _).ne'
  have hdpos : (0 : ℚ) < b.denominator := by exact_mod_cast Nat.pos_of_ne_zero hd
  have hle : (2 : ℚ) ^ j * b.denominator ≤ b.numerator := by
    rw [numerator_eq]
    gcongr
  have hn : b.numerator ≠ 0 := by
    intro h
    rw [h, Nat.cast_zero] at hle
    exact absurd hle (not_le.mpr (by positivity))
  exact ⟨hn, hd, le_leading hn hd hle⟩

end BinaryFraction

namespace Decimal

open BinaryFraction

variable {d : Nat}

theorem atLeast_ratio (hn : n ≠ 0) (hd : d ≠ 0) (h : -1074 ≤ leading n d - 52) :
    AtLeast (leading n d - 52) (ratio n d) := by
  obtain ⟨hhi, hfull⟩ := significand_bounds hn hd
  have hlo := hfull h
  clear hfull
  have he : (ofRatio .double n d).exponent = leading n d - 52 := max_eq_left h
  unfold ratio
  simp only [he, if_neg hn]
  generalize leading n d - 52 = e at *
  generalize (ofRatio .double n d).significand = m at *
  rcases Nat.lt_or_ge ((e + 1074).toNat * hiddenBit + m) (2047 * hiddenBit) with hlt | hge
  · rw [Nat.min_eq_left hlt.le]
    have hexp : e ≤ 971 ∧ (m = 2 * hiddenBit → e ≤ 970) := by
      have hhidden : hiddenBit = 4503599627370496 := rfl
      rw [hhidden] at hlt hlo ⊢
      omega
    rcases Nat.lt_or_eq_of_le hhi with hm | rfl
    · exact .parts (hasParts_ofBits ⟨hlo, hm, h, hexp.1⟩) (le_refl e)
    · have hbits : (e + 1074).toNat * hiddenBit + 2 * hiddenBit =
          (e + 1 + 1074).toNat * hiddenBit + hiddenBit := by
        rw [show (e + 1 + 1074).toNat = (e + 1074).toNat + 1 by omega]
        ring
      rw [hbits]
      have hnormal : IsNormal hiddenBit (e + 1) :=
        ⟨le_refl _, by decide, by omega, by have := hexp.2 rfl; omega⟩
      exact .parts (hasParts_ofBits hnormal) (by omega)
  · rw [Nat.min_eq_right hge, show UInt64.ofNat (2047 * hiddenBit) = 0x7FF0000000000000 by decide]
    exact .infinity rfl

theorem beq_zero_of_infinity (hx : x.toModel.unpack = .infinity s) : (x == 0) = false := by
  show x.toModel.unpack.beq (0 : Float).toModel.unpack = false
  rw [hx]
  cases s <;> rfl

theorem unpack_withSign_infinity (hx : x.toModel.unpack = .infinity .positive) (negative : Bool) :
    ∃ s, (withSign negative x).toModel.unpack = .infinity s := by
  cases negative with
  | false => exact ⟨_, hx⟩
  | true =>
    refine ⟨.negative, ?_⟩
    show (Float.Model.pack x.toModel.unpack.neg).unpack = _
    rw [hx]
    rfl

theorem withSign_beq_zero (hx : AtLeast k x) (negative : Bool) :
    (withSign negative x == 0) = false := by
  cases hx with
  | infinity hx =>
    obtain ⟨s, hs⟩ := unpack_withSign_infinity hx negative
    exact beq_zero_of_infinity hs
  | parts hx =>
    obtain ⟨s, -, hs⟩ := hx.withSign negative
    exact hs.beq_zero

theorem toSingle_withSign_zero (hx : x.toModel.unpack = .zero .positive) (negative : Bool) :
    (toSingle (withSign negative x) == 0) = true := by
  obtain ⟨s, hs⟩ := unpack_withSign_zero hx negative
  have hb : ofFloat? (withSign negative x) = some ⟨s == .negative, 0, -1074⟩ := by
    rw [ofFloat?_eq, hs]
    rfl
  rw [toSingle, hb]
  dsimp only
  cases s <;> decide +kernel

/-- Single precision has a number other than zero for what is not below its least one. -/
theorem toSingle_beq_zero (hx : AtLeast (-201) x) (negative : Bool) :
    (toSingle (withSign negative x) == 0) = false := by
  cases hx with
  | infinity hx =>
    obtain ⟨s, hs⟩ := unpack_withSign_infinity hx negative
    have hnone : ofFloat? (withSign negative x) = none := by
      rw [ofFloat?_eq, hs]
      rfl
    rw [toSingle, hnone]
    exact beq_zero_of_infinity hs
  | @parts m e hx he =>
    obtain ⟨s, hneg, hs⟩ := hx.withSign negative
    rw [toSingle, hs.ofFloat?_eq_some]
    dsimp only
    have hvalue : (2 : ℚ) ^ (-149 : Int) ≤ m * 2 ^ e := by
      have hm : (2 : ℚ) ^ (52 : Int) ≤ m := by exact_mod_cast hx.isNormal.le_significand
      calc (2 : ℚ) ^ (-149 : Int) = 2 ^ (52 : Int) * 2 ^ (-201 : Int) := by
            rw [← zpow_add₀ two_ne_zero]
            rfl
        _ ≤ m * 2 ^ e := by
          gcongr
          exact one_le_two
    obtain ⟨hn, hd, hl⟩ := le_leading_of_le (b := ⟨s == .negative, m, e⟩) hvalue
    generalize numerator ⟨s == .negative, m, e⟩ = n at *
    generalize denominator ⟨s == .negative, m, e⟩ = d at *
    have hexp : (ofRatio .single n d).exponent = max (leading n d - 23) (-149) := rfl
    have hsig : 1 ≤ (ofRatio .single n d).significand := by
      refine le_divHalfEven (Nat.mul_pos (Nat.pos_of_ne_zero hd) (Nat.two_pow_pos _)) ?_
      rw [Nat.one_mul, scaled_le_scaled_iff]
      refine le_trans ?_ (leading_spec hn hd).1
      gcongr
      · exact one_le_two
      · show max (leading n d - 23) (-149) ≤ leading n d
        omega
    have hsingle : (2 : ℚ) ^ (-149 : Int) ≤
        (ofRatio .single n d).significand * 2 ^ (ofRatio .single n d).exponent := by
      have hsig : (1 : ℚ) ≤ (ofRatio .single n d).significand := by exact_mod_cast hsig
      calc (2 : ℚ) ^ (-149 : Int) = 1 * 2 ^ (-149 : Int) := (one_mul _).symm
        _ ≤ _ := by
          gcongr
          · exact one_le_two
          · rw [hexp]
            exact le_max_right _ _
    obtain ⟨hn', hd', hl'⟩ := le_leading_of_le hsingle
    rw [hneg]
    split
    · exact withSign_beq_zero (k := 0) (.infinity rfl) negative
    · exact withSign_beq_zero (atLeast_ratio hn' hd' (by omega)) negative

end Decimal

end ModularScale
