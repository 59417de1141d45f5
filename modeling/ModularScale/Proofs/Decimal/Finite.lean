import ModularScale.Proofs.Decimal.Rounded

/-! # Numbers in range

A decimal number is read as a finite float if and only if it is nearer to the largest of them than
to the power of two that would follow.
-/

namespace ModularScale

open Float.Model Float.Model.UnpackedFloat

namespace BinaryFraction

variable {x : Float} {s : Sign} {m n d bits : Nat} {e k : Int}

/-! ### Bits of finite floats -/

theorem isFinite_unpack_iff (b : BitVec Format.binary64.numBits) :
    (UnpackedFloat.unpack Format.binary64 b).isFinite = true ↔ unpackExponent b ≠ -1#_ := by
  unfold UnpackedFloat.unpack
  dsimp only
  split
  case isTrue h =>
    refine iff_of_false ?_ (not_not.mpr h)
    split <;> nofun
  case isFalse h =>
    refine iff_of_true ?_ h
    split
    · split <;> rfl
    · rfl

/-- Parts with a larger exponent than that of the largest float are packed as an infinity. -/
theorem isFinite_pack_finite (hm : 0 < m) :
    (Float.Model.pack (.finite s m e hm)).unpack.isFinite = true ↔ e ≤ 971 := by
  show (UnpackedFloat.unpack Format.binary64 (UnpackedFloat.pack Format.binary64 _)).isFinite =
    true ↔ _
  have hb : (e + (Format.binary64.exponentBias : Int) +
      (Format.binary64.mantissaBitsWithoutImplicit : Int)).toNat = (e + 1075).toNat := by
    show (e + 1023 + 52).toNat = _
    rw [Int.add_assoc]
    rfl
  rw [isFinite_unpack_iff]
  unfold UnpackedFloat.pack
  simp only [hb]
  split
  case isTrue h =>
    have h : 2048 ≤ (e + 1075).toNat + 1 := h
    refine iff_of_false (not_not.mpr unpackExponent_packComponents) (by omega)
  case isFalse h =>
    have h : ¬2048 ≤ (e + 1075).toNat + 1 := h
    refine iff_of_true ?_ (by omega)
    split
    · rw [unpackExponent_packComponents]
      intro heq
      have heq : (e + 1075).toNat % 2048 = 2047 := congrArg BitVec.toNat heq
      omega
    · rw [unpackExponent_packComponents]
      decide

/-- What has no larger exponent than the largest float stays finite if it is. -/
theorem isFinite_pack {u : UnpackedFloat} (h : ∀ s m e hm, u = .finite s m e hm → e ≤ 971) :
    (Float.Model.pack u).unpack.isFinite = u.isFinite := by
  cases u with
  | notANumber => rfl
  | infinity s => cases s <;> rfl
  | zero s => cases s <;> rfl
  | finite s m e hm => exact (isFinite_pack_finite hm).mpr (h s m e hm rfl)

theorem exponent_le_of_unpack {hm : 0 < m} (hu : x.toModel.unpack = .finite s m e hm) :
    e ≤ 971 := by
  have hb : ofFloat? x = some ⟨s == .negative, m, e⟩ := by
    rw [ofFloat?_eq, hu]
    rfl
  exact (bounds_of_ofFloat? hb).2.2

theorem isFinite_neg (x : Float) : (-x).isFinite = x.isFinite := by
  have hx : ∀ s m e hm, x.toModel.unpack = .finite s m e hm → e ≤ 971 := fun _ _ _ _ =>
    exponent_le_of_unpack
  show (Float.Model.pack x.toModel.unpack.neg).unpack.isFinite = x.toModel.unpack.isFinite
  generalize x.toModel.unpack = u at hx ⊢
  rw [isFinite_pack]
  · cases u <;> rfl
  · intro s m e hm h
    cases u with
    | notANumber => cases h
    | infinity s => cases h
    | zero s => cases h
    | finite s m e hm =>
      cases h
      exact hx _ _ _ _ rfl

/-- The bits below those of infinity stand for finite floats. -/
theorem isFinite_ofBits_iff (h : bits ≤ 2047 * hiddenBit) :
    (Float.ofBits (UInt64.ofNat bits)).isFinite = true ↔ bits < 2047 * hiddenBit := by
  have hh : hiddenBit = 2 ^ 52 := rfl
  have hlt : bits < 2 ^ 64 := Nat.lt_of_le_of_lt h (by decide)
  have hu := ofUnpacked?_unpack (UInt64.ofNat bits).toBitVec
  rw [UInt64.toNat_toBitVec, UInt64.toNat_ofNat_of_lt' hlt] at hu
  show (Float.Model.pack (UnpackedFloat.unpack Format.binary64 _)).unpack.isFinite = true ↔ _
  rw [isFinite_pack, isFinite_unpack_iff, Ne, ← BitVec.toNat_inj, toNat_unpackExponent,
    UInt64.toNat_toBitVec, UInt64.toNat_ofNat_of_lt' hlt]
  · show ¬bits / 2 ^ 52 % 2048 = 2047 ↔ _
    rw [hh] at h ⊢
    omega
  · intro s m e hm hb
    rw [hb, ofUnpacked?_finite] at hu
    unfold ofBits? at hu
    dsimp only at hu
    split at hu
    · cases hu
    · split at hu
      · simp only [Option.some.injEq, BinaryFraction.mk.injEq] at hu
        omega
      · simp only [Option.some.injEq, BinaryFraction.mk.injEq] at hu
        omega

/-! ### Rounding of quotients -/

/-- A power with a whole exponent is a quotient of two that are not negative. -/
theorem pow_toNat {base : Nat} (hb : base ≠ 0) (k : Int) :
    (base : ℚ) ^ k.toNat = base ^ k * base ^ (-k).toNat := by
  have hb : (base : ℚ) ≠ 0 := Nat.cast_ne_zero.mpr hb
  rw [← zpow_natCast, ← zpow_natCast, ← zpow_add₀ hb]
  congr 1
  omega

theorem scaled_le_scaled_iff (m n : Nat) (k : Int) :
    m * Nat.pow 2 k.toNat ≤ n * Nat.pow 2 (-k).toNat ↔ (2 : ℚ) ^ k * m ≤ n := by
  have hpos : (0 : ℚ) < 2 ^ (-k).toNat := by positivity
  have hpow := pow_toNat two_ne_zero k
  rw [Nat.cast_ofNat] at hpow
  rw [← Nat.cast_le (α := ℚ), Nat.pow_eq, Nat.pow_eq, Nat.cast_mul, Nat.cast_mul, Nat.cast_pow,
    Nat.cast_pow, Nat.cast_ofNat, hpow, mul_comm (m : ℚ), mul_right_comm, mul_le_mul_iff_left₀ hpos]

theorem leading_spec (hn : n ≠ 0) (hd : d ≠ 0) :
    (2 : ℚ) ^ leading n d * d ≤ n ∧ (n : ℚ) < 2 ^ (leading n d + 1) * d := by
  have hnl : (2 : ℚ) ^ n.log2 ≤ n := by exact_mod_cast Nat.log2_self_le hn
  have hnu : (n : ℚ) < 2 ^ (n.log2 + 1) := by exact_mod_cast Nat.lt_log2_self
  have hdl : (2 : ℚ) ^ d.log2 ≤ d := by exact_mod_cast Nat.log2_self_le hd
  have hdu : (d : ℚ) < 2 ^ (d.log2 + 1) := by exact_mod_cast Nat.lt_log2_self
  unfold leading
  simp only [scaled_le_scaled_iff]
  generalize hk : (n.log2 : Int) - d.log2 = k
  have hup : (n : ℚ) < 2 ^ (k + 1) * d := by
    calc (n : ℚ) < 2 ^ (n.log2 + 1) := hnu
      _ = 2 ^ (k + 1) * 2 ^ d.log2 := by
        rw [← zpow_natCast, ← zpow_natCast, ← zpow_add₀ two_ne_zero]
        congr 1
        push_cast
        omega
      _ ≤ 2 ^ (k + 1) * d := by gcongr
  have hlow : (2 : ℚ) ^ (k - 1) * d ≤ n := by
    calc (2 : ℚ) ^ (k - 1) * d ≤ 2 ^ (k - 1) * 2 ^ (d.log2 + 1) := by gcongr
      _ = 2 ^ n.log2 := by
        rw [← zpow_natCast, ← zpow_natCast, ← zpow_add₀ two_ne_zero]
        congr 1
        push_cast
        omega
      _ ≤ n := hnl
  split
  case isTrue h => exact ⟨h, hup⟩
  case isFalse h =>
    rw [sub_add_cancel]
    exact ⟨hlow, not_le.mp h⟩

/-- A quotient is rounded to less than an even number if it is more than a half below it. -/
theorem divHalfEven_lt_iff (hd : 0 < d) (hm : m % 2 = 0) (h0 : 0 < m) :
    divHalfEven n d < m ↔ 2 * n < (2 * m - 1) * d := by
  have hdm := Nat.div_add_mod n d
  have hlt := Nat.mod_lt n hd
  unfold divHalfEven
  dsimp only
  generalize n / d = q at *
  generalize n % d = r at *
  obtain ⟨p, rfl⟩ : ∃ p, m = p + 1 := ⟨m - 1, by omega⟩
  have hprod : (2 * (p + 1) - 1) * d = 2 * (d * p) + d := by
    rw [show 2 * (p + 1) - 1 = 2 * p + 1 by omega]
    ring
  rw [hprod, ← hdm]
  rcases Nat.lt_trichotomy q p with h | rfl | h
  · have hle : d * q + d ≤ d * p := by
      rw [← Nat.mul_succ]
      exact Nat.mul_le_mul_left d h
    refine iff_of_true ?_ (by omega)
    split <;> omega
  · have hq : (q % 2 == 0) = false := by
      rw [beq_eq_false_iff_ne]
      omega
    simp only [hq, Bool.and_false, Bool.or_false, decide_eq_true_eq]
    split <;> omega
  · have hle : d * p + d ≤ d * q := by
      rw [← Nat.mul_succ]
      exact Nat.mul_le_mul_left d h
    refine iff_of_false ?_ (by omega)
    split <;> omega

theorem exponent_ofRatio (n d : Nat) :
    (ofRatio .double n d).exponent = max (leading n d - 52) (-1074) := rfl

theorem significand_ofRatio (n d : Nat) : (ofRatio .double n d).significand =
    divHalfEven (n * Nat.pow 2 (-(ofRatio .double n d).exponent).toNat)
      (d * Nat.pow 2 (ofRatio .double n d).exponent.toNat) := rfl

/-- The significand has no more than its digits, and has them all above the least exponent. -/
theorem significand_bounds (hn : n ≠ 0) (hd : d ≠ 0) :
    (ofRatio .double n d).significand ≤ 2 * hiddenBit ∧
      (-1074 ≤ leading n d - 52 → hiddenBit ≤ (ofRatio .double n d).significand) := by
  obtain ⟨hlow, hup⟩ := leading_spec hn hd
  have hexp := exponent_ofRatio n d
  have hsig := significand_ofRatio n d
  generalize (ofRatio .double n d).exponent = e at hexp hsig
  have hpos : 0 < d * Nat.pow 2 e.toNat :=
    Nat.mul_pos (Nat.pos_of_ne_zero hd) (Nat.pow_pos (by decide))
  rw [hsig]
  constructor
  · refine divHalfEven_le hpos ?_
    have h := (scaled_le_scaled_iff n (2 * hiddenBit * d) (-e)).mpr ?_
    · rwa [neg_neg, Nat.mul_assoc (2 * hiddenBit)] at h
    · calc (2 : ℚ) ^ (-e) * n ≤ 2 ^ (-e) * (2 ^ (leading n d + 1) * d) := by gcongr
        _ = 2 ^ (leading n d + 1 - e) * d := by
          rw [← mul_assoc, ← zpow_add₀ two_ne_zero]
          congr 2
          omega
        _ ≤ 2 ^ (53 : Int) * d := by
          gcongr
          · exact one_le_two
          · omega
        _ = (2 * hiddenBit * d : Nat) := by
          push_cast [show hiddenBit = 2 ^ 52 from rfl]
          norm_num
  · intro h
    refine le_divHalfEven hpos ?_
    rw [← Nat.mul_assoc, scaled_le_scaled_iff]
    calc (2 : ℚ) ^ e * (hiddenBit * d : Nat) = 2 ^ (leading n d) * d := by
          rw [show leading n d = e + 52 by omega, zpow_add₀ two_ne_zero, Nat.cast_mul, mul_assoc]
          push_cast [show hiddenBit = 2 ^ 52 from rfl]
          norm_num
      _ ≤ n := hlow

end BinaryFraction

namespace Decimal

open BinaryFraction

variable {n d digits : Nat} {e : Int}

/-- The middle between the largest float and the power of two behind it, from which on numbers are
infinite. -/
def limit : Nat :=
  Nat.pow 2 1024 - Nat.pow 2 970

theorem limit_eq {k : Nat} (hk : k = 970) : limit = (2 * (2 * hiddenBit) - 1) * Nat.pow 2 k := by
  subst hk
  decide +kernel

theorem limit_pos : 0 < limit := by
  decide +kernel

theorem pow_le_limit : (2 : ℚ) ^ ((1023 : Nat) : Int) ≤ limit := by
  have h : Nat.pow 2 1023 ≤ limit := by decide +kernel
  generalize (1023 : Nat) = k at h ⊢
  rw [zpow_natCast]
  exact_mod_cast h

theorem limit_le_pow : (limit : ℚ) ≤ 2 ^ ((1024 : Nat) : Int) := by
  have h : limit ≤ Nat.pow 2 1024 := by decide +kernel
  generalize (1024 : Nat) = k at h ⊢
  rw [zpow_natCast]
  exact_mod_cast h

theorem isFinite_zero : (0 : Float).isFinite = true := rfl

theorem isFinite_infinity : infinity.isFinite = false := rfl

theorem ratio_zero (d : Nat) : ratio 0 d = 0 := by
  unfold ratio
  exact if_pos rfl

/-- A quotient keeps the digits of a significand if it is less than half a unit below the number
with one digit more. -/
theorem divHalfEven_lt_two_hiddenBit_iff {p : Nat} (hd : 0 < d) (hp : 0 < p) :
    divHalfEven n (d * (2 * p)) < 2 * hiddenBit ↔ n < (2 * (2 * hiddenBit) - 1) * p * d := by
  have hprod : (2 * (2 * hiddenBit) - 1) * (d * (2 * p)) =
      2 * ((2 * (2 * hiddenBit) - 1) * p * d) := by
    ring
  rw [divHalfEven_lt_iff (Nat.mul_pos hd (Nat.mul_pos two_pos hp)) (by decide) (by decide), hprod,
    Nat.mul_lt_mul_left two_pos]

theorem lt_limit_of_leading_le (hn : n ≠ 0) (hd : d ≠ 0) (h : leading n d ≤ 1022) :
    n < limit * d := by
  rw [← Nat.cast_lt (α := ℚ)]
  calc (n : ℚ) < 2 ^ (leading n d + 1) * d := (leading_spec hn hd).2
    _ ≤ 2 ^ ((1023 : Nat) : Int) * d := by
      gcongr
      · exact one_le_two
      · omega
    _ ≤ limit * d := by
      gcongr
      exact pow_le_limit
    _ = (limit * d : Nat) := (Nat.cast_mul _ _).symm

theorem limit_le_of_le_leading (hn : n ≠ 0) (hd : d ≠ 0) (h : 1024 ≤ leading n d) :
    limit * d ≤ n := by
  rw [← Nat.cast_le (α := ℚ)]
  calc ((limit * d : Nat) : ℚ) = limit * d := Nat.cast_mul _ _
    _ ≤ 2 ^ ((1024 : Nat) : Int) * d := by
      gcongr
      exact limit_le_pow
    _ ≤ 2 ^ leading n d * d := by
      gcongr
      · exact one_le_two
      · omega
    _ ≤ n := (leading_spec hn hd).1

/-- Below the exponent of the largest float all is finite, and above it nothing is. On it the
significand decides. -/
theorem isFinite_ratio_iff (hd : d ≠ 0) : (ratio n d).isFinite = true ↔ n < limit * d := by
  have hdpos := Nat.pos_of_ne_zero hd
  rcases Nat.eq_zero_or_pos n with rfl | hn
  · rw [ratio_zero]
    exact iff_of_true isFinite_zero (Nat.mul_pos limit_pos hdpos)
  have hn := hn.ne'
  have hexp := exponent_ofRatio n d
  have hsig := significand_ofRatio n d
  have hpos : 0 < hiddenBit := by decide
  obtain ⟨hup, hfull⟩ := significand_bounds hn hd
  unfold ratio
  simp only [if_neg hn]
  generalize (ofRatio .double n d).exponent = e at *
  generalize (ofRatio .double n d).significand = m at *
  rw [isFinite_ofBits_iff (Nat.min_le_right _ _), min_lt_iff, or_iff_left (Nat.lt_irrefl _)]
  rcases lt_trichotomy e 971 with he | he | he
  · have hbits : (e + 1074).toNat * hiddenBit ≤ 2044 * hiddenBit :=
      Nat.mul_le_mul_right _ (by omega)
    exact iff_of_true (by omega) (lt_limit_of_leading_le hn hd (by omega))
  · have hm : m < 2 * hiddenBit ↔ n < limit * d := by
      obtain ⟨k, hk⟩ : ∃ k, k = 970 := ⟨_, rfl⟩
      have hp : 0 < Nat.pow 2 k := Nat.pow_pos (by decide)
      have he : (-e).toNat = 0 ∧ e.toNat = k + 1 := by omega
      rw [he.1, he.2, show Nat.pow 2 0 = 1 from rfl, Nat.mul_one,
        show Nat.pow 2 (k + 1) = 2 * Nat.pow 2 k from Nat.pow_succ'] at hsig
      rw [hsig, limit_eq hk, divHalfEven_lt_two_hiddenBit_iff hdpos hp]
    rw [← hm, show (e + 1074).toNat = 2045 by omega]
    omega
  · have hbits : 2046 * hiddenBit ≤ (e + 1074).toNat * hiddenBit :=
      Nat.mul_le_mul_right _ (by omega)
    have hfull := hfull (by omega)
    exact iff_of_false (by omega) (not_lt.mpr (limit_le_of_le_leading hn hd (by omega)))

end Decimal

end ModularScale
