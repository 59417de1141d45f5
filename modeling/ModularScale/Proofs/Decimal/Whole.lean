import ModularScale.Proofs.Decimal.Quotient

/-! # Whole floats

The whole number nearest to a finite float is a float again, so its quotient with a small power of
ten is a float to which a decimal is rounded.
-/

namespace ModularScale.BinaryFraction

open Float.Model Float.Model.UnpackedFloat Decimal

variable {x : Float} {s : Sign} {negative : Bool} {m n d bits : Nat} {e : Int}

theorem exists_of_ofUnpacked? {u : UnpackedFloat} (h : ofUnpacked? u = some ⟨negative, m, e⟩)
    (hm : m ≠ 0) : ∃ s hm, u = .finite s m e hm ∧ negative = (s == .negative) := by
  cases u with
  | notANumber => cases h
  | infinity s => cases h
  | zero s =>
    cases h
    exact absurd rfl hm
  | finite s m e hpos =>
    cases h
    exact ⟨s, hpos, rfl, rfl⟩

/-- The bits of a normal positive float. -/
theorem ofBits?_normal (h : IsNormal m e)
    (hb : bits = (e + 1074).toNat * hiddenBit + m) : ofBits? bits = some ⟨false, m, e⟩ := by
  obtain ⟨hl, hu, hel, heu⟩ := h
  have hk : ((e + 1074).toNat : Int) = e + 1074 := Int.toNat_of_nonneg (by omega)
  have hh : hiddenBit = 2 ^ 52 := rfl
  generalize (e + 1074).toNat = k at *
  rw [hh] at hl hu hb
  have hneg : ¬2048 * 2 ^ 52 ≤ bits := by omega
  have hbiased : bits / 2 ^ 52 % 2048 = k + 1 := by omega
  have hfraction : bits % 2 ^ 52 + 2 ^ 52 = m := by omega
  unfold ofBits?
  simp only [hh, hneg, hbiased, hfraction, decide_false]
  rw [if_neg (by omega), if_neg (by omega)]
  congr 2
  push_cast
  omega

/-- A float that is written with the full number of digits. -/
structure HasParts (x : Float) (s : Sign) (m : Nat) (e : Int) : Prop where
  isNormal : IsNormal m e
  unpack_eq : ∃ hm, x.toModel.unpack = .finite s m e hm

theorem HasParts.of_model {model : Float.Model} (h : IsNormal m e)
    (hx : ∃ hm, model = .pack (.finite s m e hm)) : HasParts (.ofModel model) s m e := by
  obtain ⟨hm, rfl⟩ := hx
  exact ⟨h, hm, unpack_pack h hm⟩

theorem HasParts.ofFloat?_eq_some (h : HasParts x s m e) :
    ofFloat? x = some ⟨s == .negative, m, e⟩ := by
  obtain ⟨-, hm, hu⟩ := h
  rw [ofFloat?_eq, hu]
  rfl

theorem IsNormal.bits_lt (h : IsNormal m e) :
    (e + 1074).toNat * hiddenBit + m < 2047 * hiddenBit := by
  have hk : (e + 1074).toNat ≤ 2045 := by
    have := h.exponent_le
    omega
  have hmul := Nat.mul_le_mul_right hiddenBit hk
  have hm := h.significand_lt
  generalize (e + 1074).toNat * hiddenBit = k at *
  omega

theorem hasParts_ofBits (h : IsNormal m e) :
    HasParts (Float.ofBits (UInt64.ofNat ((e + 1074).toNat * hiddenBit + m))) .positive m e := by
  have hlt : (e + 1074).toNat * hiddenBit + m < 2 ^ 64 := h.bits_lt.trans (by decide)
  refine HasParts.of_model h ?_
  have hb := ofUnpacked?_unpack
    (UInt64.ofNat ((e + 1074).toNat * hiddenBit + m)).toBitVec
  have hm : m ≠ 0 := by
    rintro rfl
    exact absurd h.le_significand (by decide)
  rw [UInt64.toNat_toBitVec, UInt64.toNat_ofNat_of_lt' hlt, ofBits?_normal h rfl] at hb
  obtain ⟨s, hm, hu, hs⟩ := exists_of_ofUnpacked? hb hm
  cases s with
  | negative => cases hs
  | positive => exact ⟨hm, congrArg Float.Model.pack hu⟩

theorem le_divHalfEven {lo : Nat} (hd : 0 < d) (h : lo * d ≤ n) : lo ≤ divHalfEven n d := by
  have hq : lo ≤ n / d := (Nat.le_div_iff_mul_le hd).mpr h
  unfold divHalfEven
  dsimp only
  split
  · exact hq
  · omega

theorem divHalfEven_le {hi : Nat} (hd : 0 < d) (h : n ≤ hi * d) : divHalfEven n d ≤ hi := by
  have hq : n / d ≤ hi := Nat.div_le_of_le_mul (Nat.mul_comm hi d ▸ h)
  unfold divHalfEven
  dsimp only
  split
  · exact hq
  case isFalse hne =>
    have hr : n % d ≠ 0 := by
      intro hr
      simp [hr, hd] at hne
    rcases Nat.lt_or_eq_of_le hq with hlt | heq
    · exact hlt
    · have hdm := Nat.div_add_mod n d
      rw [heq, Nat.mul_comm] at hdm
      omega

theorem divHalfEven_one (n : Nat) : divHalfEven n 1 = n := by
  refine Nat.le_antisymm (divHalfEven_le Nat.one_pos ?_) (le_divHalfEven Nat.one_pos ?_)
  · rw [Nat.mul_one]
  · rw [Nat.mul_one]

theorem leading_one (hn : n ≠ 0) : leading n 1 = n.log2 := by
  have hlog : (n.log2 : Int) - (Nat.log2 1 : Nat) = n.log2 := Int.sub_zero _
  unfold leading
  simp only [hlog, Int.toNat_natCast, Int.toNat_neg_natCast]
  rw [if_pos]
  simpa using Nat.log2_self_le hn

/-- A whole number takes as many digits as a significand has, and none behind the point. -/
theorem ofRatio_one (hn : n ≠ 0) : ∃ m, ofRatio .double n 1 = ⟨false, m, n.log2 - 52⟩ ∧
    hiddenBit ≤ m ∧ m ≤ 2 * hiddenBit ∧
      (∀ k, n.log2 = 52 + k → n ≤ (2 * hiddenBit - 1) * 2 ^ k → m < 2 * hiddenBit) ∧
    ∃ z : Nat, (m : ℚ) * 2 ^ (n.log2 - 52 : Int) = z := by
  have hd : 0 < 2 ^ ((n.log2 : Int) - 52).toNat := Nat.two_pow_pos _
  have hpow : 2 ^ n.log2 * 2 ^ (-((n.log2 : Int) - 52)).toNat =
      hiddenBit * 2 ^ ((n.log2 : Int) - 52).toNat := by
    show _ = 2 ^ 52 * _
    rw [← Nat.pow_add, ← Nat.pow_add]
    congr 1
    omega
  have hlo : hiddenBit * 2 ^ ((n.log2 : Int) - 52).toNat ≤
      n * 2 ^ (-((n.log2 : Int) - 52)).toNat := by
    rw [← hpow]
    exact Nat.mul_le_mul_right _ (Nat.log2_self_le hn)
  have hhi : n * 2 ^ (-((n.log2 : Int) - 52)).toNat ≤
      2 * hiddenBit * 2 ^ ((n.log2 : Int) - 52).toNat := by
    rw [Nat.mul_assoc, ← hpow, ← Nat.mul_assoc, ← Nat.pow_succ']
    exact Nat.mul_le_mul_right _ Nat.lt_log2_self.le
  refine ⟨divHalfEven (n * 2 ^ (-((n.log2 : Int) - 52)).toNat)
    (2 ^ ((n.log2 : Int) - 52).toNat), ?_, le_divHalfEven hd hlo, divHalfEven_le hd hhi, ?_, ?_⟩
  · have hmax : max ((n.log2 : Int) - 52) (-1074) = n.log2 - 52 := by omega
    unfold ofRatio
    rw [leading_one hn]
    show BinaryFraction.mk false (divHalfEven (n * 2 ^ (-max ((n.log2 : Int) - 52) (-1074)).toNat)
      (1 * 2 ^ (max ((n.log2 : Int) - 52) (-1074)).toNat)) (max ((n.log2 : Int) - 52) (-1074)) = _
    rw [hmax, Nat.one_mul]
  · intro k hlog hle
    have hk : (n.log2 : Int) - 52 = k := by omega
    refine Nat.lt_of_le_pred (by decide) (divHalfEven_le hd ?_)
    rw [hk, Int.toNat_natCast, Int.toNat_neg_natCast, pow_zero, mul_one]
    exact hle
  · obtain ⟨k, hk | hk⟩ := Int.eq_nat_or_neg ((n.log2 : Int) - 52)
    · rw [hk, zpow_natCast]
      exact ⟨_ * 2 ^ k, by push_cast; rfl⟩
    · rw [hk, neg_neg, Int.toNat_natCast, Int.toNat_neg_natCast, pow_zero, divHalfEven_one]
      refine ⟨n, ?_⟩
      rw [zpow_neg, zpow_natCast]
      push_cast
      field_simp

/-- A whole number in range is rounded to a whole float. -/
theorem hasParts_ratio {k : Nat} (hn : 0 < n) (hk : k ≤ 971)
    (hle : n ≤ (2 * hiddenBit - 1) * 2 ^ k) :
    ∃ m e z, HasParts (ratio n 1) .positive m e ∧ -52 ≤ e ∧ 0 < z ∧
      (m : ℚ) * 2 ^ e = (z : Nat) := by
  obtain ⟨m, hof, hlo, hhi, htop, z, hz⟩ := ofRatio_one hn.ne'
  have hlog : n.log2 ≤ 52 + k := by
    refine Nat.lt_succ_iff.mp ((Nat.log2_lt hn.ne').mpr (lt_of_le_of_lt hle ?_))
    rw [Nat.succ_eq_add_one, show 52 + k + 1 = 53 + k by omega, Nat.pow_add]
    exact Nat.mul_lt_mul_of_pos_right (by decide) (Nat.two_pow_pos _)
  have hpos : 0 < z := by
    have hm : (0 : ℚ) < m := by exact_mod_cast (show 0 < hiddenBit by decide).trans_le hlo
    have : (0 : ℚ) < m * 2 ^ (n.log2 - 52 : Int) := by positivity
    rw [hz] at this
    exact_mod_cast this
  have hbits : ∀ {m' : Nat} {e' : Int}, IsNormal m' e' →
      ((n.log2 : Int) - 52 + 1074).toNat * hiddenBit + m = (e' + 1074).toNat * hiddenBit + m' →
      HasParts (ratio n 1) .positive m' e' := by
    intro m' e' hn' heq
    unfold ratio
    simp only [hof, heq, Nat.min_eq_left hn'.bits_lt.le]
    rw [if_neg hn.ne']
    exact hasParts_ofBits hn'
  rcases Nat.lt_or_eq_of_le hhi with hlt | heq
  · exact ⟨m, _, z, hbits ⟨hlo, hlt, by omega, by omega⟩ rfl, by omega, hpos, hz⟩
  · have hne : n.log2 ≠ 52 + k := fun h => (htop k h hle).ne heq
    refine ⟨hiddenBit, n.log2 - 52 + 1, z, hbits ⟨le_refl _, by decide, by omega, by omega⟩ ?_,
      by omega, hpos, ?_⟩
    · rw [heq, show ((n.log2 : Int) - 52 + 1 + 1074).toNat =
        (n.log2 - 52 + 1074 : Int).toNat + 1 by omega]
      ring
    · rw [← hz, heq, zpow_add_one₀ two_ne_zero]
      push_cast
      ring

/-- The parts of a finite float have at most the digits of a normal one. -/
theorem bounds_of_ofFloat? {b : BinaryFraction} (h : ofFloat? x = some b) :
    b.significand ≤ 2 * hiddenBit - 1 ∧ -1074 ≤ b.exponent ∧ b.exponent ≤ 971 := by
  have hf := Nat.mod_lt x.toBits.toNat (show 0 < hiddenBit by decide)
  unfold ofFloat? at h
  dsimp only at h
  split at h
  case isTrue => cases h
  case isFalse h₁ =>
    split at h
    case isTrue =>
      cases h
      dsimp only
      omega
    case isFalse h₂ =>
      cases h
      dsimp only
      omega

theorem HasParts.withSign (h : HasParts x .positive m e) (negative : Bool) :
    ∃ s, (s == .negative) = negative ∧ HasParts (withSign negative x) s m e := by
  cases negative with
  | false => exact ⟨.positive, rfl, h⟩
  | true =>
    obtain ⟨hn, hm, hu⟩ := h
    refine ⟨.negative, rfl, HasParts.of_model hn ⟨hm, ?_⟩⟩
    show Float.Model.pack x.toModel.unpack.neg = _
    rw [hu]
    rfl

theorem unpack_withSign_zero (hx : x.toModel.unpack = .zero .positive) (negative : Bool) :
    ∃ s, (withSign negative x).toModel.unpack = .zero s := by
  cases negative with
  | false => exact ⟨.positive, hx⟩
  | true =>
    refine ⟨.negative, ?_⟩
    show (Float.Model.pack x.toModel.unpack.neg).unpack = _
    rw [hx]
    rfl

/-- The whole number nearest to a finite float is zero or a whole float of the same sign. -/
theorem roundHalfAway_cases {b : BinaryFraction} (h : ofFloat? x = some b) :
    (∃ s, (roundHalfAway x).toModel.unpack = .zero s) ∨
      ∃ s m e z, (s == .negative) = b.negative ∧ HasParts (roundHalfAway x) s m e ∧ -52 ≤ e ∧
        0 < z ∧ (m : ℚ) * 2 ^ e = (z : Nat) := by
  obtain ⟨hm, -, he⟩ := bounds_of_ofFloat? h
  have hround : roundHalfAway x = withSign b.negative
      (ratio ((2 * b.numerator + b.denominator) / (2 * b.denominator)) 1) := by
    unfold roundHalfAway
    rw [h]
  have hd : 0 < b.denominator := Nat.pow_pos (by decide)
  have hle : (2 * b.numerator + b.denominator) / (2 * b.denominator) ≤ b.numerator := by
    refine Nat.lt_succ_iff.mp ((Nat.div_lt_iff_lt_mul (by omega)).mpr ?_)
    nlinarith
  have hnum : b.numerator ≤ (2 * hiddenBit - 1) * 2 ^ b.exponent.toNat := Nat.mul_le_mul_right _ hm
  rw [hround]
  generalize (2 * b.numerator + b.denominator) / (2 * b.denominator) = n at hle ⊢
  rcases Nat.eq_zero_or_pos n with rfl | hn
  · exact .inl (unpack_withSign_zero rfl b.negative)
  · right
    obtain ⟨m, e, z, hp, hval⟩ := hasParts_ratio hn (by omega) (hle.trans hnum)
    obtain ⟨s, hs, hp⟩ := hp.withSign b.negative
    exact ⟨s, m, e, z, hs, hp, hval⟩

end ModularScale.BinaryFraction
