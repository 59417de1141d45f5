import ModularScale.Proofs.Decimal.Whole

/-! # The order of floats

The bits of positive floats, read as whole numbers, have the order of the floats, and both zeros
come before them in the total order.
-/

namespace ModularScale

open Float.Model Float.Model.UnpackedFloat BinaryFraction Decimal

variable {x y : Float} {m : Nat} {e : Int}

namespace BinaryFraction

theorem le_iff : x ≤ y ↔ (x.toModel.unpack.compare y.toModel.unpack).any (·.isLE) = true := by
  show decide (x.toModel.unpack.le y.toModel.unpack = true) = true ↔ _
  rw [decide_eq_true_eq]
  rfl

/-- A positive float is infinite or has positive parts. -/
theorem unpack_of_pos (h : 0 < x) : x.toModel.unpack = .infinity .positive ∨
    ∃ m e hm, x.toModel.unpack = .finite .positive m e hm := by
  have h : (UnpackedFloat.zero .positive).lt x.toModel.unpack = true := by
    have h : decide (((0 : Float).toModel.unpack.lt x.toModel.unpack) = true) = true := h
    rw [decide_eq_true_eq] at h
    exact h
  cases hu : x.toModel.unpack with
  | notANumber => rw [hu] at h; cases h
  | zero s => rw [hu] at h; cases h
  | infinity s =>
    cases s with
    | positive => exact .inl rfl
    | negative => rw [hu] at h; cases h
  | finite s m e hm =>
    cases s with
    | positive => exact .inr ⟨m, e, hm, rfl⟩
    | negative => rw [hu] at h; cases h

/-- The bits of a positive number count its significand, and from there on its exponent. -/
theorem toBits_of_ofFloat? (h : ofFloat? x = some ⟨false, m, e⟩) :
    x.toBits.toNat = (e + 1074).toNat * hiddenBit + m ∧ m < 2 * hiddenBit ∧ -1074 ≤ e ∧ e ≤ 971 ∧
      (e ≠ -1074 → hiddenBit ≤ m) := by
  have hh : hiddenBit = 2 ^ 52 := rfl
  unfold ofFloat? at h
  dsimp only at h
  rw [hh] at h ⊢
  split at h
  case isTrue => cases h
  case isFalse hinf =>
    split at h
    case isTrue hz =>
      simp only [Option.some.injEq, BinaryFraction.mk.injEq, decide_eq_false_iff_not] at h
      obtain ⟨hs, rfl, rfl⟩ := h
      omega
    case isFalse hz =>
      simp only [Option.some.injEq, BinaryFraction.mk.injEq, decide_eq_false_iff_not] at h
      obtain ⟨hs, rfl, rfl⟩ := h
      omega

/-- Infinity is the least number whose exponent has all its bits set. -/
theorem toBits_of_infinity (h : x.toModel.unpack = .infinity .positive) :
    x.toBits.toNat = 2047 * hiddenBit := by
  have hh : hiddenBit = 2 ^ 52 := rfl
  have hs := ofBitVec_unpackSign x.toBits.toBitVec
  have hf := toNat_unpackMantissa x.toBits.toBitVec
  have hk := toNat_unpackExponent x.toBits.toBitVec
  have hlt : x.toBits.toNat < 2 ^ 64 := x.toBits.toNat_lt
  have h : UnpackedFloat.unpack Format.binary64 x.toBits.toBitVec = .infinity .positive := h
  unfold UnpackedFloat.unpack at h
  dsimp only at h
  rw [UInt64.toNat_toBitVec, hh] at hs
  rw [UInt64.toNat_toBitVec] at hf hk
  rw [hh]
  split at h
  case isTrue he =>
    split at h
    case isTrue hm =>
      rw [he] at hk
      rw [hm] at hf
      rw [UnpackedFloat.infinity.inj h] at hs
      have hs : ¬2048 * 2 ^ 52 ≤ x.toBits.toNat := of_decide_eq_false hs.symm
      have hk : 2047 = x.toBits.toNat / 2 ^ 52 % 2048 := hk
      have hf : 0 = x.toBits.toNat % 2 ^ 52 := hf
      omega
    case isFalse => cases h
  case isFalse =>
    split at h
    · split at h <;> cases h
    · cases h

end BinaryFraction

/-- Positive floats compare as their bits do. -/
theorem compare_of_pos (hx : 0 < x) (hy : 0 < y) :
    x.toModel.unpack.compare y.toModel.unpack =
      some (compare x.toBits.toNat y.toBits.toNat) := by
  have hh : hiddenBit = 2 ^ 52 := rfl
  rcases unpack_of_pos hx with hux | ⟨m, e, hm, hux⟩
  · have hbx := toBits_of_infinity hux
    rcases unpack_of_pos hy with huy | ⟨n, f, hn, huy⟩
    · rw [hux, huy, hbx, toBits_of_infinity huy, compare_eq_iff_eq.mpr rfl]
      rfl
    · have hby := toBits_of_ofFloat? (x := y) (m := n) (e := f) (by rw [ofFloat?_eq, huy]; rfl)
      rw [hh] at hbx hby
      have hgt : y.toBits.toNat < x.toBits.toNat := by omega
      rw [hux, huy, compare_gt_iff_gt.mpr hgt]
      rfl
  · have hbx := toBits_of_ofFloat? (x := x) (m := m) (e := e) (by rw [ofFloat?_eq, hux]; rfl)
    rcases unpack_of_pos hy with huy | ⟨n, f, hn, huy⟩
    · have hby := toBits_of_infinity huy
      rw [hh] at hbx hby
      have hlt : x.toBits.toNat < y.toBits.toNat := by omega
      rw [hux, huy, compare_lt_iff_lt.mpr hlt]
      rfl
    · have hby := toBits_of_ofFloat? (x := y) (m := n) (e := f) (by rw [ofFloat?_eq, huy]; rfl)
      rw [hh] at hbx hby
      rw [hux, huy]
      show some ((compare e f).then (compare m n)) = _
      rcases lt_trichotomy e f with hlt | rfl | hgt
      · have hlt' : x.toBits.toNat < y.toBits.toNat := by omega
        rw [compare_lt_iff_lt.mpr hlt, compare_lt_iff_lt.mpr hlt']
        rfl
      · rw [hbx.1, hby.1, compare_eq_iff_eq.mpr rfl]
        show some (compare m n) = _
        rcases lt_trichotomy m n with hlt | rfl | hgt
        · rw [compare_lt_iff_lt.mpr hlt, compare_lt_iff_lt.mpr (by omega)]
        · rw [compare_eq_iff_eq.mpr rfl, compare_eq_iff_eq.mpr rfl]
        · rw [compare_gt_iff_gt.mpr hgt, compare_gt_iff_gt.mpr (by omega)]
      · have hgt' : y.toBits.toNat < x.toBits.toNat := by omega
        rw [compare_gt_iff_gt.mpr hgt, compare_gt_iff_gt.mpr hgt']
        rfl

/-- The bits of a positive float are its place in the total order, above that of zero. -/
theorem orderKey_of_pos (h : 0 < x) : orderKey x = x.toBits.toNat ∧ 0 < orderKey x := by
  have hh : hiddenBit = 2 ^ 52 := rfl
  have hb : 0 < x.toBits.toNat ∧ x.toBits.toNat < 2 ^ 63 := by
    rcases unpack_of_pos h with hu | ⟨m, e, hm, hu⟩
    · rw [toBits_of_infinity hu, hh]
      omega
    · have hb := toBits_of_ofFloat? (x := x) (m := m) (e := e) (by rw [ofFloat?_eq, hu]; rfl)
      rw [hh] at hb
      omega
  have hk : orderKey x = x.toBits.toNat := if_pos hb.2
  omega

theorem le_iff_orderKey_le (hx : 0 < x) (hy : 0 < y) : x ≤ y ↔ orderKey x ≤ orderKey y := by
  rw [le_iff, compare_of_pos hx hy, (orderKey_of_pos hx).1, (orderKey_of_pos hy).1]
  show (compare x.toBits.toNat y.toBits.toNat).isLE = true ↔ _
  rw [Ordering.isLE_iff_ne_gt, ← ne_eq, compare_le_iff_le, Int.ofNat_le]

theorem unpack_zero : (0 : Float).toModel.unpack = .zero .positive := rfl

/-- A float that equals zero is a zero of either sign. -/
theorem unpack_of_beq_zero (h : (x == 0) = true) : ∃ s, x.toModel.unpack = .zero s := by
  have h : x.toModel.unpack.beq (.zero .positive) = true := h
  cases hu : x.toModel.unpack with
  | zero s => exact ⟨s, rfl⟩
  | notANumber => rw [hu] at h; cases h
  | infinity s => rw [hu] at h; cases s <;> cases h
  | finite s m e hm => rw [hu] at h; cases s <;> cases h

/-- A zero of either sign comes before all positive floats in the total order. -/
theorem orderKey_of_beq_zero (h : (x == 0) = true) : orderKey x ≤ 0 := by
  obtain ⟨s, hu⟩ := unpack_of_beq_zero h
  have hh : hiddenBit = 2 ^ 52 := rfl
  have hz : ofFloat? x = some ⟨s == .negative, 0, -1074⟩ := by
    rw [ofFloat?_eq, hu]
    rfl
  unfold ofFloat? at hz
  dsimp only at hz
  rw [hh] at hz
  unfold orderKey
  dsimp only
  rw [show Nat.pow 2 63 = 2 ^ 63 from rfl]
  split at hz
  case isTrue => cases hz
  case isFalse =>
    split at hz
    case isTrue =>
      simp only [Option.some.injEq, BinaryFraction.mk.injEq] at hz
      split <;> omega
    case isFalse =>
      simp only [Option.some.injEq, BinaryFraction.mk.injEq] at hz
      omega

theorem nonneg_of_beq_zero (h : (x == 0) = true) : 0 ≤ x := by
  obtain ⟨s, hu⟩ := unpack_of_beq_zero h
  rw [le_iff, unpack_zero, hu]
  cases s <;> rfl

theorem isNaN_of_beq_zero (h : (x == 0) = true) : x.isNaN = false := by
  obtain ⟨s, hu⟩ := unpack_of_beq_zero h
  show x.toModel.unpack.isNaN = false
  rw [hu]
  rfl

theorem isNaN_of_pos (h : 0 < x) : x.isNaN = false := by
  show x.toModel.unpack.isNaN = false
  rcases unpack_of_pos h with hu | ⟨m, e, hm, hu⟩
  · rw [hu]
    rfl
  · rw [hu]
    rfl

theorem not_le_of_beq_zero (hx : 0 < x) (hy : (y == 0) = true) : ¬x ≤ y := by
  obtain ⟨s, huy⟩ := unpack_of_beq_zero hy
  rw [le_iff, huy]
  rcases unpack_of_pos hx with hux | ⟨m, e, hm, hux⟩
  · rw [hux]
    cases s <;> exact Bool.false_ne_true
  · rw [hux]
    cases s <;> exact Bool.false_ne_true

theorem nonneg_of_pos (h : 0 < x) : 0 ≤ x := by
  rw [le_iff, unpack_zero]
  rcases unpack_of_pos h with hu | ⟨m, e, hm, hu⟩
  · rw [hu]
    rfl
  · rw [hu]
    rfl

/-- The sign of a zero does not count. -/
theorem compare_zero (s : Sign) (u : UnpackedFloat) :
    (zero s).compare u = (zero .positive).compare u := by
  cases s with
  | positive => rfl
  | negative =>
    cases u with
    | notANumber => rfl
    | zero t => rfl
    | infinity t => cases t <;> rfl
    | finite t m e hm => cases t <;> rfl

theorem le_of_beq_zero (hx : (x == 0) = true) (hy : 0 ≤ y) : x ≤ y := by
  obtain ⟨s, hu⟩ := unpack_of_beq_zero hx
  rw [le_iff, unpack_zero] at hy
  rw [le_iff, hu, compare_zero]
  exact hy

end ModularScale
