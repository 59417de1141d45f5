import Mathlib.Data.Rat.Lemmas
import Mathlib.Tactic.Ring
import ModularScale.Decimal.Rounding

/-! # Floats in parts

A float unpacked into its sign, its significand and its exponent is the binary fraction that its
bits are read as, and packing such parts again keeps them.
-/

namespace ModularScale

open Float.Model Float.Model.UnpackedFloat

variable {b : BitVec Format.binary64.numBits} {x : Float} {s : Sign} {m : Nat} {e : Int}

namespace BinaryFraction

/-- The binary fraction that the parts of a float make up. -/
def ofUnpacked? : UnpackedFloat → Option BinaryFraction
  | .notANumber => none
  | .infinity _ => none
  | .zero s => some ⟨s == .negative, 0, -1074⟩
  | .finite s m e _ => some ⟨s == .negative, m, e⟩

theorem ofUnpacked?_zero (s : Sign) : ofUnpacked? (.zero s) = some ⟨s == .negative, 0, -1074⟩ := rfl

theorem ofUnpacked?_finite (s : Sign) (m : Nat) (e : Int) (hm : 0 < m) :
    ofUnpacked? (.finite s m e hm) = some ⟨s == .negative, m, e⟩ := rfl

theorem toNat_unpackMantissa (b : BitVec Format.binary64.numBits) :
    (unpackMantissa b).toNat = b.toNat % 2 ^ 52 := by
  simp [unpackMantissa]

theorem toNat_unpackExponent (b : BitVec Format.binary64.numBits) :
    (unpackExponent b).toNat = b.toNat / 2 ^ 52 % 2048 := by
  simp [unpackExponent, Nat.shiftRight_eq_div_pow]

theorem toNat_unpackSign (b : BitVec Format.binary64.numBits) :
    (unpackSign b).toNat = b.toNat / 2 ^ 63 := by
  have hb : b.toNat < 2 ^ 64 := b.isLt
  delta unpackSign
  simp [Nat.shiftRight_eq_div_pow]
  omega

theorem toNat_append_implicit (m : BitVec 52) : (1#1 ++ m).toNat = m.toNat + 2 ^ 52 := by
  rw [BitVec.toNat_append, ← Nat.shiftLeft_add_eq_or_of_lt m.isLt]
  simp [Nat.shiftLeft_eq, Nat.add_comm]

theorem ofBitVec_unpackSign (b : BitVec Format.binary64.numBits) :
    (Sign.ofBitVec (unpackSign b) == .negative) = decide (2048 * hiddenBit ≤ b.toNat) := by
  have hb : b.toNat < 2 ^ 64 := b.isLt
  have hs : unpackSign b = 0#1 ↔ b.toNat / 2 ^ 63 = 0 := by
    rw [← BitVec.toNat_inj, toNat_unpackSign]
    rfl
  have hh : 2048 * hiddenBit = 2 ^ 63 := rfl
  unfold Sign.ofBitVec
  rw [hh]
  split
  case isTrue h =>
    rw [hs] at h
    have hlt : ¬2 ^ 63 ≤ b.toNat := by omega
    simp only [hlt, decide_false]
    rfl
  case isFalse h =>
    rw [hs] at h
    have hle : 2 ^ 63 ≤ b.toNat := by omega
    simp only [hle, decide_true]
    rfl

/-- The binary fraction that bits stand for. -/
def ofBits? (bits : Nat) : Option BinaryFraction :=
  let negative := decide (2048 * hiddenBit ≤ bits)
  let biased := bits / hiddenBit % 2048
  let fraction := bits % hiddenBit
  if biased = 2047 then none
  else if biased = 0 then some ⟨negative, fraction, -1074⟩
  else some ⟨negative, fraction + hiddenBit, (biased : Int) - 1075⟩

theorem ofUnpacked?_unpack (b : BitVec Format.binary64.numBits) :
    ofUnpacked? (UnpackedFloat.unpack Format.binary64 b) = ofBits? b.toNat := by
  have he : unpackExponent b = -1#_ ↔ b.toNat / hiddenBit % 2048 = 2047 := by
    rw [← BitVec.toNat_inj, toNat_unpackExponent]
    rfl
  have h0 : unpackExponent b = 0#_ ↔ b.toNat / hiddenBit % 2048 = 0 := by
    rw [← BitVec.toNat_inj, toNat_unpackExponent]
    rfl
  have hm : unpackMantissa b = 0#_ ↔ b.toNat % hiddenBit = 0 := by
    rw [← BitVec.toNat_inj, toNat_unpackMantissa]
    rfl
  have hk := toNat_unpackExponent b
  have hf := toNat_unpackMantissa b
  have hs := ofBitVec_unpackSign b
  unfold UnpackedFloat.unpack ofBits?
  dsimp only
  by_cases hi : unpackExponent b = -1#_
  · rw [if_pos hi, if_pos (he.mp hi)]
    split <;> rfl
  · rw [if_neg hi, if_neg (mt he.mpr hi)]
    by_cases hz : unpackExponent b = 0#_
    · have hb := h0.mp hz
      rw [if_pos hz, if_pos hb]
      by_cases h : unpackMantissa b = 0#_
      · rw [dif_pos h, ofUnpacked?_zero, hs, hm.mp h]
      · rw [dif_neg h, ofUnpacked?_finite, hs, hf, hk, show b.toNat / 2 ^ 52 % 2048 = 0 from hb]
        rfl
    · rw [if_neg hz, if_neg (mt h0.mpr hz), ofUnpacked?_finite, hs, toNat_append_implicit, hf, hk]
      rfl

theorem ofFloat?_eq (x : Float) : ofFloat? x = ofUnpacked? x.toModel.unpack :=
  (ofUnpacked?_unpack _).symm

/-- The parts of a float with the full number of digits. -/
structure IsNormal (m : Nat) (e : Int) : Prop where
  le_significand : hiddenBit ≤ m
  significand_lt : m < 2 * hiddenBit
  le_exponent : -1074 ≤ e
  exponent_le : e ≤ 971

theorem toNat_packComponents (s : Sign) (k : BitVec 11) (f : BitVec 52) :
    (packComponents Format.binary64 s k f).toNat =
      s.toBitVec.toNat * 2 ^ 63 + k.toNat * 2 ^ 52 + f.toNat := by
  have hk : k.toNat < 2 ^ 11 := k.isLt
  have hf : f.toNat < 2 ^ 52 := f.isLt
  show (s.toBitVec ++ k ++ f).toNat = _
  rw [BitVec.toNat_append, BitVec.toNat_append, ← Nat.shiftLeft_add_eq_or_of_lt hf,
    ← Nat.shiftLeft_add_eq_or_of_lt hk, Nat.shiftLeft_eq, Nat.shiftLeft_eq]
  omega

theorem unpackSign_packComponents (s : Sign) (k : BitVec 11) (f : BitVec 52) :
    unpackSign (packComponents Format.binary64 s k f) = s.toBitVec := by
  have hk : k.toNat < 2 ^ 11 := k.isLt
  have hf : f.toNat < 2 ^ 52 := f.isLt
  refine BitVec.eq_of_toNat_eq ?_
  rw [toNat_unpackSign, toNat_packComponents]
  omega

theorem unpack_packComponents (s : Sign) {k : BitVec 11} (f : BitVec 52) (h0 : k ≠ 0#11)
    (h1 : k ≠ -1#11) : UnpackedFloat.unpack Format.binary64 (packComponents Format.binary64 s k f) =
      .finite s (1#1 ++ f).toNat ((k.toNat : Int) - 1075)
        (by rw [toNat_append_implicit]; omega) := by
  have hm : unpackMantissa (packComponents Format.binary64 s k f) = f :=
    unpackMantissa_packComponents
  have he : unpackExponent (packComponents Format.binary64 s k f) = k :=
    unpackExponent_packComponents
  have hs := unpackSign_packComponents s k f
  generalize packComponents Format.binary64 s k f = b at hm he hs ⊢
  subst hm he
  unfold UnpackedFloat.unpack
  dsimp only
  rw [if_neg h1, if_neg h0, hs]
  cases s <;> rfl

theorem IsNormal.log2 (h : IsNormal m e) : m.log2 = 52 := by
  obtain ⟨hl, hu, -, -⟩ := h
  have hm : m ≠ 0 := by
    rintro rfl
    exact absurd hl (by decide)
  exact (Nat.log2_eq_iff hm).mpr ⟨hl, hu⟩

/-- Normal parts are kept. -/
theorem unpack_pack (h : IsNormal m e) (hm : 0 < m) :
    (Float.Model.pack (.finite s m e hm)).unpack = .finite s m e hm := by
  have hlog := h.log2
  obtain ⟨hl, hu, hel, heu⟩ := h
  have hh : hiddenBit = 2 ^ 52 := rfl
  rw [hh] at hl hu
  have hk : ((e + 1075).toNat : Int) = e + 1075 := Int.toNat_of_nonneg (by omega)
  have hbv : (BitVec.ofNat 11 (e + 1075).toNat).toNat = (e + 1075).toNat := by
    rw [BitVec.toNat_ofNat, Nat.mod_eq_of_lt (by omega)]
  have hf : (1#1 ++ BitVec.ofNat 52 m).toNat = m := by
    rw [toNat_append_implicit, BitVec.toNat_ofNat]
    omega
  have hp : UnpackedFloat.pack Format.binary64 (.finite s m e hm) =
      packComponents Format.binary64 s (BitVec.ofNat 11 (e + 1075).toNat) (BitVec.ofNat 52 m) := by
    have hb : (e + (Format.binary64.exponentBias : Int) +
        (Format.binary64.mantissaBitsWithoutImplicit : Int)).toNat = (e + 1075).toNat := by
      show (e + 1023 + 52).toNat = _
      rw [Int.add_assoc]
      rfl
    unfold UnpackedFloat.pack
    simp only [hb, hlog]
    rw [if_neg (show ¬2 ^ 11 ≤ (e + 1075).toNat + 1 by omega),
      if_pos (show 52 + 1 = Format.binary64.mantissaBits from rfl)]
  show UnpackedFloat.unpack Format.binary64 (UnpackedFloat.pack Format.binary64 _) = _
  rw [hp, unpack_packComponents s _ ?_ ?_]
  · rw [UnpackedFloat.finite.injEq, hbv]
    exact ⟨rfl, hf, by omega⟩
  · intro h0
    have := congrArg BitVec.toNat h0
    rw [hbv] at this
    simp at this
    omega
  · intro h1
    have := congrArg BitVec.toNat h1
    rw [hbv] at this
    simp at this
    omega

end BinaryFraction

end ModularScale
