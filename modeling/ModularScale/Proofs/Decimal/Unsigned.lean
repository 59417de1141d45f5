import ModularScale.Proofs.Decimal.Order
import ModularScale.Proofs.Decimal.Rounded

/-! # Numbers without a sign

Products and quotients of positive floats are numbers without a minus sign, though they may have
become zero or infinite. So they are written without a dash.
-/

namespace ModularScale

open Float.Model Float.Model.UnpackedFloat

variable {x y : Float} {m n : Nat} {e f : Int}

namespace BinaryFraction

/-- Zero, a positive number or positive infinity. -/
inductive IsUnsigned : UnpackedFloat → Prop
  | zero : IsUnsigned (.zero .positive)
  | infinity : IsUnsigned (.infinity .positive)
  | finite (m : Nat) (e : Int) (hm : 0 < m) : IsUnsigned (.finite .positive m e hm)

theorem isUnsigned_unpack {b : BitVec Format.binary64.numBits} (hs : unpackSign b = 0#1)
    (hn : UnpackedFloat.unpack Format.binary64 b ≠ .notANumber) :
    IsUnsigned (UnpackedFloat.unpack Format.binary64 b) := by
  have hpos : Sign.ofBitVec (unpackSign b) = .positive := by
    rw [hs]
    rfl
  unfold UnpackedFloat.unpack at hn ⊢
  simp only [hpos] at hn ⊢
  split
  case isTrue he =>
    rw [if_pos he] at hn
    split
    case isTrue => exact .infinity
    case isFalse hm => exact absurd (if_neg hm) hn
  case isFalse =>
    split
    · split
      · exact .zero
      · exact .finite _ _ _
    · exact .finite _ _ _

/-- Packing keeps the sign. -/
theorem IsUnsigned.unpack_pack {u : UnpackedFloat} (h : IsUnsigned u) :
    IsUnsigned (Float.Model.pack u).unpack := by
  refine isUnsigned_unpack ?_ (unpack_pack_ne_notANumber (by rintro rfl; cases h))
  show unpackSign (UnpackedFloat.pack Format.binary64 u) = 0#1
  cases h with
  | zero => exact unpackSign_packComponents .positive _ _
  | infinity => exact unpackSign_packComponents .positive _ _
  | finite m e hm =>
    unfold UnpackedFloat.pack
    dsimp only
    split
    · exact unpackSign_packComponents .positive _ _
    · split
      · exact unpackSign_packComponents .positive _ _
      · exact unpackSign_packComponents .positive _ _

/-- Rounding keeps the sign. -/
theorem isUnsigned_roundWithAccuracy (m : Nat) (e : Int) (acc : Accuracy) :
    IsUnsigned (roundWithAccuracy Format.binary64 .positive m e acc) := by
  unfold roundWithAccuracy
  dsimp only
  split
  · exact .zero
  · exact .finite _ _ _

theorem IsUnsigned.mul (hx : IsUnsigned x.toModel.unpack) (hy : HasParts y .positive n f) :
    IsUnsigned (x * y).toModel.unpack := by
  obtain ⟨-, hn, hu⟩ := hy
  show IsUnsigned (Float.Model.pack
    (UnpackedFloat.mul Format.binary64 x.toModel.unpack y.toModel.unpack)).unpack
  refine IsUnsigned.unpack_pack ?_
  rw [hu]
  generalize x.toModel.unpack = u at hx
  cases hx with
  | zero => exact .zero
  | infinity => exact .infinity
  | finite m e hm => exact isUnsigned_roundWithAccuracy _ _ _

/-- The quotient of positive finite numbers may be zero or infinite, but has no minus sign. -/
theorem isUnsigned_div (hx : 0 < x) (hfx : x.isFinite = true) (hy : 0 < y)
    (hfy : y.isFinite = true) : IsUnsigned (x / y).toModel.unpack := by
  have hparts : ∀ {z : Float}, 0 < z → z.isFinite = true →
      ∃ m e hm, z.toModel.unpack = .finite .positive m e hm := by
    intro z hz hf
    refine (unpack_of_pos hz).resolve_left fun hinf => ?_
    change z.toModel.unpack.isFinite = true at hf
    rw [hinf] at hf
    cases hf
  obtain ⟨m, e, hm, hux⟩ := hparts hx hfx
  obtain ⟨n, f, hn, huy⟩ := hparts hy hfy
  show IsUnsigned (Float.Model.pack
    (UnpackedFloat.div Format.binary64 x.toModel.unpack y.toModel.unpack)).unpack
  refine IsUnsigned.unpack_pack ?_
  rw [hux, huy]
  exact isUnsigned_roundWithAccuracy _ _ _

theorem IsUnsigned.eq_infinity (h : IsUnsigned x.toModel.unpack) (hx : x.isFinite = false) :
    x.toModel.unpack = .infinity .positive := by
  change x.toModel.unpack.isFinite = false at hx
  cases hu : x.toModel.unpack with
  | notANumber => rw [hu] at h; cases h
  | infinity s => rw [hu] at h; cases h; rfl
  | zero s => rw [hu] at hx; cases hx
  | finite s m e hm => rw [hu] at hx; cases hx

theorem IsUnsigned.negative_eq {b : BinaryFraction} (h : IsUnsigned x.toModel.unpack)
    (hb : ofFloat? x = some b) : b.negative = false := by
  rw [ofFloat?_eq] at hb
  cases hu : x.toModel.unpack with
  | notANumber => rw [hu] at hb; cases hb
  | infinity s => rw [hu] at hb; cases hb
  | zero s => rw [hu] at h hb; cases h; cases hb; rfl
  | finite s m e hm => rw [hu] at h hb; cases h; cases hb; rfl

end BinaryFraction

namespace Decimal

open BinaryFraction

theorem dash_notMem_positional {digits : List Char} (hd : ∀ c ∈ digits, c.isDigit = true)
    (exponent : Int) : '-' ∉ positional [] digits exponent := by
  have hdash : '-' ∉ digits := fun hm => absurd (hd _ hm) (by decide)
  have hzeros : ∀ k, '-' ∉ zeros k := fun k hm => absurd (isDigit_zeros k _ hm) (by decide)
  unfold positional
  dsimp only
  split
  · simp [hdash, hzeros]
  · split
    · simp only [List.mem_append, List.mem_cons, not_or]
      exact ⟨fun hm => hdash (List.mem_of_mem_take hm), by decide,
        fun hm => hdash (List.mem_of_mem_drop hm)⟩
    · simp [hdash, hzeros]

/-- Only numbers with a minus sign are written with a dash. -/
theorem dash_notMem_write {b : BinaryFraction} (hb : ofFloat? x = some b)
    (hs : b.negative = false) : '-' ∉ (write plain x).toList := by
  unfold write writeMagnitude
  simp only [hb, hs, plain, Bool.false_eq_true, if_false, if_true, String.toList_ofList,
    List.nil_append]
  split
  · decide
  · exact dash_notMem_positional
      (fun c hc => Nat.isDigit_of_mem_toDigits (by decide) (by decide) hc) _

variable {places : Nat}

/-- What has no sign when it is scaled for rounding is written without a dash. -/
theorem dash_notMem_writeRounded (hf : IsFactor places n f)
    (h : IsUnsigned (x * powerOfTen places).toModel.unpack)
    (hx : (x * powerOfTen places).isFinite = true) : '-' ∉ (writeRounded places x).toList := by
  obtain ⟨b, hb⟩ : ∃ b, ofFloat? (x * powerOfTen places) = some b := by
    rw [← Option.ne_none_iff_exists', Ne, ofFloat?_eq_none_iff, hx]
    decide
  have hp := hf.hasParts
  unfold writeRounded
  rcases roundHalfAway_cases hb with ⟨s, hzero⟩ | ⟨s, m, e, z, hs, hparts, he, -, -⟩
  · have hwrite : write plain 0 = "0" := by decide +kernel
    rw [roundTo_of_beq_zero (zero_div_beq_zero hzero hp), hwrite]
    decide
  · have hle := hparts.isNormal.exponent_le
    have hlo := hf.le_exponent
    have hhi := hf.exponent_le
    obtain ⟨m', e', hq, -⟩ := hparts.div hp (by omega) (by omega)
    rw [roundTo_of_beq_zero_eq_false hq.beq_zero]
    refine dash_notMem_write hq.ofFloat?_eq_some ?_
    rw [h.negative_eq hb] at hs
    cases s with
    | positive => rfl
    | negative => cases hs

end Decimal

end ModularScale
