import ModularScale.Proofs.Decimal.Places
import ModularScale.Proofs.Decimal.Whole

/-! # Rounded sizes

A number that stays finite when it is scaled for rounding is written as a plain decimal of few
places. One that does not is written as an infinity, whether or not it is finite itself.
-/

namespace ModularScale

open Float.Model Float.Model.UnpackedFloat

variable {x y : Float} {s t : Sign} {m n : Nat} {e f : Int}

namespace BinaryFraction

theorem HasParts.of_ofFloat? (h : IsNormal m e) (hx : ofFloat? x = some ⟨s == .negative, m, e⟩) :
    HasParts x s m e := by
  have hm : m ≠ 0 := by
    rintro rfl
    exact absurd h.le_significand (by decide)
  obtain ⟨s', hm, hu, hs⟩ := exists_of_ofUnpacked? (ofFloat?_eq x ▸ hx) hm
  obtain rfl : s = s' := by
    cases s <;> cases s' <;> first | rfl | exact absurd hs (by decide)
  exact ⟨h, hm, hu⟩

theorem HasParts.div (hx : HasParts x s m e) (hy : HasParts y t n f) (hlo : -1021 ≤ e - f)
    (hhi : e - f ≤ 1022) :
    ∃ m' e', HasParts (x / y) (s / t) m' e' ∧ Rounds m' e' (m * 2 ^ e / (n * 2 ^ f)) := by
  obtain ⟨hm, hm0, hux⟩ := hx
  obtain ⟨hn, hn0, huy⟩ := hy
  obtain ⟨m', e', h, hdiv, hnorm, hround⟩ :=
    div_normal (s := s) (t := t) hm hn hlo hhi hm0 hn0
  refine ⟨m', e', HasParts.of_model hnorm ⟨h, ?_⟩, hround⟩
  show Float.Model.pack (UnpackedFloat.div Format.binary64 x.toModel.unpack y.toModel.unpack) = _
  rw [hux, huy, hdiv]

theorem HasParts.beq_zero (h : HasParts x s m e) : (x == 0) = false := by
  obtain ⟨-, hm, hu⟩ := h
  show x.toModel.unpack.beq (0 : Float).toModel.unpack = false
  rw [hu, show (0 : Float).toModel.unpack = .zero .positive from rfl]
  cases s <;> rfl

theorem zero_div_beq_zero (hx : x.toModel.unpack = .zero s) (hy : HasParts y t n f) :
    (x / y == 0) = true := by
  obtain ⟨-, hn, hu⟩ := hy
  show (Float.Model.pack
    (UnpackedFloat.div Format.binary64 x.toModel.unpack y.toModel.unpack)).unpack.beq
      (0 : Float).toModel.unpack = true
  rw [hx, hu, show UnpackedFloat.div Format.binary64 (.zero s) (.finite t n f hn) = .zero (s / t)
    from rfl]
  generalize s / t = r
  cases r <;> rfl

/-- An infinity stays one in a quotient with a finite number. -/
theorem infinity_div (hx : x.toModel.unpack = .infinity s) (hy : HasParts y t n f) :
    (x / y).toModel.unpack = .infinity (s / t) := by
  obtain ⟨-, hn, hu⟩ := hy
  show (Float.Model.pack
    (UnpackedFloat.div Format.binary64 x.toModel.unpack y.toModel.unpack)).unpack = _
  rw [hx, hu, show UnpackedFloat.div Format.binary64 (.infinity s) (.finite t n f hn) =
    .infinity (s / t) from rfl]
  generalize s / t = r
  cases r <;> rfl

theorem ofFloat?_eq_none_iff : ofFloat? x = none ↔ x.isFinite = false := by
  show _ ↔ x.toModel.unpack.isFinite = false
  rw [ofFloat?_eq]
  cases x.toModel.unpack <;> simp [ofUnpacked?, UnpackedFloat.isFinite]

theorem unpack_ne_notANumber {b : BitVec Format.binary64.numBits} (h : unpackExponent b ≠ -1#_) :
    UnpackedFloat.unpack Format.binary64 b ≠ .notANumber := by
  unfold UnpackedFloat.unpack
  simp only [if_neg h]
  split
  · split
    · nofun
    · nofun
  · nofun

/-- What is packed as a number is one, though it may have become infinite. -/
theorem unpack_pack_ne_notANumber {u : UnpackedFloat} (h : u ≠ .notANumber) :
    (Float.Model.pack u).unpack ≠ .notANumber := by
  have hinf : ∀ s, UnpackedFloat.unpack Format.binary64 (packedInfinity Format.binary64 s) ≠
      .notANumber := by
    intro s
    cases s <;> nofun
  show UnpackedFloat.unpack Format.binary64 (UnpackedFloat.pack Format.binary64 u) ≠ _
  cases u with
  | notANumber => exact absurd rfl h
  | infinity s => exact hinf s
  | zero s => cases s <;> nofun
  | finite s m e hm =>
    unfold UnpackedFloat.pack
    dsimp only
    split
    case isTrue => exact hinf s
    case isFalse hlt =>
      split
      · refine unpack_ne_notANumber ?_
        rw [unpackExponent_packComponents]
        intro heq
        have hval := congrArg BitVec.toNat heq
        rw [BitVec.toNat_ofNat] at hval
        change _ % 2048 = 2047 at hval
        change ¬2048 ≤ _ + 1 at hlt
        omega
      · refine unpack_ne_notANumber ?_
        rw [unpackExponent_packComponents]
        decide

/-- A product of finite numbers is a number, if not always a finite one. -/
theorem exists_infinity_of_mul (hx : x.isFinite = true) (hy : HasParts y t n f)
    (h : (x * y).isFinite = false) : ∃ s, (x * y).toModel.unpack = .infinity s := by
  obtain ⟨-, hn, hu⟩ := hy
  have hmul : UnpackedFloat.mul Format.binary64 x.toModel.unpack y.toModel.unpack ≠ .notANumber := by
    change x.toModel.unpack.isFinite = true at hx
    rw [hu]
    cases hux : x.toModel.unpack with
    | notANumber => simp [hux, UnpackedFloat.isFinite] at hx
    | infinity s => simp [hux, UnpackedFloat.isFinite] at hx
    | zero s => nofun
    | finite s m e hm =>
      show roundWithAccuracy Format.binary64 (s * t) (m * n) (e + f) .exact ≠ _
      unfold roundWithAccuracy
      dsimp only
      split
      · nofun
      · nofun
  have hnum : (x * y).toModel.unpack ≠ .notANumber := unpack_pack_ne_notANumber hmul
  change (x * y).toModel.unpack.isFinite = false at h
  cases hxy : (x * y).toModel.unpack with
  | notANumber => exact absurd hxy hnum
  | infinity s => exact ⟨s, rfl⟩
  | zero s => simp [hxy, UnpackedFloat.isFinite] at h
  | finite s m e hm => simp [hxy, UnpackedFloat.isFinite] at h

end BinaryFraction

namespace Decimal

open BinaryFraction

/-- A factor for rounding that is a float without an error. -/
structure IsFactor (places : Nat) (n : Nat) (f : Int) : Prop where
  hasParts : HasParts (powerOfTen places) .positive n f
  value_eq : (n : ℚ) * 2 ^ f = 10 ^ places
  le_exponent : -51 ≤ f
  exponent_le : f ≤ 969

variable {places : Nat}

theorem roundTo_of_beq_zero
    (h : (roundHalfAway (x * powerOfTen places) / powerOfTen places == 0) = true) :
    roundTo places x = 0 := by
  unfold roundTo
  simp only [h, if_true]

theorem roundTo_of_beq_zero_eq_false
    (h : (roundHalfAway (x * powerOfTen places) / powerOfTen places == 0) = false) :
    roundTo places x = roundHalfAway (x * powerOfTen places) / powerOfTen places := by
  unfold roundTo
  simp only [h, Bool.false_eq_true, if_false]

theorem isPlainDecimal_zero (places : Nat) : IsPlainDecimal places (write plain 0).toList := by
  have h : write plain 0 = "0" := by decide +kernel
  rw [h]
  exact ⟨[], ['0'], [], rfl, .inl rfl, List.cons_ne_nil _ _, List.forall_mem_singleton.mpr rfl,
    .inl rfl⟩

/-- A number is written with the places that it is rounded to, if it can be scaled by them. -/
theorem isPlainDecimal_writeRounded (hf : IsFactor places n f) (hk : places ≤ 6)
    (hx : (x * powerOfTen places).isFinite = true) :
    IsPlainDecimal places (writeRounded places x).toList := by
  obtain ⟨hp, hv, hlo, hhi⟩ := hf
  obtain ⟨b, hb⟩ : ∃ b, ofFloat? (x * powerOfTen places) = some b := by
    rw [← Option.ne_none_iff_exists', Ne, ofFloat?_eq_none_iff, hx]
    decide
  unfold writeRounded
  rcases roundHalfAway_cases hb with ⟨s, hzero⟩ | ⟨s, m, e, z, -, hparts, he, hz, hval⟩
  · rw [roundTo_of_beq_zero (zero_div_beq_zero hzero hp)]
    exact isPlainDecimal_zero places
  · have hle := hparts.isNormal.exponent_le
    obtain ⟨m', e', hq, hround⟩ := hparts.div hp (by omega) (by omega)
    rw [hval, hv] at hround
    rw [roundTo_of_beq_zero_eq_false hq.beq_zero]
    exact isPlainDecimal_write hq.ofFloat?_eq_some hq.isNormal hz hk hround

/-- A number that becomes infinite when it is scaled is written as an infinity of its sign. -/
theorem writeRounded_of_infinity (hf : IsFactor places n f)
    (h : (x * powerOfTen places).toModel.unpack = .infinity s) :
    writeRounded places x = if s == .negative then "-inf" else "inf" := by
  have hinf : (x * powerOfTen places).isFinite = false := by
    show UnpackedFloat.isFinite _ = false
    rw [h]
    rfl
  have hround : roundHalfAway (x * powerOfTen places) = x * powerOfTen places := by
    unfold roundHalfAway
    rw [ofFloat?_eq_none_iff.mpr hinf]
  have hq := infinity_div (hround ▸ h) hf.hasParts
  have hbeq : (roundHalfAway (x * powerOfTen places) / powerOfTen places == 0) = false := by
    show UnpackedFloat.beq (Float.toModel _).unpack (0 : Float).toModel.unpack = false
    rw [hq, show (0 : Float).toModel.unpack = .zero .positive from rfl]
    cases s <;> rfl
  unfold writeRounded
  rw [roundTo_of_beq_zero_eq_false hbeq]
  generalize roundHalfAway (x * powerOfTen places) / powerOfTen places = y at hq ⊢
  have hnone : ofFloat? y = none := by
    rw [ofFloat?_eq, hq]
    rfl
  have hnan : y.isNaN = false := by
    show y.toModel.unpack.isNaN = false
    rw [hq]
    rfl
  have hlt : y < 0 ↔ (s == .negative) = true := by
    show decide (y.toModel.unpack.lt (0 : Float).toModel.unpack = true) = true ↔ _
    rw [decide_eq_true_eq, hq]
    cases s <;> exact Iff.rfl
  simp only [write, hnone, plain, hnan, hlt, Bool.false_eq_true, if_false]

/-- A finite number that becomes infinite when it is scaled is written as an infinity. -/
theorem writeRounded_of_not_isFinite (hf : IsFactor places n f) (hx : x.isFinite = true)
    (h : (x * powerOfTen places).isFinite = false) :
    writeRounded places x = "inf" ∨ writeRounded places x = "-inf" := by
  obtain ⟨s, hs⟩ := exists_infinity_of_mul hx hf.hasParts h
  rw [writeRounded_of_infinity hf hs]
  split
  · exact .inr rfl
  · exact .inl rfl

end Decimal

end ModularScale
