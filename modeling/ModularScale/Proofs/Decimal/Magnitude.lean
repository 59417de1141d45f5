import ModularScale.Decimal.Reader
import ModularScale.Proofs.Decimal.Finite

/-! # Magnitudes of numerals

A numeral is a number if and only if the decimal that it writes, apart from its sign, is below the
limit of the floats. How many digits it takes to write it does not matter.
-/

namespace ModularScale

open BinaryFraction

variable {n digits : Nat} {e : Int} {c : Char} {cs ds : List Char} {x : Numeral} {text : String}

namespace Decimal

theorem one_lt_limit : (1 : ℚ) < limit := by
  exact_mod_cast (show 1 < limit by decide +kernel)

theorem limit_lt_pow_ten : (limit : ℚ) < 10 ^ ((400 : Nat) : Int) := by
  have h : limit < Nat.pow 10 400 := by decide +kernel
  generalize (400 : Nat) = k at h ⊢
  rw [zpow_natCast]
  exact_mod_cast h

/-- Numbers that are not computed are on the same side of the limit as what stands for them. -/
theorem isFinite_nearest_iff (hn : n < 10 ^ digits) :
    (nearest n digits e).isFinite = true ↔ (n : ℚ) * 10 ^ e < limit := by
  rcases Nat.eq_zero_or_pos n with rfl | hpos
  · have hz : nearest 0 digits e = 0 := if_pos rfl
    rw [hz, Nat.cast_zero, zero_mul]
    exact iff_of_true isFinite_zero (one_pos.trans one_lt_limit)
  · unfold nearest
    rw [show decide (n = 0) = false from decide_eq_false hpos.ne', Bool.false_or]
    split
    case isTrue h =>
      refine iff_of_true isFinite_zero (lt_trans ?_ one_lt_limit)
      calc (n : ℚ) * 10 ^ e < 10 ^ digits * 10 ^ e := by
            gcongr
            exact_mod_cast hn
        _ = 10 ^ (digits + e) := by rw [zpow_add₀ (by norm_num), zpow_natCast]
        _ ≤ 1 := zpow_le_one_of_nonpos₀ (by norm_num) (by
          have h := of_decide_eq_true h
          omega)
    case isFalse h =>
      split
      case isTrue he =>
        refine iff_of_false (by rw [isFinite_infinity]; exact Bool.false_ne_true) (not_lt.mpr ?_)
        calc (limit : ℚ) ≤ 10 ^ ((400 : Nat) : Int) := limit_lt_pow_ten.le
          _ ≤ 10 ^ e := by
            gcongr
            · norm_num
            · omega
          _ ≤ n * 10 ^ e := le_mul_of_one_le_left (by positivity) (by exact_mod_cast hpos)
      case isFalse he =>
        have hten : (0 : ℚ) < 10 ^ (-e).toNat := by positivity
        have hpow := pow_toNat (show 10 ≠ 0 by decide) e
        rw [Nat.cast_ofNat] at hpow
        have hd : Nat.pow 10 (-e).toNat ≠ 0 := (Nat.pow_pos (by decide)).ne'
        rw [isFinite_ratio_iff hd, ← Nat.cast_lt (α := ℚ), Nat.pow_eq,
          Nat.pow_eq, Nat.cast_mul, Nat.cast_mul, Nat.cast_pow, Nat.cast_pow, Nat.cast_ofNat, hpow,
          ← mul_assoc, mul_lt_mul_iff_left₀ hten]

end Decimal

namespace Numeral

open Decimal

theorem digitValue_le (h : c.isDigit = true) : digitValue c ≤ 9 := by
  obtain ⟨-, hc⟩ := Char.isDigit_iff_toNat.mp h
  have h0 : '0'.toNat = 48 := rfl
  have h9 : '9'.toNat = 57 := rfl
  unfold digitValue
  omega

theorem ofDigits_concat (ds : List Char) (c : Char) :
    ofDigits (ds ++ [c]) = 10 * ofDigits ds + digitValue c := by
  unfold ofDigits
  rw [List.foldl_append]
  rfl

theorem ofDigits_lt (h : ∀ c ∈ ds, c.isDigit = true) : ofDigits ds < 10 ^ ds.length := by
  induction ds using List.reverseRecOn with
  | nil => exact Nat.one_pos
  | append_singleton ds c ih =>
    have hc := digitValue_le (h c (List.mem_append_right _ List.mem_cons_self))
    have ih := ih fun d hd => h d (List.mem_append_left _ hd)
    rw [ofDigits_concat, List.length_append, List.length_singleton, Nat.pow_succ]
    omega

/-- The number that a numeral writes, without its sign. -/
def magnitude (x : Numeral) : ℚ :=
  ofDigits (x.whole ++ x.fraction) * 10 ^ (x.exponent - x.fraction.length)

theorem isFinite_toFloat_iff (h : ∀ c ∈ x.whole ++ x.fraction, c.isDigit = true) :
    x.toFloat.isFinite = true ↔ x.magnitude < limit := by
  have hs : ∀ y, (withSign x.negative y).isFinite = y.isFinite := by
    intro y
    unfold withSign
    split
    · exact isFinite_neg y
    · rfl
  unfold toFloat
  rw [hs, isFinite_nearest_iff (ofDigits_lt h)]
  rfl

theorem isDigit_of_mem_splitFraction (h : c ∈ (splitFraction cs).1) : c.isDigit = true := by
  unfold splitFraction at h
  split at h
  · exact List.mem_takeWhile_imp h
  · cases h

/-- A numeral that is read has nothing but digits before and behind the point. -/
theorem isDigit_of_read? (h : read? cs = some x) :
    ∀ c ∈ x.whole ++ x.fraction, c.isDigit = true := by
  unfold read? at h
  dsimp only at h
  split at h
  case isTrue => cases h
  case isFalse =>
    obtain ⟨exponent, -, rfl⟩ := Option.map_eq_some_iff.mp h
    intro c hc
    rcases List.mem_append.mp hc with hc | hc
    · exact List.mem_takeWhile_imp hc
    · exact isDigit_of_mem_splitFraction hc

end Numeral

namespace Decimal

/-- A numeral is a number exactly below the limit. -/
theorem isNumber_iff_of_read? (h : Numeral.read? (Text.trim text.toList) = some x) :
    isNumber text = true ↔ x.magnitude < limit := by
  rw [← Numeral.isFinite_toFloat_iff (Numeral.isDigit_of_read? h)]
  unfold isNumber readNumber? readFloat?
  rw [h, Option.map_some, Option.some_or]
  cases hf : x.toFloat.isFinite <;> simp [Option.filter, hf]

end Decimal

end ModularScale
