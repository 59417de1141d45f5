import ModularScale.Proofs.Decimal.Places
import ModularScale.Proofs.Decimal.Whole

/-! # Digits of shortest decimals

The shortest decimal that reads back as a positive float is positive. If no grid that is tried has
a point in the neighbourhood of the float, the last one is so fine that the float is above its first
point.
-/

namespace ModularScale

namespace Neighbourhood

variable {s : Neighbourhood} {n : Nat} {tie : Tie}

theorem contains_of_nearestWhole? (h : s.nearestWhole? tie = some n) : s.contains n = true := by
  unfold nearestWhole? at h
  cases h₁ : s.contains (s.value / s.unit) with
  | false =>
    cases h₂ : s.contains (s.value / s.unit + 1) with
    | false => simp [h₁, h₂] at h
    | true =>
      simp only [h₁, h₂, Option.some.injEq] at h
      exact h ▸ h₂
  | true =>
    cases h₂ : s.contains (s.value / s.unit + 1) with
    | false =>
      simp only [h₁, h₂, Option.some.injEq] at h
      exact h ▸ h₁
    | true =>
      have heither : n = s.value / s.unit ∨ n = s.value / s.unit + 1 := by
        simp only [h₁, h₂] at h
        split at h
        · exact .inl (Option.some.inj h).symm
        · split at h
          · exact .inr (Option.some.inj h).symm
          · cases tie with
            | up => exact .inr (Option.some.inj h).symm
            | even =>
              have h := Option.some.inj h
              split at h
              · exact .inl h.symm
              · exact .inr h.symm
      rcases heither with rfl | rfl
      · exact h₁
      · exact h₂

/-- A point of a positive neighbourhood is not zero, nor is one below a value that is large enough
on the last grid. -/
theorem coefficient_coarsest_ne_zero (hl : ∀ k, 0 < (s.rescale k).low)
    (hu : ∀ k, 0 < (s.rescale k).unit)
    (tries : Nat) {start : Int}
    (h : (s.rescale (start - tries)).unit ≤ (s.rescale (start - tries)).value) :
    (s.coarsest tie tries start).coefficient ≠ 0 := by
  induction tries generalizing start with
  | zero =>
    rw [Int.natCast_zero, Int.sub_zero] at h
    exact (Nat.div_pos h (hu start)).ne'
  | succ tries ih =>
    unfold coarsest
    cases hn : (s.rescale start).nearestWhole? tie with
    | some n =>
      rintro rfl
      have hc := (contains_iff.mp (contains_of_nearestWhole? hn)).1
      rw [Nat.zero_mul] at hc
      exact absurd (hl start) (Nat.not_lt.mpr hc)
    | none =>
      refine ih ?_
      rwa [show start - 1 - (tries : Int) = start - (tries + 1 : Nat) by omega]

end Neighbourhood

namespace Decimal

open BinaryFraction

/-- Three decimal digits are less than ten binary ones, and ten are more than thirty-three. -/
theorem pow_ten_bounds (k : Nat) :
    10 ^ k ≤ 2 ^ (10 * (k / 3 + 1)) ∧ 2 ^ (33 * (k / 10)) ≤ 10 ^ k := by
  constructor
  · calc 10 ^ k ≤ 10 ^ (3 * (k / 3 + 1)) := Nat.pow_le_pow_right (by decide) (by omega)
      _ = 1000 ^ (k / 3 + 1) := Nat.pow_mul 10 3 _
      _ ≤ 1024 ^ (k / 3 + 1) := Nat.pow_le_pow_left (by decide) _
      _ = 2 ^ (10 * (k / 3 + 1)) := (Nat.pow_mul 2 10 _).symm
  · calc 2 ^ (33 * (k / 10)) = (2 ^ 33) ^ (k / 10) := Nat.pow_mul 2 33 _
      _ ≤ (10 ^ 10) ^ (k / 10) := Nat.pow_le_pow_left (by decide) _
      _ = 10 ^ (10 * (k / 10)) := (Nat.pow_mul 10 10 _).symm
      _ ≤ 10 ^ k := Nat.pow_le_pow_right (by decide) (by omega)

/-- The last grid that is tried is finer than the float is large. -/
theorem unit_le_value {b : BinaryFraction} (hm : b.significand ≠ 0)
    (hu : b.significand ≤ 2 * hiddenBit - 1) (hlo : -1074 ≤ b.exponent) (hhi : b.exponent ≤ 971) :
    let last := (b.significand.log2 + 1 + b.exponent) * 30103 / 100000 + 1 - (20 : Nat)
    ((Neighbourhood.ofBinary b).rescale last).unit ≤
      ((Neighbourhood.ofBinary b).rescale last).value := by
  intro last
  have hl : b.significand.log2 < 53 := (Nat.log2_lt hm).mpr (Nat.lt_of_le_of_lt hu (by decide))
  have hlast : last = (b.significand.log2 + 1 + b.exponent) * 30103 / 100000 + 1 - (20 : Nat) := rfl
  have hbits : 2 ^ b.significand.log2 ≤ b.significand := Nat.log2_self_le hm
  generalize b.significand.log2 = l at hl hlast hbits
  show 2 ^ (2 - b.exponent).toNat * 10 ^ last.toNat ≤
    4 * b.significand * 2 ^ (b.exponent - 2).toNat * 10 ^ (-last).toNat
  -- The powers of ten are compared with powers of two, whose exponents can be added up.
  calc 2 ^ (2 - b.exponent).toNat * 10 ^ last.toNat
      ≤ 2 ^ (l + 2 + (b.exponent - 2).toNat) * 10 ^ (-last).toNat := by
        rcases Int.le_total 0 last with h | h
        · have hten := (pow_ten_bounds last.toNat).1
          rw [show (-last).toNat = 0 by omega, Nat.pow_zero, Nat.mul_one]
          calc _ ≤ 2 ^ (2 - b.exponent).toNat * 2 ^ (10 * (last.toNat / 3 + 1)) :=
                Nat.mul_le_mul_left _ hten
            _ = 2 ^ ((2 - b.exponent).toNat + 10 * (last.toNat / 3 + 1)) := (Nat.pow_add 2 _ _).symm
            _ ≤ _ := Nat.pow_le_pow_right (by decide) (by omega)
        · have hten := (pow_ten_bounds (-last).toNat).2
          rw [show last.toNat = 0 by omega, Nat.pow_zero, Nat.mul_one]
          calc _ ≤ 2 ^ (l + 2 + (b.exponent - 2).toNat + 33 * ((-last).toNat / 10)) :=
                Nat.pow_le_pow_right (by decide) (by omega)
            _ = 2 ^ (l + 2 + (b.exponent - 2).toNat) * 2 ^ (33 * ((-last).toNat / 10)) :=
                Nat.pow_add 2 _ _
            _ ≤ _ := Nat.mul_le_mul_left _ hten
    _ = 4 * 2 ^ l * 2 ^ (b.exponent - 2).toNat * 10 ^ (-last).toNat := by
        rw [Nat.pow_add, Nat.pow_add, Nat.mul_comm (2 ^ l) (2 ^ 2)]
    _ ≤ _ := Nat.mul_le_mul_right _ (Nat.mul_le_mul_right _ (Nat.mul_le_mul_left _ hbits))

/-- A positive float has a shortest decimal that is not zero. -/
theorem coefficient_shortest_ne_zero {x : Float} {b : BinaryFraction} {tie : Tie}
    (h : ofFloat? x = some b) (hm : b.significand ≠ 0) : (shortest tie b).coefficient ≠ 0 := by
  obtain ⟨hu, hlo, hhi⟩ := bounds_of_ofFloat? h
  have h2 : ∀ i, 0 < Nat.pow 2 i := fun i => Nat.pow_pos (by decide)
  have h10 : ∀ i, 0 < Nat.pow 10 i := fun i => Nat.pow_pos (by decide)
  refine Neighbourhood.coefficient_coarsest_ne_zero (fun k => ?_) (fun k => ?_) 20
    (unit_le_value hm hu hlo hhi)
  · refine Nat.mul_pos (Nat.mul_pos ?_ (h2 _)) (h10 _)
    split <;> omega
  · exact Nat.mul_pos (h2 _) (h10 _)

end Decimal

end ModularScale
