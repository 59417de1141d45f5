import ModularScale.Proofs.Decimal.Quotient

/-! # Decimal places

A float to which a number of few decimal places is rounded is written with no more places, since
that number is one of the decimals that read back as the float.
-/

namespace ModularScale

/-- A decimal number in plain text: an optional minus sign, digits, and up to `places` digits behind
a point. -/
def IsPlainDecimal (places : Nat) (cs : List Char) : Prop :=
  ∃ sign whole fraction, cs = sign ++ whole ++ fraction ∧ (sign = [] ∨ sign = ['-']) ∧
    whole ≠ [] ∧ (∀ c ∈ whole, c.isDigit = true) ∧
    (fraction = [] ∨ ∃ digits, fraction = '.' :: digits ∧ (∀ c ∈ digits, c.isDigit = true) ∧
      1 ≤ digits.length ∧ digits.length ≤ places)

namespace Neighbourhood

variable {s : Neighbourhood} {n : Nat} {tie : Tie}

theorem contains_iff : s.contains n = true ↔
    s.low ≤ n * s.unit ∧ n * s.unit ≤ s.high ∧
      (s.closed = false → s.low < n * s.unit ∧ n * s.unit < s.high) := by
  simp only [contains, Bool.and_eq_true, Bool.or_eq_true, decide_eq_true_eq, beq_iff_eq]
  generalize n * s.unit = m
  cases s.closed with
  | false =>
    simp only [Bool.false_eq_true, false_and, or_false, true_imp_iff]
    omega
  | true =>
    simp only [Bool.true_eq_false, true_and, false_imp_iff, and_true]
    omega

/-- If a neighbourhood holds a whole number, it holds one of those next to its value. -/
theorem contains_next (hl : s.low < s.value) (hh : s.value < s.high) (hu : 0 < s.unit)
    (hn : s.contains n = true) :
    s.contains (s.value / s.unit) = true ∨ s.contains (s.value / s.unit + 1) = true := by
  have hdown := Nat.div_mul_le_self s.value s.unit
  have hup : s.value < (s.value / s.unit + 1) * s.unit := by
    rw [Nat.add_mul, Nat.one_mul]
    exact Nat.lt_div_mul_add hu
  rw [contains_iff] at hn
  rw [contains_iff, contains_iff]
  generalize s.value / s.unit = q at *
  obtain ⟨hlow, hhigh, hopen⟩ := hn
  rcases Nat.lt_or_ge q n with h | h
  · right
    have hm : (q + 1) * s.unit ≤ n * s.unit := Nat.mul_le_mul_right _ h
    generalize (q + 1) * s.unit = next at *
    generalize n * s.unit = m at *
    refine ⟨by omega, by omega, fun ho => ?_⟩
    have := hopen ho
    omega
  · left
    have hm : n * s.unit ≤ q * s.unit := Nat.mul_le_mul_right _ h
    generalize q * s.unit = last at *
    generalize n * s.unit = m at *
    refine ⟨by omega, by omega, fun ho => ?_⟩
    have := hopen ho
    omega

theorem isSome_nearestWhole? (h : s.contains (s.value / s.unit) = true ∨
    s.contains (s.value / s.unit + 1) = true) : (s.nearestWhole? tie).isSome = true := by
  unfold nearestWhole?
  cases h₁ : s.contains (s.value / s.unit) with
  | false =>
    rw [h₁] at h
    simp only [h₁, h.resolve_left Bool.false_ne_true, Option.isSome_some]
  | true =>
    cases h₂ : s.contains (s.value / s.unit + 1) with
    | false => simp only [h₁, h₂, Option.isSome_some]
    | true =>
      simp only [h₁, h₂]
      split
      · rfl
      · split
        · rfl
        · cases tie <;> rfl

/-- The search for the coarsest grid ends at the latest with the first one that has a point. -/
theorem le_exponent_coarsest {k : Int} (hk : ((s.rescale k).nearestWhole? tie).isSome = true)
    (tries : Nat) {start : Int} (h : k ≤ start) : k ≤ (s.coarsest tie tries start).exponent := by
  induction tries generalizing start with
  | zero => exact h
  | succ tries ih =>
    unfold coarsest
    cases hn : (s.rescale start).nearestWhole? tie with
    | some n => exact h
    | none =>
      refine ih ?_
      have hne : k ≠ start := by
        rintro rfl
        simp [hn] at hk
      omega

/-- Numbers around a float and a decimal with `k` places are compared in a common unit. -/
theorem scaled_le_iff (c z k : Nat) (e : Int) :
    (c * Nat.pow 2 (e - 2).toNat * Nat.pow 10 k ≤ z * Nat.pow 2 (2 - e).toNat ↔
      (c / 4 : ℚ) ≤ z / 10 ^ k / 2 ^ e) ∧
    (z * Nat.pow 2 (2 - e).toNat ≤ c * Nat.pow 2 (e - 2).toNat * Nat.pow 10 k ↔
      (z / 10 ^ k / 2 ^ e : ℚ) ≤ c / 4) := by
  have hpow : (2 : ℚ) ^ (e - 2).toNat * 4 = 2 ^ (2 - e).toNat * 2 ^ e := by
    rw [← zpow_natCast, ← zpow_natCast, ← zpow_add₀ two_ne_zero,
      show (4 : ℚ) = 2 ^ (2 : Int) by norm_num, ← zpow_add₀ two_ne_zero]
    congr 1
    omega
  have hw : (0 : ℚ) < 10 ^ k * (2 ^ (2 - e).toNat * 2 ^ e) := by positivity
  have hc : ((c * Nat.pow 2 (e - 2).toNat * Nat.pow 10 k : Nat) : ℚ) =
      c / 4 * (10 ^ k * (2 ^ (2 - e).toNat * 2 ^ e)) := by
    simp only [Nat.pow_eq, Nat.cast_mul, Nat.cast_pow, Nat.cast_ofNat]
    rw [← hpow]
    ring
  have hz : ((z * Nat.pow 2 (2 - e).toNat : Nat) : ℚ) =
      z / 10 ^ k / 2 ^ e * (10 ^ k * (2 ^ (2 - e).toNat * 2 ^ e)) := by
    simp only [Nat.pow_eq, Nat.cast_mul, Nat.cast_pow, Nat.cast_ofNat]
    field_simp
  constructor
  · rw [← Nat.cast_le (α := ℚ), hc, hz, mul_le_mul_iff_left₀ hw]
  · rw [← Nat.cast_le (α := ℚ), hc, hz, mul_le_mul_iff_left₀ hw]

/-- A decimal that is rounded to a float is among the numbers that read back as it. -/
theorem contains_rescale {m z k : Nat} {e : Int} (negative : Bool) (hm : BinaryFraction.IsNormal m e)
    (h : BinaryFraction.Rounds m e (z / 10 ^ k)) :
    ((ofBinary ⟨negative, m, e⟩).rescale (-k)).contains z = true := by
  obtain ⟨hle, hge, hodd⟩ := h
  have hpos : 2 ^ 52 ≤ m := hm.le_significand
  have hcast : ∀ d ≤ 2, ((4 * m - d : Nat) : ℚ) / 4 = m - d / 4 := by
    intro d hd
    rw [Nat.cast_sub (by omega)]
    push_cast
    ring
  have hcast' : ((4 * m + 2 : Nat) : ℚ) / 4 = m + 1 / 2 := by
    push_cast
    ring
  rw [contains_iff]
  simp only [ofBinary, rescale, neg_neg, Int.toNat_natCast, Int.toNat_neg_natCast,
    show Nat.pow 10 0 = 1 from rfl, mul_one, ← Nat.not_le]
  rw [(scaled_le_iff _ z k e).1, (scaled_le_iff _ z k e).2, (scaled_le_iff _ z k e).1,
    (scaled_le_iff _ z k e).2, hcast', hcast _ (by split <;> decide), not_le, not_le]
  refine ⟨le_trans ?_ hge, hle, fun ho => ?_⟩
  · rcases eq_or_ne m BinaryFraction.hiddenBit with he | he
    · rw [if_pos he]
      split
      · rw [Nat.cast_one]
      · rw [Nat.cast_two]
        linarith
    · rw [if_neg he, if_neg (by simp [he])]
      norm_num
  · have hm2 : m % 2 = 1 := by
      rw [beq_eq_false_iff_ne] at ho
      omega
    have he : m ≠ BinaryFraction.hiddenBit := by
      rintro rfl
      exact absurd hm2 (by decide)
    rw [if_neg (by simp [he])]
    obtain ⟨h₁, h₂⟩ := hodd hm2
    refine ⟨?_, h₁⟩
    norm_num at h₂ ⊢
    exact h₂

/-- The decimals that read back as a float lie on both sides of it. -/
theorem isSome_nearestWhole?_rescale {b : BinaryFraction} {k : Int} (hm : 0 < b.significand)
    (h : ((ofBinary b).rescale k).contains n = true) :
    (((ofBinary b).rescale k).nearestWhole? tie).isSome = true := by
  have h2 : ∀ i, 0 < Nat.pow 2 i := fun i => Nat.pow_pos (by decide)
  have h10 : ∀ i, 0 < Nat.pow 10 i := fun i => Nat.pow_pos (by decide)
  refine isSome_nearestWhole? (contains_next ?_ ?_ ?_ h)
  · refine Nat.mul_lt_mul_of_pos_right (Nat.mul_lt_mul_of_pos_right ?_ (h2 _)) (h10 _)
    split <;> omega
  · refine Nat.mul_lt_mul_of_pos_right (Nat.mul_lt_mul_of_pos_right ?_ (h2 _)) (h10 _)
    omega
  · exact Nat.mul_pos (h2 _) (h10 _)

end Neighbourhood

namespace Decimal

/-- The search for the shortest decimal starts at the places that are asked for, or above. -/
theorem le_exponent_shortest {m z k : Nat} {e : Int} {tie : Tie} (negative : Bool)
    (hm : BinaryFraction.IsNormal m e) (hz : 0 < z) (hk : k ≤ 6)
    (h : BinaryFraction.Rounds m e (z / 10 ^ k)) :
    -(k : Int) ≤ (shortest tie ⟨negative, m, e⟩).exponent := by
  have hpos : 2 ^ 52 ≤ m := hm.le_significand
  have hmem := Neighbourhood.contains_rescale negative hm h
  refine Neighbourhood.le_exponent_coarsest
    (Neighbourhood.isSome_nearestWhole?_rescale (show 0 < m by omega) hmem) 20 ?_
  have hbits : (2 : ℚ) ^ (-(4 * k) : Int) < 2 ^ (53 + e) := by
    have hlt : m + 1 ≤ 2 ^ 53 := hm.significand_lt
    have hlt : (m : ℚ) + 1 ≤ 2 ^ 53 := by exact_mod_cast hlt
    have hone : (1 : ℚ) ≤ z := by exact_mod_cast hz
    have he : (0 : ℚ) < 2 ^ e := by positivity
    calc (2 : ℚ) ^ (-(4 * k) : Int) = 1 / 16 ^ k := by
          rw [zpow_neg, zpow_mul, one_div]
          norm_num
      _ ≤ 1 / 10 ^ k := by gcongr; norm_num
      _ ≤ z / 10 ^ k := by gcongr
      _ ≤ (m + 1 / 2) * 2 ^ e := (div_le_iff₀ he).mp h.le
      _ < 2 ^ 53 * 2 ^ e := by gcongr; linarith
      _ = 2 ^ (53 + e) := by rw [zpow_add₀ two_ne_zero]; norm_num
  have hb := (zpow_lt_zpow_iff_right₀ one_lt_two).mp hbits
  simp only [hm.log2]
  omega

theorem isDigit_zeros (n : Nat) : ∀ c ∈ zeros n, c.isDigit = true := by
  intro c hc
  rw [List.eq_of_mem_replicate hc]
  rfl

/-- Digits with a point before the last few of them are a plain decimal. -/
theorem isPlainDecimal_positional {sign digits : List Char} {exponent : Int} {k : Nat}
    (hs : sign = [] ∨ sign = ['-']) (hd : digits ≠ []) (hall : ∀ c ∈ digits, c.isDigit = true)
    (he : -(k : Int) ≤ exponent) :
    IsPlainDecimal k (sign ++ positional [] digits exponent) := by
  unfold positional
  split
  · refine ⟨sign, digits ++ zeros exponent.toNat, [], by simp, hs, by simp [hd], ?_, .inl rfl⟩
    intro c hc
    rcases List.mem_append.mp hc with hc | hc
    · exact hall c hc
    · exact isDigit_zeros _ c hc
  · dsimp only
    split
    case isTrue hlen =>
      refine ⟨sign, _, _, (List.append_assoc _ _ _).symm, hs, ?_, fun c hc => ?_,
        .inr ⟨_, rfl, fun c hc => ?_, ?_⟩⟩
      · rw [ne_eq, List.take_eq_nil_iff]
        simp only [hd, or_false]
        omega
      · exact hall c (List.mem_of_mem_take hc)
      · exact hall c (List.mem_of_mem_drop hc)
      · rw [List.length_drop]
        omega
    case isFalse hlen =>
      refine ⟨sign, ['0'], '.' :: (zeros ((-exponent).toNat - digits.length) ++ digits), by simp, hs,
        by simp, List.forall_mem_singleton.mpr rfl, .inr ⟨_, rfl, fun c hc => ?_, ?_⟩⟩
      · rcases List.mem_append.mp hc with hc | hc
        · exact isDigit_zeros _ c hc
        · exact hall c hc
      · rw [List.length_append, zeros, List.length_replicate]
        omega

/-- A float to which a number of few decimal places is rounded is written with no more places. -/
theorem isPlainDecimal_write {x : Float} {negative : Bool} {m z k : Nat} {e : Int}
    (hx : BinaryFraction.ofFloat? x = some ⟨negative, m, e⟩) (hm : BinaryFraction.IsNormal m e)
    (hz : 0 < z) (hk : k ≤ 6) (h : BinaryFraction.Rounds m e (z / 10 ^ k)) :
    IsPlainDecimal k (write plain x).toList := by
  have hpos : 2 ^ 52 ≤ m := hm.le_significand
  have hm0 : m ≠ 0 := by omega
  unfold write writeMagnitude
  simp only [hx, hm0, if_false, plain, if_true, String.toList_ofList]
  refine isPlainDecimal_positional ?_ Nat.toDigits_ne_nil
    (fun c hc => Nat.isDigit_of_mem_toDigits (by decide) (by decide) hc)
    (le_exponent_shortest negative hm hz hk h)
  cases negative
  · exact .inl rfl
  · exact .inr rfl

end Decimal

end ModularScale
