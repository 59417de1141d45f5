import ModularScale.Proofs.Decimal.Spelled
import ModularScale.Proofs.Sizing.MeasureEffect
import ModularScale.Proofs.Text.Trim

/-! # Range of scale steps

What is written before the unit of a size in scale steps is a decimal, and so it is read as a number
unless it reaches the limit of the floats. Then it is refused as not being a number, though
it is one that is too large.
-/

namespace ModularScale.Sizing

open Numeral

variable {table : Breakpoints} {d : Document} {id : NodeId} {value exponent : String}
  {cs : List Char} {b : Breakpoint} {name : Option String}

namespace Measure

/-- The number that digits with a point write, whatever sign stands before them. -/
def magnitude (cs : List Char) : ℚ :=
  ofDigits (cs.filter Char.isDigit) / 10 ^ ((cs.dropWhile (· != '.')).filter Char.isDigit).length

/-! ### Decimals -/

/-- The digits before and behind the point. -/
structure IsSpelled (cs whole fraction : List Char) : Prop where
  eq : (cs = whole ∧ fraction = []) ∨ cs = whole ++ '.' :: fraction
  digits : ∀ c ∈ whole ++ fraction, c.isDigit = true
  ne_nil : whole ++ fraction ≠ []

theorem exists_isSpelled (h : isDecimal cs = true) :
    ∃ whole fraction, IsSpelled cs whole fraction := by
  simp only [isDecimal, Bool.and_eq_true, decide_eq_true_eq] at h
  obtain ⟨⟨hall, hany⟩, hcount⟩ := h
  have hw : ∀ c ∈ cs.takeWhile Char.isDigit, c.isDigit = true := fun c hc =>
    List.mem_takeWhile_imp hc
  have hhead := List.head?_dropWhile_not Char.isDigit cs
  have hcs : cs.takeWhile Char.isDigit ++ cs.dropWhile Char.isDigit = cs :=
    List.takeWhile_append_dropWhile
  generalize cs.takeWhile Char.isDigit = whole at hw hcs
  generalize cs.dropWhile Char.isDigit = rest at hhead hcs
  subst hcs
  cases rest with
  | nil =>
    refine ⟨whole, [], .inl ⟨List.append_nil _, rfl⟩, by simpa using hw, ?_⟩
    intro hnil
    rw [hnil] at hany
    cases hany
  | cons c fraction =>
    have hc : c = '.' := by
      have hmem := List.all_eq_true.mp hall c (by simp)
      have hno : c.isDigit = false := by simpa using hhead
      simpa [hno] using hmem
    subst hc
    have hpoint : '.' ∉ fraction := by
      rw [List.count_append, List.count_cons_self] at hcount
      exact List.count_eq_zero.mp (by omega)
    have hf : ∀ c ∈ fraction, c.isDigit = true := by
      intro c hc
      have hmem := List.all_eq_true.mp hall c (by simp [hc])
      have hne : c ≠ '.' := fun h => hpoint (h ▸ hc)
      simpa [hne] using hmem
    refine ⟨whole, fraction, .inr rfl, fun c hc => ?_, fun hnil => ?_⟩
    · exact (List.mem_append.mp hc).elim (hw c) (hf c)
    · obtain ⟨rfl, rfl⟩ := List.append_eq_nil_iff.mp hnil
      revert hany
      decide

variable {whole fraction : List Char}

theorem IsSpelled.filter_eq (h : IsSpelled cs whole fraction) :
    cs.filter Char.isDigit = whole ++ fraction := by
  have hw : (whole ++ fraction).filter Char.isDigit = whole ++ fraction :=
    List.filter_eq_self.mpr h.digits
  rcases h.eq with ⟨rfl, rfl⟩ | rfl
  · simpa using hw
  · rw [← hw, List.filter_append, List.filter_append, List.filter_cons_of_neg (by decide)]

theorem IsSpelled.magnitude_eq (h : IsSpelled cs whole fraction) :
    magnitude cs = ofDigits (whole ++ fraction) / 10 ^ fraction.length := by
  have hpoint : ∀ c ∈ whole, (c != '.') = true := by
    intro c hc
    rw [bne_iff_ne]
    rintro rfl
    exact absurd (h.digits _ (List.mem_append_left _ hc)) (by decide)
  unfold magnitude
  rw [h.filter_eq]
  rcases h.eq with ⟨rfl, rfl⟩ | rfl
  · rw [List.dropWhile_eq_nil_iff.mpr hpoint]
    rfl
  · have hf : fraction.filter Char.isDigit = fraction :=
      List.filter_eq_self.mpr fun c hc => h.digits c (List.mem_append_right _ hc)
    rw [List.dropWhile_append_of_pos hpoint, List.dropWhile_cons_of_neg (by decide),
      List.filter_cons_of_neg (by decide), hf]

theorem IsSpelled.read?_eq (h : IsSpelled (splitSign cs).2 whole fraction) :
    read? cs = some ⟨(splitSign cs).1, whole, fraction, 0⟩ := by
  obtain ⟨hw, hf⟩ := List.forall_mem_append.mp h.digits
  have hm : IsMantissa whole fraction (splitSign cs).2 := by
    rcases h.eq with ⟨hcs, rfl⟩ | hcs <;> rw [hcs]
    · exact .whole ⟨List.append_nil whole ▸ h.ne_nil, hw⟩
    · by_cases hnil : whole = []
      · subst hnil
        exact .fraction ⟨h.ne_nil, hf⟩
      · exact .pointed ⟨hnil, hw⟩ hf
  obtain ⟨sign, hs, hcs⟩ := exists_sign cs
  have hspells := Spells.mk hs hm .none
  rwa [List.append_nil, ← hcs, ← read?_eq_some_iff] at hspells

theorem isDecimal_splitSign (h : isSignedDecimal cs = true) :
    isDecimal (splitSign cs).2 = true := by
  unfold isSignedDecimal at h
  unfold splitSign
  split at h <;> simp_all

theorem magnitude_splitSign (cs : List Char) : magnitude (splitSign cs).2 = magnitude cs := by
  unfold splitSign
  split <;> rfl

/-- A decimal is a numeral of the same magnitude. -/
theorem exists_read? (h : isSignedDecimal cs = true) :
    ∃ x, read? cs = some x ∧ x.magnitude = magnitude cs := by
  obtain ⟨whole, fraction, hs⟩ := exists_isSpelled (isDecimal_splitSign h)
  refine ⟨_, hs.read?_eq, ?_⟩
  rw [← magnitude_splitSign, hs.magnitude_eq, Numeral.magnitude]
  dsimp only
  rw [zero_sub, zpow_neg, zpow_natCast, div_eq_mul_inv]

theorem isBlank_of_isDigit {c : Char} (h : c.isDigit = true) : Text.isBlank c = false := by
  obtain ⟨hlo, hhi⟩ := Char.isDigit_iff_toNat.mp h
  have h0 : '0'.toNat = 48 := rfl
  have h9 : '9'.toNat = 57 := rfl
  simp [Text.isBlank]
  omega

theorem isBlank_of_mem_decimal (h : isSignedDecimal cs = true) :
    ∀ c ∈ cs, Text.isBlank c = false := by
  have hdecimal : ∀ {ds : List Char}, isDecimal ds = true → ∀ c ∈ ds, Text.isBlank c = false := by
    intro ds hds c hc
    simp only [isDecimal, Bool.and_eq_true] at hds
    have hmem := List.all_eq_true.mp hds.1.1 c hc
    rw [Bool.or_eq_true, beq_iff_eq] at hmem
    rcases hmem with hd | rfl
    · exact isBlank_of_isDigit hd
    · rfl
  intro c hc
  unfold isSignedDecimal at h
  split at h
  · rcases List.mem_cons.mp hc with rfl | hc
    · rfl
    · exact hdecimal h c hc
  · rcases List.mem_cons.mp hc with rfl | hc
    · rfl
    · exact hdecimal h c hc
  · exact hdecimal h c hc

theorem trim_decimal (h : isSignedDecimal cs = true) : Text.trim cs = cs :=
  (Text.Trimmed.of_forall (isBlank_of_mem_decimal h)).trim_eq

/-- A decimal right before the unit is the exponent. -/
theorem exponent?_append (h : isSignedDecimal exponent.toList = true) :
    exponent? (exponent ++ "ms") = some exponent := by
  have hunit : ∀ c ∈ ['m', 's'], Text.isBlank c = false := by
    intro c hc
    simp only [List.mem_cons, List.not_mem_nil, or_false] at hc
    rcases hc with rfl | rfl <;> rfl
  have htrim : Text.trim (exponent ++ "ms").toList = exponent.toList ++ ['m', 's'] := by
    rw [String.toList_append]
    exact (Text.Trimmed.of_forall fun c hc =>
      (List.mem_append.mp hc).elim (isBlank_of_mem_decimal h c) (hunit c)).trim_eq
  have hdrop : (exponent.toList ++ ['m', 's']).dropLast.dropLast = exponent.toList := by
    simp [List.dropLast_append_of_ne_nil]
  unfold exponent?
  simp only [htrim, hdrop, List.drop_left, h, Bool.and_true]
  rw [String.ofList_toList]
  rfl

theorem isSignedDecimal_of_exponent? (h : exponent? value = some exponent) :
    isSignedDecimal exponent.toList = true := by
  unfold exponent? at h
  dsimp only at h
  split at h
  case isTrue hc =>
    obtain rfl := Option.some.inj h
    rw [String.toList_ofList]
    exact (Bool.and_eq_true_iff.mp hc).2
  case isFalse => cases h

/-! ### Sizes of all magnitudes -/

/-- Only its magnitude decides whether an exponent is a number. -/
theorem isNumber_iff (h : exponent? value = some exponent) :
    Decimal.isNumber exponent = true ↔ magnitude exponent.toList < Decimal.limit := by
  have hs := isSignedDecimal_of_exponent? h
  obtain ⟨x, hx, hm⟩ := exists_read? hs
  rw [← trim_decimal hs] at hx
  rw [← hm]
  exact Decimal.isNumber_iff_of_read? hx

/-- A length, or an error that tells that there is no such length. -/
def IsSized (exponent : String) (rem : Except ConversionError String) : Prop :=
  (∃ length, rem = .ok length) ∨ rem = .error (.outOfRange exponent)

theorem remAt_cases (table : Breakpoints) (b : Breakpoint) (h : exponent? value = some exponent) :
    (magnitude exponent.toList < Decimal.limit ∧ IsSized exponent (table.remAt exponent b)) ∨
      (Decimal.limit ≤ magnitude exponent.toList ∧
        table.remAt exponent b = .error (.notNumeric exponent)) := by
  have htrim : String.ofList (Text.trim exponent.toList) = exponent := by
    rw [trim_decimal (isSignedDecimal_of_exponent? h), String.ofList_toList]
  rw [← not_lt, ← isNumber_iff h, Decimal.isNumber]
  unfold Breakpoints.remAt
  rw [htrim]
  cases hn : Decimal.readNumber? exponent with
  | none => exact .inr ⟨Bool.false_ne_true, rfl⟩
  | some n =>
    refine .inl ⟨rfl, ?_⟩
    dsimp only
    split
    · exact .inl ⟨_, rfl⟩
    · exact .inr rfl

theorem not_isSized (exponent n : String) : ¬IsSized exponent (.error (.notNumeric n)) := by
  rintro (⟨length, h⟩ | h) <;> cases h

theorem remAt_iff (h : exponent? value = some exponent) :
    (IsSized exponent (table.remAt exponent b) ↔ magnitude exponent.toList < Decimal.limit) ∧
      (table.remAt exponent b = .error (.notNumeric exponent) ↔
        Decimal.limit ≤ magnitude exponent.toList) := by
  rcases remAt_cases table b h with ⟨hlt, hs⟩ | ⟨hle, hr⟩
  · refine ⟨iff_of_true hs hlt, iff_of_false ?_ (not_le.mpr hlt)⟩
    exact fun hr => not_isSized _ _ (hr ▸ hs)
  · exact ⟨iff_of_false (hr ▸ not_isSized _ _) (not_lt.mpr hle), iff_of_true hr hle⟩

/-- A scope that asks for a breakpoint has it found in the table. -/
theorem exists_target {scope : Scope} (h : target table scope = .ok name) :
    ∃ b, table.target name = .ok b := by
  cases scope with
  | root =>
    cases h
    exact ⟨table.base, rfl⟩
  | atRule node keyword params =>
    unfold target at h
    dsimp only at h
    split at h
    · cases h
    · split at h
      case h_1 b hb =>
        cases h
        exact ⟨b, Breakpoints.target_of_findParameter? hb⟩
      case h_2 => cases h

end Measure

open Sizing.Measure

/-- A size is refused for its exponent exactly if that is no number. -/
theorem Measured.notNumeric_iff {r : Result} (h : Measured table exponent b d id r) :
    (∃ x n, r.outcome = .rejected x ∧ x.cause = .conversion (.notNumeric n)) ↔
      ∃ n, table.remAt exponent b = .error (.notNumeric n) := by
  rw [Measured] at h
  cases hr : table.remAt exponent b with
  | ok rem =>
    rw [hr] at h
    obtain ⟨e, log, rfl, -⟩ := h
    refine iff_of_false ?_ ?_
    · rintro ⟨x, n, ho, -⟩
      cases ho
    · rintro ⟨n, hn⟩
      cases hn
  | error cause =>
    rw [hr] at h
    subst h
    constructor
    · rintro ⟨x, n, ho, hc⟩
      cases ho
      cases hc
      exact ⟨n, rfl⟩
    · rintro ⟨n, hc⟩
      cases hc
      exact ⟨_, n, rfl, rfl⟩

/-- A size in scale steps has a length, or one that is out of range, if its exponent is below the
limit of the floats. From there on, and only there, the exponent is said not to be a number. -/
theorem measure_sized_iff (table : Breakpoints) (h : exponent? value = some exponent) :
    (∀ name b, table.target name = .ok b →
      (IsSized exponent (table.rem exponent name) ↔ magnitude exponent.toList < Decimal.limit) ∧
      (table.rem exponent name = .error (.notNumeric exponent) ↔
        Decimal.limit ≤ magnitude exponent.toList)) ∧
    ∀ d id scope name, d.fontSize? id = some value → Scope.resolve d id = .ok scope →
      Measure.target table scope = .ok name →
      ((∃ r n, (measure.run table d id).outcome = .rejected r ∧
          r.cause = .conversion (.notNumeric n)) ↔
        Decimal.limit ≤ magnitude exponent.toList) := by
  constructor
  · intro name b hb
    rw [Breakpoints.rem_of_target hb]
    exact remAt_iff h
  · intro d id scope name hv hs ht
    obtain ⟨b, hb⟩ := exists_target ht
    have hrun : measure.run table d id = Measure.apply table d id exponent := by
      simp only [run, Measure.find, hv, Option.bind_some, h, Match.run]
    rw [hrun, (measured_of_target hv hs ht hb).notNumeric_iff]
    rcases remAt_cases table b h with ⟨hlt, hsized⟩ | ⟨hle, hr⟩
    · refine iff_of_false ?_ (not_le.mpr hlt)
      rintro ⟨n, hn⟩
      exact not_isSized exponent n (hn ▸ hsized)
    · exact iff_of_true ⟨exponent, hr⟩ hle

/-- An exponent with a sign and a point. -/
theorem measure_sized_iff_signed :
    let d := Document.ofSheet (Css.Sheet.ofText ".x\x7bfont-size:-1.5ms\x7d")
    exponent? "-1.5ms" = some "-1.5" ∧ IsSized "-1.5" (Breakpoints.standard.rem "-1.5" none) ∧
      ¬∃ r n, (measure.run .standard d 2).outcome = .rejected r ∧
        r.cause = .conversion (.notNumeric n) := by
  have hn : exponent? "-1.5ms" = some "-1.5" := by decide +kernel
  have hm : magnitude "-1.5".toList < Decimal.limit := by decide +kernel
  obtain ⟨hsized, hrun⟩ := measure_sized_iff .standard hn
  refine ⟨hn, (hsized none _ rfl).1.mpr hm, ?_⟩
  rw [hrun _ 2 .root none (by decide +kernel) (by decide +kernel) rfl]
  exact not_le.mpr hm

/-- A number of more digits than the limit has. -/
def nines : String :=
  String.ofList (List.replicate 309 '9')

/-- A number with too many digits for a float is said not to be a number. -/
theorem exists_unread_number : Breakpoints.ofSettings {} = .ok .standard ∧
    exponent? (nines ++ "ms") = some nines ∧
    Breakpoints.standard.rem nines none = .error (.notNumeric nines) ∧
    (ConversionError.notNumeric nines).message = "`" ++ nines ++ "` is not a number" := by
  have hlist : nines.toList = List.replicate 309 '9' := String.toList_ofList
  have hdecimal : isSignedDecimal nines.toList = true := by
    rw [hlist]
    decide +kernel
  have hn : exponent? (nines ++ "ms") = some nines := exponent?_append hdecimal
  have hrem : Breakpoints.standard.remAt nines Breakpoints.standard.base =
      .error (.notNumeric nines) := by
    rw [(remAt_iff hn).2, hlist]
    decide +kernel
  have hb : Breakpoints.standard.target none = .ok Breakpoints.standard.base := rfl
  exact ⟨Breakpoints.ofSettings_default, hn, (Breakpoints.rem_of_target hb).trans hrem, rfl⟩

end ModularScale.Sizing
