import ModularScale.Proofs.Decimal.Rounded
import ModularScale.Proofs.Scale.Table
import ModularScale.Scale.Conversion

/-! # Lengths of scale steps

A step becomes a length in plain decimals if its size stays finite when it is scaled for rounding.
Only sizes that are not finite themselves are out of range, so some become infinite lengths.
-/

namespace ModularScale

open Decimal

/-- A number of few decimal places in plain digits, in `rem`. -/
def IsRemLength (s : String) : Prop :=
  ∃ number, IsPlainDecimal 4 number ∧ s.toList = number ++ "rem".toList

theorem isFactor_places : IsFactor 4 5497558138880000 (-39) where
  hasParts := .of_ofFloat? ⟨by decide, by decide, by decide, by decide⟩ (by decide +kernel)
  value_eq := by norm_num
  le_exponent := by decide
  exponent_le := by decide

theorem IsPlainDecimal.mem {places : Nat} {cs : List Char} (h : IsPlainDecimal places cs) {c : Char}
    (hc : c ∈ cs) : c = '-' ∨ c = '.' ∨ c.isDigit = true := by
  obtain ⟨sign, whole, fraction, rfl, hs, -, hw, hf⟩ := h
  rcases List.mem_append.mp hc with hc | hc
  · rcases List.mem_append.mp hc with hc | hc
    · rcases hs with rfl | rfl
      · cases hc
      · exact .inl (List.mem_singleton.mp hc)
    · exact .inr (.inr (hw c hc))
  · rcases hf with rfl | ⟨digits, rfl, hd, -⟩
    · cases hc
    · rcases List.mem_cons.mp hc with rfl | hc
      · exact .inr (.inl rfl)
      · exact .inr (.inr (hd c hc))

/-- Infinities are no numbers of a style sheet. -/
theorem not_isRemLength {s : String} (h : s = "infrem" ∨ s = "-infrem") : ¬IsRemLength s := by
  rintro ⟨number, hn, hs⟩
  have hi : 'i' ∈ number := by
    rcases h with rfl | rfl
    · have he : "inf".toList = number := List.append_cancel_right hs
      rw [← he]
      decide
    · have he : "-inf".toList = number := List.append_cancel_right hs
      rw [← he]
      decide
  exact absurd (hn.mem hi) (by decide)

namespace Breakpoints

/-- The size of a step, if the exponent is a number and the breakpoint is a known one. -/
def size? (table : Breakpoints) (exponent : String) (name : Option String) : Option Float :=
  match readNumber? exponent, table.target name with
  | some n, .ok b => some (table.scale.size b.root n)
  | _, _ => none

variable {table : Breakpoints} {exponent : String} {name : Option String} {size : Float}

theorem rem_of_size? (h : table.size? exponent name = some size) : table.rem exponent name =
    if size.isFinite then .ok (writeRounded Scale.places size ++ "rem")
    else .error (.outOfRange (String.ofList (Text.trim exponent.toList))) := by
  unfold size? at h
  unfold rem
  cases hn : readNumber? exponent with
  | none => simp [hn] at h
  | some n =>
    cases ht : table.target name with
    | error e => simp [hn, ht] at h
    | ok b =>
      simp only [hn, ht, Option.some.injEq] at h
      subst h
      rfl

theorem exists_size?_of_rem_eq_ok {s : String} (h : table.rem exponent name = .ok s) :
    ∃ size, table.size? exponent name = some size := by
  unfold rem at h
  unfold size?
  cases hn : readNumber? exponent with
  | none => simp [hn] at h
  | some n =>
    cases ht : table.target name with
    | error e => simp [hn, ht] at h
    | ok b => exact ⟨_, rfl⟩

/-- A length is a number of a style sheet if and only if its size can be scaled for rounding. -/
theorem isRemLength_iff (hx : size.isFinite = true) :
    IsRemLength (writeRounded Scale.places size ++ "rem") ↔
      (size * powerOfTen Scale.places).isFinite = true := by
  constructor
  · intro hr
    by_contra hc
    rw [Bool.not_eq_true] at hc
    rcases writeRounded_of_not_isFinite isFactor_places hx hc with h | h
    · refine not_isRemLength (.inl ?_) hr
      exact congrArg (· ++ "rem") h
    · refine not_isRemLength (.inr ?_) hr
      exact congrArg (· ++ "rem") h
  · intro h
    exact ⟨_, isPlainDecimal_writeRounded isFactor_places (by decide) h, String.toList_append⟩

/-- Only sizes that are not finite are out of range. A finite one becomes a number of a style
sheet, or an infinity where it is too large to be scaled for rounding. -/
theorem rem_spec (table : Breakpoints) (exponent : String) (name : Option String) :
    (∀ s, table.rem exponent name = .ok s → ∃ size, table.size? exponent name = some size ∧
      size.isFinite = true ∧
      (IsRemLength s ↔ (size * powerOfTen Scale.places).isFinite = true) ∧
      (¬IsRemLength s → s = "infrem" ∨ s = "-infrem")) ∧
    ∀ size, table.size? exponent name = some size →
      (table.rem exponent name = .error (.outOfRange (String.ofList (Text.trim exponent.toList))) ↔
        size.isFinite = false) := by
  constructor
  · intro s h
    obtain ⟨size, hs⟩ := exists_size?_of_rem_eq_ok h
    rw [rem_of_size? hs] at h
    split at h
    case isTrue hx =>
      cases h
      refine ⟨size, hs, hx, isRemLength_iff hx, fun hr => ?_⟩
      rw [isRemLength_iff hx, Bool.not_eq_true] at hr
      rcases writeRounded_of_not_isFinite isFactor_places hx hr with h | h
      · exact .inl (congrArg (· ++ "rem") h)
      · exact .inr (congrArg (· ++ "rem") h)
    case isFalse => cases h
  · intro size hs
    rw [rem_of_size? hs]
    cases size.isFinite <;> simp

/-- A root size that is finite, though its ten thousandfold is not. -/
def immense : Breakpoints where
  items := [⟨"mobile", "0px", 1e305, 0⟩]
  scale := ⟨1.2, 1⟩
  items_ne_nil := List.cons_ne_nil _ _

/-- An accepted table may have steps of infinite length. -/
theorem exists_infinite_length :
    ofSettings { documentFontSize := 1, breakpoints := [⟨"mobile", "0px", some 1e305⟩] } =
      .ok immense ∧ immense.rem "0" none = .ok "infrem" ∧ ¬IsRemLength "infrem" :=
  ⟨ofSettings_eq_ok "mobile" (by decide +kernel) (by decide +kernel) (by decide +kernel),
    by decide +kernel, not_isRemLength (.inl rfl)⟩

end Breakpoints

end ModularScale
