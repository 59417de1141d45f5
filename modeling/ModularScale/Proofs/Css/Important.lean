import ModularScale.Css.Sheet
import ModularScale.Proofs.Css.Names

/-! # Values marked as important

A mark of importance that is cut off from a value is found again where it is put behind it.
-/

namespace ModularScale.Css

open Text

variable {mark c : Char} {a b u v w value : List Char}

theorem splitLast?_eq_none (h : mark ∉ b) : splitLast? mark b = none := by
  induction b with
  | nil => rfl
  | cons c b ih =>
    obtain ⟨hc, h⟩ := List.ne_and_not_mem_of_not_mem_cons h
    rw [splitLast?, ih h]
    exact if_neg hc.symm

theorem splitLast?_append (a : List Char) (h : mark ∉ b) :
    splitLast? mark (a ++ mark :: b) = some (a, b) := by
  induction a with
  | nil =>
    rw [List.nil_append, splitLast?, splitLast?_eq_none h]
    exact if_pos rfl
  | cons c a ih => rw [List.cons_append, splitLast?, ih]

theorem eq_of_splitLast? (h : splitLast? mark value = some (a, b)) : value = a ++ mark :: b := by
  induction value generalizing a with
  | nil => cases h
  | cons c value ih =>
    rw [splitLast?] at h
    split at h
    case h_1 before after hs =>
      cases h
      rw [ih hs]
      rfl
    case h_2 =>
      split at h
      case isTrue hc =>
        cases h
        rw [hc]
        rfl
      case isFalse => cases h

/-- The white space around a value does not matter. -/
theorem splitImportant_congr (h : trim v = trim w) : splitImportant v = splitImportant w := by
  unfold splitImportant
  rw [h]

/-- A value with a mark of importance ends with that mark, and one without is only trimmed. -/
theorem splitImportant_cases (value : List Char) :
    (splitImportant value).2 = false ∧ (splitImportant value).1 = trim value ∨
    ∃ a b, trim value = a ++ '!' :: b ∧ asciiLower (trimStart b) = "important".toList ∧
      splitImportant value = (trimEnd a, true) := by
  unfold splitImportant
  dsimp only
  split
  case h_1 a b hs =>
    split
    case isTrue hi => exact .inr ⟨a, b, eq_of_splitLast? hs, beq_iff_eq.mp hi, rfl⟩
    case isFalse => exact .inl ⟨rfl, rfl⟩
  case h_2 => exact .inl ⟨rfl, rfl⟩

theorem isBlank_of_mem_concat (hv : ∀ c ∈ v, isBlank c = true) :
    ∀ c ∈ v ++ [' '], isBlank c = true := by
  intro c hc
  rcases List.mem_append.mp hc with hc | hc
  · exact hv c hc
  · rw [List.mem_singleton.mp hc]
    rfl

/-- The mark behind a value is cut off again. -/
theorem splitImportant_append (hu : Trimmed u) (hv : ∀ c ∈ v, isBlank c = true) :
    splitImportant (v ++ (u ++ ' ' :: '!' :: "important".toList)) = (u, true) := by
  have hm : '!' ∉ "important".toList := by decide
  obtain ⟨w, hw, htrim⟩ : ∃ w, (∀ c ∈ w, isBlank c = true) ∧
      trim (v ++ (u ++ ' ' :: '!' :: "important".toList)) =
        (u ++ w) ++ '!' :: "important".toList := by
    cases u with
    | nil =>
      have ht : Trimmed ('!' :: "important".toList) := ⟨by rintro c ⟨⟩; rfl, by rintro c ⟨⟩; rfl⟩
      have htrim := ht.trim_append (w := []) (isBlank_of_mem_concat hv) (List.forall_mem_nil _)
      rw [List.append_nil, List.append_assoc] at htrim
      exact ⟨[], List.forall_mem_nil _, htrim⟩
    | cons c u =>
      have ht : Trimmed (c :: u ++ ' ' :: '!' :: "important".toList) := by
        refine ⟨hu.head, fun d hd => ?_⟩
        rw [List.getLast?_append_of_ne_nil _ (List.cons_ne_nil _ _)] at hd
        cases hd
        rfl
      have htrim := ht.trim_append (w := []) hv (List.forall_mem_nil _)
      rw [List.append_nil] at htrim
      refine ⟨[' '], isBlank_of_mem_concat (v := []) (List.forall_mem_nil _), ?_⟩
      rw [htrim, List.append_assoc]
      rfl
  unfold splitImportant
  rw [htrim]
  dsimp only
  rw [splitLast?_append _ hm]
  show (trimEnd (u ++ w), true) = (u, true)
  rw [trimEnd_append hw, trimEnd_of_last hu.last]

theorem isAlpha_of_asciiLower (h : asciiLower b = "important".toList) (hc : c ∈ b) :
    c.isAlpha = true := by
  have hm : c.toLower ∈ "important".toList := by
    rw [← h]
    exact List.mem_map_of_mem hc
  have hl : ∀ d ∈ "important".toList, d.isLower = true :=
    List.all_eq_true.mp rfl
  rcases toLower_cases c with he | ⟨ha, -⟩
  · rw [he] at hm
    exact isAlpha_of_isLower (hl c hm)
  · exact ha

theorem isAlpha_of_mem_important (h : asciiLower (trimStart b) = "important".toList) (hc : c ∈ b) :
    isBlank c = true ∨ c.isAlpha = true := by
  rw [← takeWhile_append_trimStart b] at hc
  rcases List.mem_append.mp hc with hc | hc
  · exact .inl (List.mem_takeWhile_imp hc)
  · exact .inr (isAlpha_of_asciiLower h hc)

theorem isCustom_asciiLower (name : List Char) : isCustom (asciiLower name) = isCustom name := by
  have hl : ∀ c : Char, c.toLower = '-' ↔ c = '-' := by
    intro c
    constructor
    · exact fun h => eq_of_toLower_eq h rfl
    · rintro rfl
      rfl
  rcases name with _ | ⟨c, _ | ⟨d, name⟩⟩
  · rfl
  · simp [isCustom, asciiLower]
  · simp [isCustom, asciiLower, hl]

theorem propertyName_propertyName (name : List Char) :
    propertyName (propertyName name) = propertyName name := by
  unfold propertyName
  split
  case isTrue => rfl
  case isFalse h => rw [isCustom_asciiLower, if_neg h, asciiLower_asciiLower]

end ModularScale.Css
