import ModularScale.Text.Casing

/-! # Trimmed texts

A text that is trimmed loses white space at its ends and nothing else.
-/

namespace ModularScale.Text

variable {c : Char} {cs v w : List Char}

theorem mem_trimStart (h : c ∈ cs) (hc : isBlank c = false) : c ∈ trimStart cs := by
  rw [← takeWhile_append_trimStart cs, List.mem_append] at h
  rcases h with h | h
  · simp [List.all_eq_true.mp List.all_takeWhile c h] at hc
  · exact h

theorem mem_trimEnd (h : c ∈ cs) (hc : isBlank c = false) : c ∈ trimEnd cs :=
  List.mem_reverse.mpr (mem_trimStart (List.mem_reverse.mpr h) hc)

theorem mem_trim (h : c ∈ cs) (hc : isBlank c = false) : c ∈ trim cs :=
  mem_trimEnd (mem_trimStart h hc) hc

/-- Only letters change in lower case, and only to letters. -/
theorem eq_of_toLower_eq {mark : Char} (h : c.toLower = mark) (hm : mark.isLower = false) :
    c = mark := by
  delta Char.toLower at h
  split at h
  case isTrue hc =>
    subst h
    delta Char.isLower at hm
    simp [UInt32.le_iff_toNat_le] at hm hc
    omega
  case isFalse => exact h

theorem mem_of_mem_asciiLower {mark : Char} (h : mark ∈ asciiLower cs)
    (hm : mark.isLower = false) : mark ∈ cs := by
  obtain ⟨c, hc, he⟩ := List.mem_map.mp h
  exact eq_of_toLower_eq he hm ▸ hc

/-- A text with no white space at its ends. -/
structure Trimmed (cs : List Char) : Prop where
  head : ∀ c, cs.head? = some c → isBlank c = false
  last : ∀ c, cs.getLast? = some c → isBlank c = false

theorem Trimmed.of_forall (h : ∀ c ∈ cs, isBlank c = false) : Trimmed cs :=
  ⟨fun c hc => h c (List.mem_of_head? hc), fun c hc => h c (List.mem_of_getLast? hc)⟩

theorem trimStart_append (h : ∀ c ∈ w, isBlank c = true) (cs : List Char) :
    trimStart (w ++ cs) = trimStart cs :=
  List.dropWhile_append_of_pos h

theorem trimEnd_append (h : ∀ c ∈ w, isBlank c = true) (cs : List Char) :
    trimEnd (cs ++ w) = trimEnd cs := by
  rw [trimEnd, List.reverse_append, List.dropWhile_append_of_pos, trimEnd]
  intro c hc
  exact h c (List.mem_reverse.mp hc)

theorem trimStart_of_head (h : ∀ c, cs.head? = some c → isBlank c = false) :
    trimStart cs = cs := by
  cases cs with
  | nil => rfl
  | cons c cs =>
    rw [trimStart, List.dropWhile_cons, h c rfl]
    rfl

theorem trimEnd_of_last (h : ∀ c, cs.getLast? = some c → isBlank c = false) : trimEnd cs = cs := by
  have hr : trimStart cs.reverse = cs.reverse :=
    trimStart_of_head fun c hc => h c (by rwa [List.head?_reverse] at hc)
  rw [trimEnd, ← trimStart, hr, List.reverse_reverse]

/-- What is cut off at the end is white space. -/
theorem exists_trimEnd_append (cs : List Char) :
    ∃ w, (∀ c ∈ w, isBlank c = true) ∧ trimEnd cs ++ w = cs := by
  refine ⟨(cs.reverse.takeWhile isBlank).reverse, fun c hc => ?_, ?_⟩
  · exact List.all_eq_true.mp List.all_takeWhile c (List.mem_reverse.mp hc)
  · rw [trimEnd, ← List.reverse_append, List.takeWhile_append_dropWhile, List.reverse_reverse]

theorem trimStart_trim (cs : List Char) : trimStart (trim cs) = trim cs := by
  have hp : trim cs <+: trimStart cs := by
    rw [← List.reverse_suffix, trim, trimEnd, List.reverse_reverse]
    exact List.dropWhile_suffix _
  refine trimStart_of_head fun c hc => ?_
  obtain ⟨w, hw⟩ := hp
  have hne : trim cs ≠ [] := by
    rintro he
    rw [he] at hc
    cases hc
  have hs : (trimStart cs).head? = some c := by rw [← hw, List.head?_append, hc]; rfl
  have hb : isBlank c ≠ true := by
    have hd := List.head?_dropWhile_not isBlank cs
    rw [show cs.dropWhile isBlank = trimStart cs from rfl, hs] at hd
    simpa using hd
  exact (Bool.not_eq_true _).mp hb

theorem trimmed_trim (cs : List Char) : Trimmed (trim cs) := by
  constructor
  · intro c hc
    have hd := List.head?_dropWhile_not isBlank (trim cs)
    rw [show (trim cs).dropWhile isBlank = trim cs from trimStart_trim cs, hc] at hd
    simpa using hd
  · intro c hc
    have hd := List.head?_dropWhile_not isBlank (trimStart cs).reverse
    rw [trim, trimEnd, List.getLast?_reverse] at hc
    rw [hc] at hd
    simpa using hd

/-- Trimming gives back a text that has white space around it. -/
theorem Trimmed.trim_append (h : Trimmed cs) (hv : ∀ c ∈ v, isBlank c = true)
    (hw : ∀ c ∈ w, isBlank c = true) : trim (v ++ cs ++ w) = cs := by
  rw [trim, List.append_assoc, trimStart_append hv]
  cases cs with
  | nil =>
    rw [List.nil_append, ← List.append_nil w, trimStart_append hw]
    rfl
  | cons c cs =>
    have hs : trimStart (c :: cs ++ w) = c :: cs ++ w := trimStart_of_head h.head
    rw [hs, trimEnd_append hw, trimEnd_of_last h.last]

theorem Trimmed.trim_eq (h : Trimmed cs) : trim cs = cs := by
  have hn : ∀ c ∈ ([] : List Char), isBlank c = true := by simp
  simpa using h.trim_append hn hn

end ModularScale.Text
