import Mathlib
import ModularScale.Proofs.Text.Words

/-! # Camel case and dashes

Camel case puts the segments between the dashes of a name together, and each but the first gets a
capital. Where these segments begin with letters they become the words of the result, so camel case
and writing with dashes are inverse to each other.
-/

namespace ModularScale.Text

variable {c : Char} {cs s w x y : List Char} {ss ws : List (List Char)}

/-! ## Segments -/

/-- A segment as it stands behind another one in camel case. -/
def capitalize : List Char → List Char
  | [] => []
  | c :: cs => upperCase c ++ cs

/-- The segments of a name in camel case. -/
def joinSegments : List (List Char) → List Char
  | [] => []
  | s :: ss => s ++ ss.flatMap capitalize

theorem joinDashed_splitOn (cs : List Char) :
    joinDashed false cs = joinSegments (cs.splitOn '-') ∧
      joinDashed true cs = (cs.splitOn '-').flatMap capitalize := by
  induction cs with
  | nil => exact ⟨rfl, rfl⟩
  | cons c cs ih =>
    obtain ⟨t, ts, ht⟩ := List.exists_cons_of_ne_nil (List.splitOn_ne_nil '-' cs)
    rw [ht] at ih
    rw [List.splitOn_cons_eq_if_modifyHead, ht]
    by_cases hc : c = '-'
    · subst hc
      exact ⟨ih.2, ih.2⟩
    · simp [joinDashed, hc, ih.1, joinSegments, capitalize]

/-- Camel case, segment by segment. -/
theorem camelCase_eq_joinSegments (cs : List Char) :
    camelCase cs = joinSegments ((trim cs).splitOn '-') :=
  (joinDashed_splitOn (trim cs)).1

theorem mem_of_mem_splitOn (hs : s ∈ cs.splitOn '-') (hc : c ∈ s) : c ∈ cs ∧ c ≠ '-' := by
  induction cs generalizing s with
  | nil => simp_all
  | cons d cs ih =>
    have ih : ∀ t ∈ cs.splitOn '-', c ∈ t → c ∈ d :: cs ∧ c ≠ '-' :=
      fun t ht hc => (ih ht hc).imp_left (List.mem_cons_of_mem d)
    obtain ⟨t, ts, ht⟩ := List.exists_cons_of_ne_nil (List.splitOn_ne_nil '-' cs)
    rw [ht] at ih
    rw [List.splitOn_cons_eq_if_modifyHead, ht] at hs
    split at hs
    case isTrue =>
      rcases List.mem_cons.mp hs with rfl | hs
      · cases hc
      · exact ih s hs hc
    case isFalse hd =>
      rcases List.mem_cons.mp hs with rfl | hs
      · rcases List.mem_cons.mp hc with rfl | hc
        · exact ⟨List.mem_cons_self, fun he => hd (beq_iff_eq.mpr he)⟩
        · exact ih t List.mem_cons_self hc
      · exact ih s (List.mem_cons_of_mem t hs) hc

/-! ## Capitals -/

/-- A word behind another one: a capital with no more capitals behind it. -/
inductive Capitalized : List Char → Prop
  | intro {c : Char} {cs : List Char} (hc : c.isUpper = true) (hcs : ∀ d ∈ cs, d.isUpper = false) :
    Capitalized (c :: cs)

/-- A segment behind another one, which becomes such a word. -/
inductive Lowercase : List Char → Prop
  | intro {c : Char} {cs : List Char} (hc : c.isLower = true) (hcs : ∀ d ∈ cs, d.isUpper = false) :
    Lowercase (c :: cs)

theorem upperCase_of_isLower (h : c.isLower = true) : upperCase c = [c.toUpper] :=
  of_isAscii (p := fun c => c.isLower = true → upperCase c = [c.toUpper]) (by decide +kernel)
    (isAscii_of_isAlpha (isAlpha_of_isLower h)) h

theorem toUpper_toLower (h : c.isUpper = true) : c.toLower.toUpper = c := by
  have hl : ¬c.isLower = true := Char.not_isLower_of_isUpper h
  rw [Char.toUpper_toLower_eq_toUpper, Char.toUpper_eq_of_not_isLower hl]

theorem toLower_toUpper (h : c.isLower = true) : c.toUpper.toLower = c := by
  have hu : ¬c.isUpper = true := Char.not_isUpper_of_isLower h
  rw [Char.toLower_toUpper_eq_toLower, Char.toLower_eq_of_not_isUpper hu]

theorem isLower_toLower (h : c.isUpper = true) : c.toLower.isLower = true := by
  rw [Char.isLower_toLower_eq_isAlpha, Char.isAlpha, h, Bool.true_or]

theorem isUpper_toUpper (h : c.isLower = true) : c.toUpper.isUpper = true := by
  rw [Char.isUpper_toUpper_eq_isAlpha, isAlpha_of_isLower h]

theorem capitalize_of_isLower (h : c.isLower = true) (cs : List Char) :
    capitalize (c :: cs) = c.toUpper :: cs := by
  rw [capitalize, upperCase_of_isLower h, List.singleton_append]

theorem Capitalized.lowercase (h : Capitalized w) : Lowercase (asciiLower w) := by
  obtain ⟨hc, hcs⟩ := h
  rw [asciiLower_cons, asciiLower_eq_self hcs]
  exact ⟨isLower_toLower hc, hcs⟩

theorem Capitalized.capitalize_asciiLower (h : Capitalized w) : capitalize (asciiLower w) = w := by
  obtain ⟨hc, hcs⟩ := h
  rw [asciiLower_cons, asciiLower_eq_self hcs, capitalize_of_isLower (isLower_toLower hc),
    toUpper_toLower hc]

theorem Lowercase.capitalized (h : Lowercase s) : Capitalized (capitalize s) := by
  obtain ⟨hc, hcs⟩ := h
  rw [capitalize_of_isLower hc]
  exact ⟨isUpper_toUpper hc, hcs⟩

theorem Lowercase.asciiLower_capitalize (h : Lowercase s) : asciiLower (capitalize s) = s := by
  obtain ⟨hc, hcs⟩ := h
  rw [capitalize_of_isLower hc, asciiLower_cons, asciiLower_eq_self hcs, toLower_toUpper hc]

theorem map_capitalize_asciiLower (h : ∀ w ∈ ws, Capitalized w) :
    (ws.map asciiLower).map capitalize = ws := by
  rw [List.map_map]
  exact (List.map_congr_left fun w hw => (h w hw).capitalize_asciiLower).trans (List.map_id ws)

theorem map_asciiLower_capitalize (h : ∀ s ∈ ss, Lowercase s) :
    (ss.map capitalize).map asciiLower = ss := by
  rw [List.map_map]
  exact (List.map_congr_left fun s hs => (h s hs).asciiLower_capitalize).trans (List.map_id ss)

theorem Lowercase.head (h : Lowercase s) : ∃ c, s.head? = some c ∧ c.isLower = true := by
  obtain ⟨hc, -⟩ := h
  exact ⟨_, rfl, hc⟩

theorem Lowercase.dash_notMem_capitalize (h : Lowercase s) (hs : '-' ∉ s) :
    '-' ∉ capitalize s := by
  intro hm
  have hl : '-' ∈ asciiLower (capitalize s) := List.mem_map.mpr ⟨'-', hm, rfl⟩
  rw [h.asciiLower_capitalize] at hl
  exact hs hl

/-! ## Words -/

theorem Capitalized.isChain (h : Capitalized w) : w.IsChain (continues · ·) := by
  obtain ⟨-, hcs⟩ := h
  exact isChain_of_tail hcs

/-- A capital begins a new word unless a dash is in front of it. -/
theorem Capitalized.parts (h : Capitalized w) (hs : s ≠ []) (hd : '-' ∉ s) :
    ∃ hs hw, continues (s.getLast hs) (w.head hw) = false := by
  obtain ⟨hc, -⟩ := h
  refine ⟨hs, List.cons_ne_nil _ _, continues_eq_false.mpr ⟨hc, ?_⟩⟩
  exact ne_of_mem_of_not_mem (List.getLast_mem hs) hd

/-- The words of camel case are the segments it is made from. -/
theorem words_joinSegments (hs : s ≠ []) (hl : ∀ c ∈ s, c.isUpper = false)
    (hss : ∀ t ∈ ss, Lowercase t) (hd : ∀ t ∈ s :: ss, '-' ∉ t) :
    words (joinSegments (s :: ss)) = s :: ss.map capitalize := by
  have hcap : ∀ w ∈ ss.map capitalize, Capitalized w ∧ '-' ∉ w := by
    simp only [List.forall_mem_map]
    intro t ht
    exact ⟨(hss t ht).capitalized,
      (hss t ht).dash_notMem_capitalize (hd t (List.mem_cons_of_mem s ht))⟩
  have hne : ∀ w ∈ ss.map capitalize, w ≠ [] := by
    intro w hw
    obtain ⟨hc, -⟩ := (hcap w hw).1
    exact List.cons_ne_nil _ _
  rw [joinSegments, List.flatMap_def, ← List.flatten_cons]
  refine List.splitBy_flatten ?_ ?_ (List.Pairwise.isChain (List.pairwise_cons.mpr ⟨?_, ?_⟩))
  · intro hm
    rcases List.mem_cons.mp hm with he | hm
    · exact hs he.symm
    · exact hne [] hm rfl
  · exact List.forall_mem_cons.mpr ⟨isChain_of_forall hl, fun w hw => (hcap w hw).1.isChain⟩
  · exact fun w hw => (hcap w hw).1.parts hs (hd s List.mem_cons_self)
  · exact List.pairwise_of_forall_mem_list fun v hv w hw =>
      (hcap w hw).1.parts (hne v hv) (hcap v hv).2

theorem capitalized_of_words (hd : '-' ∉ x) (h : words x = w :: ws) (hs : s ∈ ws) :
    Capitalized s := by
  have hmem : s ∈ words x := by
    rw [h]
    exact List.mem_cons_of_mem w hs
  have hchain := List.isChain_of_mem_splitBy hmem
  have hds : '-' ∉ s := fun hm => hd (mem_of_mem_words hmem hm)
  have hws := List.isChain_getLast_head_splitBy continues x
  obtain ⟨us, vs, rfl⟩ := List.append_of_mem hs
  rw [show x.splitBy continues = w :: us ++ s :: vs from h, List.isChain_append] at hws
  obtain ⟨_, hne, hc⟩ :=
    hws.2.2 _ (List.getLast_mem_getLast? (List.cons_ne_nil w us)) s rfl
  obtain ⟨c, cs, rfl⟩ := List.exists_cons_of_ne_nil hne
  exact ⟨(continues_eq_false.mp hc).1, isUpper_of_isChain hds hchain⟩

/-! ## Names -/

/-- A name in camel case, which may hold more than letters. -/
structure IsCamelCase (cs : List Char) : Prop where
  trimmed : Trimmed cs
  dash_notMem : '-' ∉ cs
  head : ∀ c, cs.head? = some c → c.isUpper = false

/-- A name in lower case that may have dashes inside, each of them in front of a letter. -/
structure IsKebabCase (cs : List Char) : Prop where
  trimmed : Trimmed cs
  lower : ∀ c ∈ cs, c.isUpper = false
  first : (cs.splitOn '-').head? ≠ some []
  later : ∀ s ∈ (cs.splitOn '-').tail, ∃ c, s.head? = some c ∧ c.isLower = true

/-- The segments of a name with dashes are its words in camel case. -/
theorem IsCamelCase.splitOn_kebabCase (h : IsCamelCase x) (hx : x ≠ []) :
    (kebabCase x).splitOn '-' = (words x).map asciiLower := by
  rw [kebabCase_eq_intercalate, h.trimmed.trim_eq, List.splitOn_intercalate]
  · simp only [List.forall_mem_map]
    intro w hw hm
    exact h.dash_notMem (mem_of_mem_words hw (mem_of_mem_asciiLower hm (by decide)))
  · simpa [words] using hx

theorem IsCamelCase.words_eq (h : IsCamelCase x) (hx : x ≠ []) :
    ∃ w ws, words x = w :: ws ∧ w ≠ [] ∧ (∀ c ∈ w, c.isUpper = false) ∧
      ∀ v ∈ ws, Capitalized v := by
  obtain ⟨w, ws, hw⟩ := List.exists_cons_of_ne_nil ((List.splitBy_ne_nil (r := continues)).mpr hx)
  have hmem : w ∈ words x := by
    rw [words, hw]
    exact List.mem_cons_self
  have hne := List.ne_nil_of_mem_splitBy hmem
  refine ⟨w, ws, hw, hne, ?_, fun v => capitalized_of_words h.dash_notMem hw⟩
  obtain ⟨c, w, rfl⟩ := List.exists_cons_of_ne_nil hne
  have hd : '-' ∉ c :: w := fun hm => h.dash_notMem (mem_of_mem_words hmem hm)
  have hhead : x.head? = some c := by
    rw [← List.flatten_splitBy continues x, hw]
    rfl
  exact List.forall_mem_cons.mpr
    ⟨h.head c hhead, isUpper_of_isChain hd (List.isChain_of_mem_splitBy hmem)⟩

theorem IsKebabCase.splitOn_eq (h : IsKebabCase y) :
    ∃ s ss, y.splitOn '-' = s :: ss ∧ s ≠ [] ∧ (∀ c ∈ s, c.isUpper = false) ∧
      (∀ t ∈ ss, Lowercase t) ∧ ∀ t ∈ s :: ss, '-' ∉ t := by
  obtain ⟨s, ss, hs⟩ := List.exists_cons_of_ne_nil (List.splitOn_ne_nil '-' y)
  have hlower : ∀ t ∈ s :: ss, ∀ c ∈ t, c.isUpper = false := by
    rw [← hs]
    exact fun t ht c hc => h.lower c (mem_of_mem_splitOn ht hc).1
  have hfirst := h.first
  have hlater := h.later
  rw [hs] at hfirst hlater
  refine ⟨s, ss, hs, by simpa using hfirst, hlower s List.mem_cons_self, fun t ht => ?_,
    fun t ht hm => (mem_of_mem_splitOn (hs ▸ ht) hm).2 rfl⟩
  obtain ⟨c, hc, hl⟩ := hlater t ht
  obtain ⟨cs, rfl⟩ := List.head?_eq_some_iff.mp hc
  exact ⟨hl, (List.forall_mem_cons.mp (hlower _ (List.mem_cons_of_mem s ht))).2⟩

/-! ## There and back -/

theorem IsCamelCase.camelCase_kebabCase (h : IsCamelCase x) : camelCase (kebabCase x) = x := by
  by_cases hx : x = []
  · subst hx
    rfl
  · obtain ⟨w, ws, hw, -, hl, hws⟩ := h.words_eq hx
    calc camelCase (kebabCase x)
      _ = joinSegments ((words x).map asciiLower) := by
        rw [camelCase_eq_joinSegments, (trimmed_kebabCase x).trim_eq, h.splitOn_kebabCase hx]
      _ = w ++ ws.flatten := by
        rw [hw, List.map_cons, joinSegments, List.flatMap_def, map_capitalize_asciiLower hws,
          asciiLower_eq_self hl]
      _ = x := by
        rw [← List.flatten_cons, ← hw, words, List.flatten_splitBy]

theorem IsKebabCase.splitCapitals_joinDashed (h : IsKebabCase y) :
    splitCapitals none (joinDashed false y) = y := by
  obtain ⟨s, ss, hs, hne, hl, hss, hd⟩ := h.splitOn_eq
  rw [splitCapitals_eq_intercalate, (joinDashed_splitOn y).1, hs, words_joinSegments hne hl hss hd,
    List.map_cons, map_asciiLower_capitalize hss, asciiLower_eq_self hl, ← hs,
    List.intercalate_splitOn]

theorem IsKebabCase.trimmed_joinDashed (h : IsKebabCase y) : Trimmed (joinDashed false y) := by
  rw [← trimmed_splitCapitals_iff, h.splitCapitals_joinDashed]
  exact h.trimmed

theorem IsKebabCase.kebabCase_camelCase (h : IsKebabCase y) : kebabCase (camelCase y) = y := by
  rw [kebabCase, camelCase, h.trimmed.trim_eq, h.trimmed_joinDashed.trim_eq,
    h.splitCapitals_joinDashed]

theorem IsCamelCase.isKebabCase (h : IsCamelCase x) (hx : x ≠ []) : IsKebabCase (kebabCase x) := by
  obtain ⟨w, ws, hw, hne, -, hws⟩ := h.words_eq hx
  have hsplit := h.splitOn_kebabCase hx
  rw [hw, List.map_cons] at hsplit
  refine ⟨trimmed_kebabCase x, fun _ => isUpper_of_mem_splitCapitals, ?_, ?_⟩
  · rw [hsplit]
    simpa [asciiLower] using hne
  · rw [hsplit, List.tail_cons, List.forall_mem_map]
    exact fun v hv => (hws v hv).lowercase.head

theorem IsKebabCase.isCamelCase (h : IsKebabCase y) : IsCamelCase (camelCase y) := by
  obtain ⟨s, ss, hs, hne, hl, hss, hd⟩ := h.splitOn_eq
  rw [camelCase, h.trimmed.trim_eq]
  refine ⟨h.trimmed_joinDashed, ?_, ?_⟩
  · rw [(joinDashed_splitOn y).1, hs, joinSegments, List.mem_append, List.mem_flatMap]
    rintro (hm | ⟨t, ht, hm⟩)
    · exact hd s List.mem_cons_self hm
    · exact (hss t ht).dash_notMem_capitalize (hd t (List.mem_cons_of_mem s ht)) hm
  · obtain ⟨c, s, rfl⟩ := List.exists_cons_of_ne_nil hne
    rw [(joinDashed_splitOn y).1, hs]
    rintro _ ⟨⟩
    exact hl c List.mem_cons_self

/-- Camel case and writing with dashes are inverse to each other on the names in these forms, and
what is written with dashes stays as it is. -/
theorem camelCase_kebabCase_inverse :
    (∀ x, IsCamelCase x → camelCase (kebabCase x) = x ∧ (x ≠ [] → IsKebabCase (kebabCase x))) ∧
    (∀ y, IsKebabCase y → kebabCase (camelCase y) = y ∧ IsCamelCase (camelCase y)) ∧
    ∀ x, kebabCase (kebabCase x) = kebabCase x :=
  ⟨fun _ h => ⟨h.camelCase_kebabCase, h.isKebabCase⟩,
    fun _ h => ⟨h.kebabCase_camelCase, h.isCamelCase⟩, kebabCase_kebabCase⟩

theorem camelCase_kebabCase_inverse_wide :
    (IsCamelCase "wideXL 2é".toList ∧
      camelCase (kebabCase "wideXL 2é".toList) = "wideXL 2é".toList) ∧
    (IsKebabCase "wide-x-l 2é".toList ∧
      kebabCase (camelCase "wide-x-l 2é".toList) = "wide-x-l 2é".toList) := by
  have hcamel : IsCamelCase "wideXL 2é".toList := by
    refine ⟨⟨?_, ?_⟩, by simp, ?_⟩
    all_goals
      rintro _ ⟨⟩
      rfl
  have hkebab : IsKebabCase "wide-x-l 2é".toList := by
    refine ⟨⟨?_, ?_⟩, by simp, by decide, ?_⟩
    · rintro _ ⟨⟩
      rfl
    · rintro _ ⟨⟩
      rfl
    · rintro _ (_ | ⟨_, _ | ⟨_, ⟨⟩⟩⟩)
      · exact ⟨'x', rfl, rfl⟩
      · exact ⟨'l', rfl, rfl⟩
  exact ⟨⟨hcamel, (camelCase_kebabCase_inverse.1 _ hcamel).1⟩,
    hkebab, (camelCase_kebabCase_inverse.2.1 _ hkebab).1⟩

end ModularScale.Text
