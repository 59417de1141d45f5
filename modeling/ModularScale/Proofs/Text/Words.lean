import Mathlib
import ModularScale.Proofs.Text.Casing

/-! # Words of a name

A name falls into words: each capital that is neither first nor behind a dash begins one. With
dashes it is written as its words in lower case, joined by dashes.
-/

namespace ModularScale.Text

variable {a c : Char} {cs w : List Char} {previous : Option Char}

/-- Whether a character stays in the word of the one before it. -/
def continues (a c : Char) : Bool :=
  !c.isUpper || a == '-'

def words (cs : List Char) : List (List Char) :=
  cs.splitBy continues

theorem continues_eq_false : continues a c = false ↔ c.isUpper = true ∧ a ≠ '-' := by
  simp [continues]

theorem mem_of_mem_words (hw : w ∈ words cs) (hc : c ∈ w) : c ∈ cs := by
  rw [← List.flatten_splitBy continues cs]
  exact List.mem_flatten.mpr ⟨w, hw, hc⟩

/-- A word without dashes has no capital behind its first character. -/
theorem isUpper_of_isChain (hd : '-' ∉ a :: cs) (h : (a :: cs).IsChain (continues · ·)) :
    ∀ c ∈ cs, c.isUpper = false := by
  induction cs generalizing a with
  | nil => simp
  | cons c cs ih =>
    obtain ⟨hc, hcs⟩ := List.isChain_cons_cons.mp h
    have ha : a ≠ '-' := fun he => hd (he ▸ List.mem_cons_self)
    have hu : c.isUpper = false := by simpa [continues, ha] using hc
    exact List.forall_mem_cons.mpr ⟨hu, ih (List.not_mem_of_not_mem_cons hd) hcs⟩

theorem isChain_of_tail (h : ∀ c ∈ cs, c.isUpper = false) : (a :: cs).IsChain (continues · ·) := by
  refine List.isChain_iff_forall_rel_of_append_cons_cons.mpr fun b c v w he => ?_
  have hc : c ∈ cs := by
    cases v with
    | nil => simp [(List.cons.inj he).2]
    | cons d v => simp [(List.cons.inj he).2]
  simp [continues, h c hc]

theorem isChain_of_forall (h : ∀ c ∈ cs, c.isUpper = false) : cs.IsChain (continues · ·) := by
  cases cs with
  | nil => exact .nil
  | cons a cs => exact isChain_of_tail (List.forall_mem_cons.mp h).2

/-! ## Letters and white space -/

theorem isBlank_of_isAlpha (h : c.isAlpha = true) : isBlank c = false :=
  of_isAscii (p := fun c => c.isAlpha = true → isBlank c = false) (by decide +kernel)
    (isAscii_of_isAlpha h) h

@[simp] theorem isBlank_toLower (c : Char) : isBlank c.toLower = isBlank c := by
  rcases toLower_cases c with h | ⟨hc, hl⟩
  · rw [h]
  · rw [isBlank_of_isAlpha hc, isBlank_of_isAlpha (isAlpha_of_isLower hl)]

theorem asciiLower_cons (c : Char) (cs : List Char) :
    asciiLower (c :: cs) = c.toLower :: asciiLower cs := rfl

theorem asciiLower_eq_self (h : ∀ c ∈ cs, c.isUpper = false) : asciiLower cs = cs := by
  refine (List.map_congr_left fun c hc => ?_).trans (List.map_id cs)
  exact Char.toLower_eq_of_not_isUpper (by simp [h c hc])

/-! ## Writing with dashes -/

/-- Only whether the character before is a dash matters. -/
theorem splitCapitals_toLower (a : Char) (cs : List Char) :
    splitCapitals (some a.toLower) cs = splitCapitals (some a) cs := by
  cases cs with
  | nil => rfl
  | cons c cs =>
    have ha : (a.toLower != '-') = (a != '-') := by
      rw [Bool.eq_iff_iff, bne_iff_ne, bne_iff_ne, ne_eq, toLower_eq_dash]
    simp only [splitCapitals, Option.any_some, ha]

theorem splitCapitals_none_cons (c : Char) (cs : List Char) :
    splitCapitals none (c :: cs) = c.toLower :: splitCapitals (some c) cs := by
  rw [splitCapitals, splitCapitals_toLower]
  simp

theorem splitCapitals_continue (h : continues a c = true) (cs : List Char) :
    splitCapitals (some a) (c :: cs) = c.toLower :: splitCapitals (some c) cs := by
  have hn : ¬(c.isUpper && (some a).any (· != '-')) = true := by
    simpa [continues, ← Bool.not_eq_true, imp_iff_not_or] using h
  rw [splitCapitals, if_neg hn, splitCapitals_toLower]

/-- A dash stands before each word but the first. -/
theorem splitCapitals_start (h : continues a c = false) (cs : List Char) :
    splitCapitals (some a) (c :: cs) = '-' :: splitCapitals none (c :: cs) := by
  have hp : (c.isUpper && (some a).any (· != '-')) = true := by
    simpa using continues_eq_false.mp h
  rw [splitCapitals, if_pos hp, splitCapitals_none_cons, splitCapitals_toLower]

theorem splitCapitals_some_append (h : (a :: w).IsChain (continues · ·)) (cs : List Char) :
    splitCapitals (some a) (w ++ cs) =
      asciiLower w ++ splitCapitals (some ((a :: w).getLast (List.cons_ne_nil a w))) cs := by
  induction w generalizing a with
  | nil => rfl
  | cons c w ih =>
    obtain ⟨hc, hw⟩ := List.isChain_cons_cons.mp h
    rw [List.cons_append, splitCapitals_continue hc, ih hw]
    rfl

theorem splitCapitals_none_append (h : w.IsChain (continues · ·)) (hw : w ≠ []) (cs : List Char) :
    splitCapitals none (w ++ cs) = asciiLower w ++ splitCapitals (some (w.getLast hw)) cs := by
  cases w with
  | nil => exact absurd rfl hw
  | cons a w =>
    rw [List.cons_append, splitCapitals_none_cons, splitCapitals_some_append h]
    rfl

/-- Words that are put together fall apart again where they met. -/
theorem splitCapitals_flatten {ws : List (List Char)}
    (hchain : ∀ v ∈ w :: ws, v.IsChain (continues · ·)) (hne : [] ∉ w :: ws)
    (hws : (w :: ws).IsChain fun u v => ∃ hu hv, continues (u.getLast hu) (v.head hv) = false) :
    splitCapitals none (w :: ws).flatten = ['-'].intercalate ((w :: ws).map asciiLower) := by
  have hw : w ≠ [] := (List.ne_of_not_mem_cons hne).symm
  rw [List.flatten_cons, splitCapitals_none_append (hchain w List.mem_cons_self) hw]
  induction ws generalizing w with
  | nil => simp [splitCapitals, List.intercalate_singleton]
  | cons v ws ih =>
    obtain ⟨⟨_, hv, hc⟩, hws⟩ := List.isChain_cons_cons.mp hws
    have hchain := (List.forall_mem_cons.mp hchain).2
    have ih := ih hchain (List.not_mem_of_not_mem_cons hne) hws hv
    have hstart : splitCapitals (some (w.getLast hw)) (v :: ws).flatten =
        '-' :: splitCapitals none (v :: ws).flatten := by
      obtain ⟨c, v, rfl⟩ := List.exists_cons_of_ne_nil hv
      exact splitCapitals_start hc _
    rw [hstart, List.flatten_cons, splitCapitals_none_append (hchain v List.mem_cons_self) hv, ih,
      List.map_cons, List.map_cons, List.map_cons, List.intercalate_cons_cons]
    simp

/-- A text with dashes is made of its words in lower case. -/
theorem splitCapitals_eq_intercalate (cs : List Char) :
    splitCapitals none cs = ['-'].intercalate ((words cs).map asciiLower) := by
  cases h : words cs with
  | nil =>
    rw [List.splitBy_eq_nil.mp h]
    rfl
  | cons w ws =>
    have hcs : (w :: ws).flatten = cs := by rw [← h, words, List.flatten_splitBy]
    rw [← splitCapitals_flatten, hcs]
    · rw [← h]
      exact fun v hv => List.isChain_of_mem_splitBy hv
    · rw [← h]
      exact List.nil_notMem_splitBy _ _
    · rw [← h]
      exact List.isChain_getLast_head_splitBy _ _

theorem kebabCase_eq_intercalate (cs : List Char) :
    kebabCase cs = ['-'].intercalate ((words (trim cs)).map asciiLower) :=
  splitCapitals_eq_intercalate _

/-- No dash is added just if each capital is behind one. -/
theorem splitCapitals_some_eq_iff (a : Char) (cs : List Char) :
    splitCapitals (some a) cs = asciiLower cs ↔ (a :: cs).IsChain (continues · ·) := by
  induction cs generalizing a with
  | nil => simp [splitCapitals, asciiLower]
  | cons c cs ih =>
    rw [List.isChain_cons_cons]
    cases hc : continues a c with
    | true =>
      rw [splitCapitals_continue hc, asciiLower_cons, List.cons.injEq, ih]
      simp
    | false =>
      have hd : c ≠ '-' := by
        rintro rfl
        exact absurd (continues_eq_false.mp hc).1 (by decide)
      rw [splitCapitals_start hc, asciiLower_cons, List.cons.injEq, eq_comm, toLower_eq_dash]
      simp [hd]

theorem splitCapitals_none_eq_iff (cs : List Char) :
    splitCapitals none cs = asciiLower cs ↔ cs.IsChain (continues · ·) := by
  cases cs with
  | nil => simp [splitCapitals, asciiLower]
  | cons c cs =>
    rw [splitCapitals_none_cons, asciiLower_cons, List.cons.injEq, splitCapitals_some_eq_iff]
    exact and_iff_right rfl

theorem kebabCase_eq_asciiLower_iff (cs : List Char) :
    kebabCase cs = asciiLower (trim cs) ↔ (trim cs).IsChain (continues · ·) :=
  splitCapitals_none_eq_iff _

/-! ## What writing with dashes keeps -/

theorem isUpper_of_mem_splitCapitals (h : c ∈ splitCapitals previous cs) : c.isUpper = false := by
  induction cs generalizing previous with
  | nil => cases h
  | cons d cs ih =>
    have hd : c ∈ d.toLower :: splitCapitals (some d.toLower) cs → c.isUpper = false := by
      intro hm
      rcases List.mem_cons.mp hm with rfl | hm
      · exact Char.isUpper_toLower_eq_false d
      · exact ih hm
    unfold splitCapitals at h
    split at h
    · rcases List.mem_cons.mp h with rfl | h
      · decide
      · exact hd h
    · exact hd h

theorem head?_splitCapitals (cs : List Char) :
    (splitCapitals none cs).head? = cs.head?.map Char.toLower := by
  cases cs with
  | nil => rfl
  | cons c cs =>
    rw [splitCapitals_none_cons]
    rfl

theorem getLast?_splitCapitals (previous : Option Char) (cs : List Char) :
    (splitCapitals previous cs).getLast? = cs.getLast?.map Char.toLower := by
  induction cs generalizing previous with
  | nil => rfl
  | cons c cs ih =>
    have hc : (c.toLower :: splitCapitals (some c.toLower) cs).getLast? =
        (c :: cs).getLast?.map Char.toLower := by
      rw [List.getLast?_cons, List.getLast?_cons, ih]
      cases cs.getLast? <;> rfl
    unfold splitCapitals
    split
    · rw [List.getLast?_cons_cons, hc]
    · exact hc

theorem trimmed_splitCapitals_iff : Trimmed (splitCapitals none cs) ↔ Trimmed cs := by
  have hmap : ∀ o : Option Char, (∀ c, o.map Char.toLower = some c → isBlank c = false) ↔
      ∀ c, o = some c → isBlank c = false := by
    intro o
    cases o <;> simp
  constructor
  · rintro ⟨hh, hl⟩
    rw [head?_splitCapitals, hmap] at hh
    rw [getLast?_splitCapitals, hmap] at hl
    exact ⟨hh, hl⟩
  · rintro ⟨hh, hl⟩
    rw [← hmap, ← head?_splitCapitals] at hh
    rw [← hmap, ← getLast?_splitCapitals none] at hl
    exact ⟨hh, hl⟩

theorem trimmed_kebabCase (cs : List Char) : Trimmed (kebabCase cs) :=
  trimmed_splitCapitals_iff.mpr (trimmed_trim cs)

theorem kebabCase_eq_self (ht : Trimmed cs) (h : ∀ c ∈ cs, c.isUpper = false) :
    kebabCase cs = cs := by
  rw [kebabCase, ht.trim_eq, (splitCapitals_none_eq_iff cs).mpr (isChain_of_forall h),
    asciiLower_eq_self h]

theorem kebabCase_kebabCase (cs : List Char) : kebabCase (kebabCase cs) = kebabCase cs :=
  kebabCase_eq_self (trimmed_kebabCase cs) fun _ => isUpper_of_mem_splitCapitals

end ModularScale.Text
