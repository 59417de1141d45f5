import ModularScale.Proofs.Css.Reading
import ModularScale.Proofs.Css.Regular

/-! # Solid components

Components of a regular text are white space around a part that is read from its own text, wherever
this stands.
-/

namespace ModularScale.Css

variable {inside : Option Bracket} {stop : Stop} {bracket : Bracket} {closing : Option Lexeme}
  {l m c : Lexeme} {w r : List Char}

namespace Components

variable {cs ds inner rest : Components}

theorem balanced_append (inside : Option Bracket) (cs ds : Components) :
    (cs ++ ds).balanced inside = (cs.balanced inside && ds.balanced inside) := by
  induction cs with
  | nil => rfl
  | leaf l rest ih => simp [balanced, ih, Bool.and_assoc]
  | block l bracket inner closing rest _ ih => simp [balanced, ih, Bool.and_assoc]

theorem passes_append (stop : Stop) (cs ds : Components) :
    (cs ++ ds).passes stop = (cs.passes stop && ds.passes stop) := by
  induction cs with
  | nil => rfl
  | leaf l rest ih => simp [passes, ih, Bool.and_assoc]
  | block l bracket inner closing rest _ ih => simp [passes, ih, Bool.and_assoc]

theorem text_eq_spelled (cs : Components) : cs.text = spelled cs.lexemes := rfl

/-- The bracket behind the content of a block. -/
theorem closing_of_balanced (h : (block l bracket inner closing rest).balanced inside = true) :
    ∃ c, closing = some c ∧ c.token.closes? = some bracket := by
  simp only [balanced, Bool.and_eq_true] at h
  simpa [Option.any_eq_true] using h.1.2

theorem lexemes_eq_nil (h : cs.lexemes = []) : cs = nil := by
  cases cs with
  | nil => rfl
  | leaf => cases h
  | block => cases h

theorem getLast?_lexemes_append {ls : List Lexeme} (h : (ls ++ rest.lexemes).getLast? = some m) :
    (rest = nil ∧ ls.getLast? = some m) ∨ rest.lexemes.getLast? = some m := by
  rw [List.getLast?_append] at h
  rcases Option.or_eq_some_iff.mp h with h | ⟨hr, h⟩
  · exact .inr h
  · exact .inl ⟨lexemes_eq_nil (List.getLast?_eq_none_iff.mp hr), h⟩

theorem getLast?_leaf (h : (leaf l rest).lexemes.getLast? = some m) :
    (rest = nil ∧ l = m) ∨ rest.lexemes.getLast? = some m := by
  rcases getLast?_lexemes_append (show ([l] ++ rest.lexemes).getLast? = some m from h)
    with ⟨hr, ⟨⟩⟩ | h
  · exact .inl ⟨hr, rfl⟩
  · exact .inr h

theorem getLast?_block (h : (block l bracket inner (some c) rest).lexemes.getLast? = some m) :
    (rest = nil ∧ c = m) ∨ rest.lexemes.getLast? = some m := by
  rcases getLast?_lexemes_append h with ⟨hr, h⟩ | h
  · refine .inl ⟨hr, ?_⟩
    rw [Option.toList_some, List.getLast?_append] at h
    exact Option.some.inj h
  · exact .inr h

/-- The last token of balanced components opens no bracket. -/
theorem opens?_of_getLast? (h : cs.balanced inside = true) (hm : cs.lexemes.getLast? = some m) :
    m.token.opens? = none := by
  induction cs with
  | nil => cases hm
  | leaf l rest ih =>
    simp only [balanced, Bool.and_eq_true, decide_eq_true_eq] at h
    rcases getLast?_leaf hm with ⟨-, rfl⟩ | hm
    · exact h.1.1
    · exact ih h.2 hm
  | block l bracket inner closing rest _ ih =>
    obtain ⟨c, rfl, hc⟩ := closing_of_balanced h
    simp only [balanced, Bool.and_eq_true] at h
    rcases getLast?_block hm with ⟨-, rfl⟩ | hm
    · exact opens?_of_closes? hc
    · exact ih h.2 hm

/-! ### White space -/

/-- Whether there is nothing but white space. -/
def isGap : Components → Bool
  | nil => true
  | leaf l rest => l.token = .whiteSpace && rest.isGap
  | block .. => false

theorem ne_whiteSpace_of_opens? {token : Token} (h : token.opens? = some bracket) :
    token ≠ .whiteSpace := by
  rintro rfl
  cases h

/-- Components are white space and then something that does not start with any. -/
theorem exists_gap_append (h : cs.balanced inside = true) : ∃ v ds, cs = v ++ ds ∧
    v.isGap = true ∧ ∀ l, ds.lexemes.head? = some l → l.token ≠ .whiteSpace := by
  induction cs with
  | nil => exact ⟨nil, nil, rfl, rfl, by rintro _ ⟨⟩⟩
  | leaf l rest ih =>
    simp only [balanced, Bool.and_eq_true] at h
    rcases Decidable.em (l.token = .whiteSpace) with hl | hl
    · obtain ⟨v, ds, rfl, hv, hd⟩ := ih h.2
      exact ⟨leaf l v, ds, rfl, by simp [isGap, hl, hv], hd⟩
    · refine ⟨nil, leaf l rest, rfl, rfl, ?_⟩
      rintro m ⟨⟩
      exact hl
  | block l bracket inner closing rest =>
    simp only [balanced, Bool.and_eq_true, decide_eq_true_eq] at h
    refine ⟨nil, block l bracket inner closing rest, rfl, rfl, ?_⟩
    rintro m ⟨⟩
    exact ne_whiteSpace_of_opens? h.1.1.1

/-- Components are something that does not end with white space and then white space. -/
theorem exists_append_gap (h : cs.balanced inside = true) : ∃ ds w, cs = ds ++ w ∧
    w.isGap = true ∧ ∀ l, ds.lexemes.getLast? = some l → l.token ≠ .whiteSpace := by
  induction cs with
  | nil => exact ⟨nil, nil, rfl, rfl, by rintro _ ⟨⟩⟩
  | leaf l rest ih =>
    simp only [balanced, Bool.and_eq_true] at h
    obtain ⟨ds, w, rfl, hw, hd⟩ := ih h.2
    rcases Decidable.em (ds = nil ∧ l.token = .whiteSpace) with ⟨rfl, hl⟩ | hn
    · exact ⟨nil, leaf l w, rfl, by simp [isGap, hl, hw], by rintro _ ⟨⟩⟩
    · refine ⟨leaf l ds, w, rfl, hw, fun m hm => ?_⟩
      rcases getLast?_leaf hm with ⟨rfl, rfl⟩ | hm
      · exact fun hl => hn ⟨rfl, hl⟩
      · exact hd m hm
  | block l bracket inner closing rest _ ih =>
    obtain ⟨c, rfl, hc⟩ := closing_of_balanced h
    simp only [balanced, Bool.and_eq_true] at h
    obtain ⟨ds, w, rfl, hw, hd⟩ := ih h.2
    refine ⟨block l bracket inner (some c) ds, w, rfl, hw, fun m hm => ?_⟩
    rcases getLast?_block hm with ⟨-, rfl⟩ | hm
    · rintro ht
      rw [ht] at hc
      cases hc
    · exact hd m hm

end Components

open Components

/-- Balanced components that are part of a regular stream. -/
structure Sound (inside : Option Bracket) (cs : Components) : Prop where
  balanced : cs.balanced inside = true
  regular : ∃ behind, Regular (cs.lexemes ++ behind)

namespace Sound

variable {cs ds content rest : Components}

theorem left (h : Sound inside (cs ++ ds)) : Sound inside cs := by
  obtain ⟨hb, behind, hr⟩ := h
  rw [balanced_append, Bool.and_eq_true] at hb
  rw [lexemes_append, List.append_assoc] at hr
  exact ⟨hb.1, _, hr⟩

theorem right (h : Sound inside (cs ++ ds)) : Sound inside ds := by
  obtain ⟨hb, behind, hr⟩ := h
  rw [balanced_append, Bool.and_eq_true] at hb
  rw [lexemes_append, List.append_assoc] at hr
  exact ⟨hb.2, _, hr.right⟩

theorem tail (h : Sound inside (leaf l rest)) : Sound inside rest :=
  right (show Sound inside (leaf l nil ++ rest) from h)

theorem behind (h : Sound inside (.block l bracket content closing rest)) : Sound inside rest :=
  right (show Sound inside (.block l bracket content closing nil ++ rest) from h)

theorem inner (h : Sound inside (.block l bracket content closing rest)) :
    Sound (some bracket) content := by
  obtain ⟨hb, behind, hr⟩ := h
  simp only [Components.balanced, Bool.and_eq_true] at hb
  simp only [Components.lexemes, List.cons_append, List.append_assoc] at hr
  exact ⟨hb.1.1.2, _, hr.tail⟩

theorem shape (h : Sound inside cs) (hl : l ∈ cs.lexemes) : l.token.Shape l.text := by
  obtain ⟨-, behind, hr⟩ := h
  exact hr.shape (List.mem_append_left _ hl)

theorem isSpace_of_isBlank {d : Char} (h : Sound inside cs) (hd : d ∈ cs.text)
    (hb : Text.isBlank d = true) : isSpace d = true := by
  obtain ⟨-, behind, hr⟩ := h
  exact hr.blank d (spelled_append _ _ ▸ List.mem_append_left _ hd) hb

theorem isSpace_of_isGap (h : Sound inside cs) (hg : cs.isGap = true) :
    ∀ c ∈ cs.text, isSpace c = true := by
  induction cs with
  | nil => exact List.forall_mem_nil _
  | leaf l rest ih =>
    simp only [isGap, Bool.and_eq_true, decide_eq_true_eq] at hg
    have hs := h.shape (l := l) List.mem_cons_self
    intro c hc
    rw [text_leaf] at hc
    rcases List.mem_append.mp hc with hc | hc
    · obtain ⟨token, text, line⟩ := l
      obtain rfl : token = .whiteSpace := hg.1
      cases hs with
      | space hs => exact hs c hc
      | word hn => exact absurd rfl hn
      | enclosed hn => exact absurd rfl hn
    · exact ih h.tail hg.2 c hc
  | block => cases hg

end Sound

/-- Components without white space at their ends that are read from their text before any text that
can follow it. -/
structure Solid (inside : Option Bracket) (cs : Components) : Prop where
  balanced : cs.balanced inside = true
  trimmed : Text.Trimmed cs.text
  tokens_append : ∀ r, Stops r → tokens (cs.text ++ r) = cs.lexemes ++ tokens r

theorem isSpace_of_shape {token : Token} {text : List Char} {d : Char} (h : token.Shape text)
    (ht : token ≠ .whiteSpace) (hd : text.getLast? = some d) : isSpace d = false := by
  cases h with
  | space => exact absurd rfl ht
  | mark =>
    cases hd
    rfl
  | word _ _ _ hw =>
    have hw := hw d (List.mem_of_getLast? hd)
    rw [isWordChar, Bool.and_eq_true, Bool.not_eq_true'] at hw
    exact hw.1
  | enclosed _ he hw =>
    rw [he] at hd
    cases hd
    rw [isWordChar, Bool.and_eq_true, Bool.not_eq_true'] at hw
    exact hw.1

theorem Sound.solid {cs : Components} (h : Sound inside cs)
    (hfirst : ∀ l, cs.lexemes.head? = some l → l.token ≠ .whiteSpace)
    (hlast : ∀ l, cs.lexemes.getLast? = some l → l.token ≠ .whiteSpace) : Solid inside cs := by
  have hshape := fun l hl => h.shape (l := l) hl
  have hblank : ∀ c ∈ cs.text, isSpace c = false → Text.isBlank c = false := by
    intro c hc hs
    rw [← Bool.not_eq_true]
    intro hb
    rw [h.isSpace_of_isBlank hc hb] at hs
    cases hs
  obtain ⟨hb, behind, hr⟩ := h
  have hend : ∀ d, cs.text.getLast? = some d → isSpace d = false := by
    intro d hd
    rw [text_eq_spelled] at hd
    rcases List.eq_nil_or_concat' cs.lexemes with hls | ⟨ls, l, hls⟩
    · rw [hls] at hd
      cases hd
    · have hl : l ∈ cs.lexemes := hls ▸ List.mem_append_right ls List.mem_cons_self
      have hne := hr.text_ne_nil (List.mem_append_left _ hl)
      rw [hls, spelled_append, spelled_cons, spelled_nil, List.append_nil,
        List.getLast?_append_of_ne_nil _ hne] at hd
      exact isSpace_of_shape (hshape l hl) (hlast l (by rw [hls, List.getLast?_concat])) hd
  refine ⟨hb, ⟨fun c hc => ?_, fun d hd => hblank d (List.mem_of_getLast? hd) (hend d hd)⟩,
    fun r hstop => hr.tokens_append hend (fun l hl name hf => ?_) hstop⟩
  · refine hblank c (List.mem_of_head? hc) ?_
    cases hls : cs.lexemes with
    | nil =>
      rw [text_eq_spelled, hls] at hc
      cases hc
    | cons l ls =>
      rw [hls] at hr hfirst
      rw [List.cons_append] at hr
      obtain ⟨d, a, htext, -, hv, -, -⟩ := hr.head
      rw [text_eq_spelled, hls, spelled_cons, htext] at hc
      cases hc
      rw [← Bool.not_eq_true]
      intro hs
      rw [nextToken, if_pos hs] at hv
      exact hfirst l rfl hv.symm
  · have ho := opens?_of_getLast? hb hl
    rw [hf] at ho
    cases ho

/-- Sound components are solid but for white space at their ends. -/
theorem Sound.exists_solid {cs : Components} (h : Sound inside cs) : ∃ v core w,
    cs = v ++ (core ++ w) ∧ v.isGap = true ∧ w.isGap = true ∧ Solid inside core := by
  obtain ⟨v, ds, rfl, hv, hfirst⟩ := exists_gap_append h.balanced
  obtain ⟨core, w, rfl, hw, hlast⟩ := exists_append_gap h.right.balanced
  refine ⟨v, core, w, rfl, hv, hw, h.right.left.solid (fun l hl => hfirst l ?_) hlast⟩
  rw [lexemes_append, List.head?_append, hl]
  rfl

end ModularScale.Css
