import ModularScale.Proofs.Css.Names

/-! # Regular streams of tokens

The tokens of a text without escapes, all of them closed. A part of them that ends well stays the
same before any text that can follow it.
-/

namespace ModularScale.Css

variable {c : Char} {l : Lexeme} {ls ms : List Lexeme} {r w : List Char}

/-- The text of a stream of tokens. -/
def spelled (ls : List Lexeme) : List Char :=
  ls.flatMap Lexeme.text

@[simp] theorem spelled_nil : spelled [] = [] := rfl

@[simp] theorem spelled_cons (l : Lexeme) (ls : List Lexeme) :
    spelled (l :: ls) = l.text ++ spelled ls := rfl

@[simp] theorem spelled_append (ls ms : List Lexeme) :
    spelled (ls ++ ms) = spelled ls ++ spelled ms := List.flatMap_append

/-- A stream of closed tokens that are those of its own text, which has no escapes and no white
space but that of style sheets. -/
structure Regular (ls : List Lexeme) : Prop where
  tokens_eq : tokens (spelled ls) = ls
  no_escape : '\\' ∉ spelled ls
  blank : ∀ c ∈ spelled ls, Text.isBlank c = true → isSpace c = true
  closed : ∀ l ∈ ls, l.token.isClosed l.text = true

/-- The tokens of a text are a regular stream. -/
theorem regular_tokens {a : List Char} (he : '\\' ∉ a)
    (hb : ∀ c ∈ a, Text.isBlank c = true → isSpace c = true)
    (hc : ∀ l ∈ tokens a, l.token.isClosed l.text = true) : Regular (tokens a) := by
  have hs : spelled (tokens a) = a := flatMap_text_tokens a
  exact ⟨congrArg tokens hs, hs.symm ▸ he, hs.symm ▸ hb, hc⟩

/-- The first token of a regular stream is what comes first in its text. -/
theorem Regular.head (h : Regular (l :: ls)) : ∃ c a, l.text = c :: a ∧ l.line = 0 ∧
    (nextToken c (a ++ spelled ls)).value = l.token ∧
    (nextToken c (a ++ spelled ls)).length - 1 = a.length ∧ tokens (spelled ls) = ls := by
  obtain ⟨ht, he, -, -⟩ := h
  cases hs : spelled (l :: ls) with
  | nil =>
    rw [hs, tokens_nil] at ht
    cases ht
  | cons c cs =>
    rw [hs] at ht he
    obtain ⟨hc, he⟩ := List.ne_and_not_mem_of_not_mem_cons he
    rw [tokens_cons] at ht
    injection ht with hl hls
    have hlen := length_nextToken_le c cs
    have htext : l.text = c :: cs.take ((nextToken c cs).length - 1) := by rw [← hl]
    have hcs : cs = cs.take ((nextToken c cs).length - 1) ++ spelled ls := by
      rw [spelled_cons, htext, List.cons_append] at hs
      injection hs with _ hs
      exact hs.symm
    have hdrop : cs.drop ((nextToken c cs).length - 1) = spelled ls :=
      List.append_cancel_left ((List.take_append_drop _ cs).trans hcs)
    refine ⟨c, cs.take ((nextToken c cs).length - 1), htext, ?_⟩
    rw [← hcs, List.length_take_of_le (by omega), ← hdrop, ← hl]
    exact ⟨rfl, rfl, rfl, hls⟩

theorem Regular.tail (h : Regular (l :: ls)) : Regular ls := by
  obtain ⟨_, _, -, -, -, -, ht⟩ := h.head
  obtain ⟨-, he, hb, hc⟩ := h
  exact ⟨ht, fun hm => he (List.mem_append_right _ hm),
    fun c hm => hb c (List.mem_append_right _ hm), fun m hm => hc m (List.mem_cons_of_mem _ hm)⟩

theorem Regular.right (h : Regular (ls ++ ms)) : Regular ms := by
  induction ls with
  | nil => exact h
  | cons l ls ih => exact ih h.tail

/-- A token of a regular stream, before the rest of the stream. -/
theorem Regular.split (h : Regular ls) (hl : l ∈ ls) : ∃ as bs, ls = as ++ l :: bs ∧
    Regular (l :: bs) := by
  obtain ⟨as, bs, rfl⟩ := List.append_of_mem hl
  exact ⟨as, bs, rfl, h.right⟩

theorem Regular.text_ne_nil (h : Regular ls) (hl : l ∈ ls) : l.text ≠ [] := by
  obtain ⟨as, bs, -, h⟩ := h.split hl
  obtain ⟨c, a, htext, -⟩ := h.head
  rw [htext]
  exact List.cons_ne_nil c a

theorem Regular.shape (h : Regular ls) (hl : l ∈ ls) : l.token.Shape l.text := by
  obtain ⟨as, bs, -, h⟩ := h.split hl
  obtain ⟨c, a, htext, -, hv, hlen, -⟩ := h.head
  have he := h.no_escape
  rw [spelled_cons, htext, List.cons_append] at he
  obtain ⟨hc, he⟩ := List.ne_and_not_mem_of_not_mem_cons he
  have hcl := h.closed l List.mem_cons_self
  have htake : (a ++ spelled bs).take ((nextToken c (a ++ spelled bs)).length - 1) = a := by
    rw [hlen, List.take_left]
  have hs := shape_nextToken hc.symm he
  rw [hv, htake, ← htext] at hs
  exact hs hcl

/-- A part of a regular stream is read from its text before any text that can follow it, unless it
ends with white space or with a function. -/
theorem Regular.tokens_append (h : Regular (ls ++ ms))
    (hlast : ∀ d, (spelled ls).getLast? = some d → isSpace d = false)
    (hf : ∀ l, ls.getLast? = some l → ∀ name, l.token ≠ .function name) (hr : Stops r) :
    tokens (spelled ls ++ r) = ls ++ tokens r := by
  induction ls with
  | nil => rfl
  | cons l ls ih =>
    rw [List.cons_append] at h
    obtain ⟨c, a, htext, hline, hv, hlen, -⟩ := h.head
    have he := h.no_escape
    rw [spelled_cons, htext, spelled_append, List.cons_append, ← List.append_assoc] at he
    rw [spelled_append, ← List.append_assoc] at hv hlen
    obtain ⟨hc, he⟩ := List.ne_and_not_mem_of_not_mem_cons he
    have hcl := h.closed l List.mem_cons_self
    have hlies : Lies c (a ++ spelled ls) (nextToken c (a ++ spelled ls ++ spelled ms)) := by
      refine ⟨?_, ?_, fun name hn => ?_⟩
      · rw [List.length_append]
        omega
      · rwa [hlen, List.take_left, hv, ← htext]
      · cases ls with
        | nil => exact absurd (hv.symm.trans hn) (hf l rfl name)
        | cons m ls =>
          obtain ⟨d, b, hm, -⟩ := h.tail.head
          have hpos : 0 < (spelled (m :: ls)).length := by simp [hm]
          rw [List.length_append]
          omega
    have hcongr := nextToken_congr hc.symm (fun hm => he (List.mem_append_left _ hm))
      (fun hm => he (List.mem_append_right _ hm))
      (fun d hd => hlast d (by rw [spelled_cons, htext]; exact hd)) hlies hr
    have hl : (⟨l.token, c :: a, 0⟩ : Lexeme) = l := by rw [← htext, ← hline]
    have ht := ih h.tail (fun d hd => hlast d ?_) fun m hm => hf m ?_
    · rw [spelled_cons, htext, List.append_assoc, List.cons_append, tokens_cons, List.cons_append,
        ← ht, ← List.append_assoc, hcongr, hlen, hv, List.append_assoc, List.take_left,
        List.drop_left, hl]
    · rw [spelled_cons, List.getLast?_append, hd]
      rfl
    · rw [List.getLast?_cons, hm]
      rfl

end ModularScale.Css
