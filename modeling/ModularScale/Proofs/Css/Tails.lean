import Mathlib
import ModularScale.Proofs.Css.Around
import ModularScale.Proofs.Css.Ending
import ModularScale.Proofs.Css.Slices

/-! # Tails

A token that ends before a `;` ends before each other mark, before white space and at the end of the
text, too, and is the same there. But the code of an escaped character takes one white space behind
it.
-/

namespace ModularScale.Css

variable {c : Char} {a q r w : List Char}

/-! ## Texts and their tails -/

/-- A mark at which no token goes on. -/
def isMark (c : Char) : Bool :=
  c == ';' || c == '\x7b' || c == '\x7d' || c == '!'

/-- A text that starts with a mark, or with none if it is empty. A `!` is no part of `<!--`. -/
def StartsMark (r : List Char) : Prop :=
  startsWith (!isMark ·) r = false ∧ r.take 3 ≠ ['!', '-', '-']

/-- White space and then a mark or the end of the text. -/
def IsTail (q : List Char) : Prop :=
  ∃ w r, q = w ++ r ∧ Spaces w ∧ StartsMark r

theorem isEdge_of_isMark (h : isMark c = true) : isEdge c = true := by
  simp only [isMark, Bool.or_eq_true, beq_iff_eq] at h
  rcases h with ((rfl | rfl) | rfl) | rfl <;> rfl

theorem isEdge_of_isSpace (h : isSpace c = true) : isEdge c = true := by
  simp [isEdge, h]

namespace StartsMark

theorem nil : StartsMark [] :=
  ⟨rfl, nofun⟩

theorem cons (hc : isMark c = true) (hi : c ≠ '!') (r : List Char) : StartsMark (c :: r) := by
  constructor
  · simp [startsWith, hc]
  · intro h
    exact hi (List.cons.inj h).1

theorem startsWith_eq_false {p : Char → Bool} (h : StartsMark r)
    (hp : ∀ c, isMark c = true → p c = false) : startsWith p r = false := by
  obtain ⟨h, -⟩ := h
  cases r with
  | nil => rfl
  | cons c r => exact hp c (by simpa [startsWith] using h)

theorem isSpace (h : StartsMark r) : startsWith isSpace r = false :=
  h.startsWith_eq_false fun c hc => by
    simp only [isMark, Bool.or_eq_true, beq_iff_eq] at hc
    rcases hc with ((rfl | rfl) | rfl) | rfl <;> rfl

end StartsMark

theorem startsMark_semicolon (s : List Char) : StartsMark (';' :: s) :=
  .cons rfl (by decide) s

/-- Behind the first white space of a tail the tail goes on. -/
theorem exists_drop_space (hw : Spaces w) (hr : StartsMark r) :
    ∃ w', Spaces w' ∧ (w ++ r).drop (spaceLength (w ++ r)) = w' ++ r := by
  have hle : spaceLength (w ++ r) ≤ w.length := by
    by_contra hlt
    rw [Nat.not_le] at hlt
    cases r with
    | nil =>
      have := length_spaceLength_le (w ++ [])
      rw [List.length_append, List.length_nil] at this
      omega
    | cons c r =>
      have hm : c ∈ (w ++ c :: r).take (spaceLength (w ++ c :: r)) := by
        rw [List.take_append, List.mem_append]
        right
        rw [show spaceLength (w ++ c :: r) - w.length =
          (spaceLength (w ++ c :: r) - w.length - 1) + 1 by omega, List.take_succ_cons]
        exact List.mem_cons_self
      have hc : Css.isSpace c = false := hr.isSpace
      rw [isSpace_of_mem_take_spaceLength hm] at hc
      cases hc
  refine ⟨w.drop (spaceLength (w ++ r)), fun c hc => hw c (List.mem_of_mem_drop hc), ?_⟩
  exact List.drop_append_of_le_length hle

theorem IsTail.edge (h : IsTail q) : startsWith (!isEdge ·) q = false := by
  obtain ⟨w, r, rfl, hw, hr⟩ := h
  cases w with
  | nil => exact hr.startsWith_eq_false fun c hc => by rw [isEdge_of_isMark hc, Bool.not_true]
  | cons c w =>
    show (!isEdge c) = false
    rw [isEdge_of_isSpace (hw c List.mem_cons_self), Bool.not_true]

theorem IsTail.isBorder (h : IsTail q) : IsBorder q := by
  refine ⟨h.edge, ?_, ?_⟩
  · obtain ⟨w, r, rfl, hw, hr⟩ := h
    obtain ⟨w', hw', hd⟩ := exists_drop_space hw hr
    exact IsTail.edge ⟨w', r, hd, hw', hr⟩
  · obtain ⟨w, r, rfl, hw, -, hr⟩ := h
    cases w with
    | nil => exact hr
    | cons c w =>
      intro he
      obtain rfl : c = '!' := (List.cons.inj he).1
      cases hw _ List.mem_cons_self

/-! ## Tokens before a tail -/

/-- The tokens of a text that ends before a `;`, before another tail. The white space of the tail is
a token of its own, as far as no code of an escaped character takes it. -/
theorem tokens_tail {ts : List Lexeme} (ha : Firm a) (hw : Spaces w) (hr : StartsMark r)
    (h : tokens (a ++ [';']) = ts ++ [⟨.semicolon, [';'], 0⟩]) :
    ∃ us v, us.map Lexeme.token = ts.map Lexeme.token ∧ Spaces v ∧
      tokens (a ++ (w ++ r)) = us ++ ((gap v).lexemes ++ tokens r) := by
  induction ts generalizing a with
  | nil =>
    have hl := congrArg (List.flatMap Lexeme.text) h
    rw [flatMap_text_tokens] at hl
    obtain rfl : a = [] := (List.append_left_inj [';']).mp hl
    exact ⟨[], w, rfl, hw, tokens_gap hw hr.isSpace⟩
  | cons t ts ih =>
    cases a with
    | nil =>
      rw [List.nil_append, tokens_semicolon, tokens_nil, List.cons_append] at h
      cases ts <;> cases (List.cons.inj h).2
    | cons c a =>
      have hq : IsTail (w ++ r) := ⟨w, r, rfl, hw, hr⟩
      rw [List.cons_append, tokens_cons, List.cons_append] at h
      obtain ⟨ht, hts⟩ := List.cons.inj h
      have hle : (nextToken c (a ++ [';'])).length - 1 ≤ a.length := by
        by_contra hlt
        rw [List.drop_eq_nil_of_le (by simp; omega), tokens_nil] at hts
        cases ts <;> cases hts
      obtain ⟨hv, hl⟩ := nextToken_border (z := ';') (s := []) rfl hq.isBorder (.inl ha)
        (by rw [List.length_cons]; omega)
      rw [List.length_cons] at hl
      have hd : ∃ us v, us.map Lexeme.token = ts.map Lexeme.token ∧ Spaces v ∧
          tokens ((a ++ (w ++ r)).drop ((nextToken c (a ++ (w ++ r))).length - 1)) =
            us ++ ((gap v).lexemes ++ tokens r) := by
        rw [List.drop_append_of_le_length hle] at hts
        rcases hl with hl | ⟨hx, hy⟩
        · rw [hl, List.drop_append_of_le_length hle]
          exact ih (ha.tail.drop _) hts
        · -- The code of an escaped character is all that is left, and it takes a space.
          obtain ⟨v, hv, hd⟩ := exists_drop_space hw hr
          have hts : ts = [] := by
            rw [hx, Nat.add_sub_cancel, List.drop_length, List.nil_append, tokens_semicolon,
              tokens_nil] at hts
            exact (List.append_left_inj [_]).mp hts.symm
          rw [hts, hy, Nat.add_right_comm, Nat.add_sub_cancel, ← List.drop_drop, List.drop_left, hd]
          exact ⟨[], v, rfl, hv, tokens_gap hv hr.isSpace⟩
      obtain ⟨us, v, hus, hvs, hd⟩ := hd
      rw [List.cons_append, tokens_cons, hd]
      refine ⟨_ :: us, v, ?_, hvs, rfl⟩
      rw [List.map_cons, List.map_cons, hus, ← ht, hv]

/-! ## Behind a slice -/

/-- The text behind a slice starts with the mark that ends it. -/
theorem IsEnd.startsMark {before behind : List Lexeme} {text : List Char} (h : IsEnd behind)
    (ht : tokens text = before ++ behind) : StartsMark (spelled behind) := by
  have hs := tokens_spelled ht
  rcases h with rfl | ⟨l, ls, rfl, hl⟩
  · exact .nil
  · have hz : ∃ z, l.token.sign? = some z ∧ isMark z = true ∧ z ≠ '!' := by
      rcases hl with hl | hl | hl
      all_goals
        rw [hl]
        exact ⟨_, rfl, rfl, by decide⟩
    obtain ⟨z, hz, hm, hi⟩ := hz
    cases hcs : spelled (l :: ls) with
    | nil => exact .nil
    | cons c cs =>
      rw [hcs, tokens_cons] at hs
      obtain ⟨hl, -⟩ := List.cons.inj hs
      obtain rfl : c = z := eq_of_sign? (by rw [← hz, ← hl])
      exact .cons hm hi cs

end ModularScale.Css
