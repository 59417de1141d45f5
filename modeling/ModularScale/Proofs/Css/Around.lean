import ModularScale.Proofs.Css.Solid

/-! # White space around components

Solid components with white space before and behind them, as they are read from a text.
-/

namespace ModularScale.Css

open Components

variable {inside : Option Bracket} {stop : Stop} {cs : Components} {c : Char} {v w r : List Char}

/-- A text of white space. -/
def Spaces (w : List Char) : Prop :=
  ∀ c ∈ w, isSpace c = true

theorem Spaces.append (hv : Spaces v) (hw : Spaces w) : Spaces (v ++ w) := by
  intro c hc
  rcases List.mem_append.mp hc with hc | hc
  · exact hv c hc
  · exact hw c hc

theorem isBlank_of_isSpace (h : isSpace c = true) : Text.isBlank c = true := by
  simp only [isSpace, isNewline, Bool.or_eq_true, beq_iff_eq] at h
  rcases h with (rfl | rfl) | (rfl | rfl) | rfl <;> rfl

theorem Spaces.isBlank (hw : Spaces w) : ∀ c ∈ w, Text.isBlank c = true := fun c hc =>
  isBlank_of_isSpace (hw c hc)

/-- A text of white space as components. -/
def gap (w : List Char) : Components :=
  if w = [] then nil else leaf ⟨.whiteSpace, w, 0⟩ nil

theorem balanced_gap (inside : Option Bracket) (w : List Char) :
    (gap w).balanced inside = true := by
  unfold gap
  split <;> rfl

theorem passes_gap (stop : Stop) (w : List Char) : (gap w).passes stop = true := by
  unfold gap
  split
  · rfl
  · simp [passes]

theorem text_gap (w : List Char) : (gap w).text = w := by
  unfold gap
  split
  case isTrue h => exact h.symm
  case isFalse => rw [text_leaf]; exact List.append_nil w

theorem read_gap_append (level : Level) (stray : Bool) (w : List Char) (ds : Components) :
    level.read stray (gap w ++ ds) = level.read stray ds := by
  unfold gap
  split
  · rfl
  · exact read_space stray w 0 ds

theorem tokens_gap (hw : Spaces w) (hr : startsWith isSpace r = false) :
    tokens (w ++ r) = (gap w).lexemes ++ tokens r := by
  cases w with
  | nil => rfl
  | cons c w =>
    have htake : (w ++ r).takeWhile isSpace = w := by
      have hr : r.takeWhile isSpace = [] := by
        rw [startsWith_eq, Bool.not_eq_false'] at hr
        exact List.isEmpty_iff.mp hr
      rw [List.takeWhile_append_of_pos fun d hd => hw d (List.mem_cons_of_mem c hd), hr,
        List.append_nil]
    have ht : nextToken c (w ++ r) = ⟨.whiteSpace, 1 + w.length⟩ := by
      rw [nextToken, if_pos (hw c List.mem_cons_self), htake]
    rw [List.cons_append, tokens_cons, ht, Nat.add_sub_cancel_left, List.take_left, List.drop_left]
    rfl

/-- Components are white space, a solid part and white space again. -/
structure Trims (inside : Option Bracket) (cs v core w : Components) : Prop where
  eq : cs = v ++ (core ++ w)
  before : v.isGap = true
  behind : w.isGap = true
  sound : Sound inside cs
  solid : Solid inside core

namespace Trims

variable {before core behind : Components}

theorem spaces_before (h : Trims inside cs before core behind) : Spaces before.text := by
  obtain ⟨rfl, hv, -, hs, -⟩ := h
  exact hs.left.isSpace_of_isGap hv

theorem spaces_behind (h : Trims inside cs before core behind) : Spaces behind.text := by
  obtain ⟨rfl, -, hw, hs, -⟩ := h
  exact hs.right.right.isSpace_of_isGap hw

theorem core_sound (h : Trims inside cs before core behind) : Sound inside core := by
  obtain ⟨rfl, -, -, hs, -⟩ := h
  exact hs.right.left

theorem text_eq (h : Trims inside cs before core behind) :
    cs.text = before.text ++ core.text ++ behind.text := by
  rw [h.eq, text_append, text_append, List.append_assoc]

theorem trim_text (h : Trims inside cs before core behind) : Text.trim cs.text = core.text := by
  rw [h.text_eq]
  exact h.solid.trimmed.trim_append h.spaces_before.isBlank h.spaces_behind.isBlank

theorem passes (h : Trims inside cs before core behind) (hp : cs.passes stop = true) :
    core.passes stop = true := by
  rw [h.eq, passes_append, passes_append, Bool.and_eq_true, Bool.and_eq_true] at hp
  exact hp.2.1

end Trims

theorem Sound.exists_trims (h : Sound inside cs) : ∃ v core w, Trims inside cs v core w := by
  obtain ⟨v, core, w, he, hv, hw, hs⟩ := h.exists_solid
  exact ⟨v, core, w, he, hv, hw, h, hs⟩

/-- Solid components with white space around them. -/
def around (v : List Char) (cs : Components) (w : List Char) : Components :=
  if cs = nil then gap (v ++ w) else gap v ++ (cs ++ gap w)

theorem text_around (v : List Char) (cs : Components) (w : List Char) :
    (around v cs w).text = v ++ cs.text ++ w := by
  unfold around
  split
  case isTrue h =>
    rw [h, text_gap]
    exact congrArg (· ++ w) (List.append_nil v).symm
  case isFalse => rw [text_append, text_append, text_gap, text_gap, List.append_assoc]

theorem balanced_around (h : cs.balanced inside = true) (v w : List Char) :
    (around v cs w).balanced inside = true := by
  unfold around
  split
  · exact balanced_gap inside _
  · simp [balanced_append, balanced_gap, h]

theorem passes_around (h : cs.passes stop = true) (v w : List Char) :
    (around v cs w).passes stop = true := by
  unfold around
  split
  · exact passes_gap stop _
  · simp [passes_append, passes_gap, h]

theorem Solid.text_ne_nil (h : Solid inside cs) (hne : cs ≠ nil) : cs.text ≠ [] := by
  intro ht
  have hl := h.tokens_append [] stops_nil
  rw [ht, List.append_nil, tokens_nil, List.append_nil] at hl
  exact hne (lexemes_eq_nil hl.symm)

theorem Solid.startsWith_text (h : Solid inside cs) (hne : cs ≠ nil) (r : List Char) :
    startsWith isSpace (cs.text ++ r) = false := by
  have hn := h.text_ne_nil hne
  have hh := h.trimmed.head
  cases ht : cs.text with
  | nil => exact absurd ht hn
  | cons c a =>
    rw [ht] at hh
    rw [← Bool.not_eq_true]
    intro hs
    have hb := isBlank_of_isSpace hs
    rw [hh c rfl] at hb
    cases hb

theorem tokens_around (h : Solid inside cs) (hv : Spaces v) (hw : Spaces w) (hs : Stops (w ++ r))
    (hr : startsWith isSpace r = false) :
    tokens (v ++ (cs.text ++ (w ++ r))) = (around v cs w).lexemes ++ tokens r := by
  unfold around
  split
  case isTrue hn =>
    rw [hn, ← tokens_gap (hv.append hw) hr, List.append_assoc]
    rfl
  case isFalse hn =>
    rw [tokens_gap hv (h.startsWith_text hn _), h.tokens_append _ hs, tokens_gap hw hr]
    simp

/-! ### Rows of tokens -/

/-- Whether a token is no bracket and ends no item. -/
def Token.isInline (token : Token) : Bool :=
  token.opens? = none && token.closes? = none && token ≠ .semicolon

/-- Tokens one after the other, none of them a bracket. -/
def row (ls : List Lexeme) : Components :=
  ls.foldr leaf nil

variable {l : Lexeme} {ls : List Lexeme}

theorem row_cons (l : Lexeme) (ls : List Lexeme) : row (l :: ls) = leaf l (row ls) := rfl

@[simp] theorem lexemes_row (ls : List Lexeme) : (row ls).lexemes = ls := by
  induction ls with
  | nil => rfl
  | cons l ls ih => exact congrArg (l :: ·) ih

theorem text_row (ls : List Lexeme) : (row ls).text = spelled ls := by
  rw [text_eq_spelled, lexemes_row]

theorem text_row_tokens (cs : List Char) : (row (tokens cs)).text = cs := by
  rw [text_row]
  exact flatMap_text_tokens cs

theorem balanced_row (h : ∀ l ∈ ls, l.token.isInline = true) (inside : Option Bracket) :
    (row ls).balanced inside = true := by
  induction ls with
  | nil => rfl
  | cons l ls ih =>
    obtain ⟨hl, h⟩ := List.forall_mem_cons.mp h
    simp only [Token.isInline, Bool.and_eq_true, decide_eq_true_eq] at hl
    simp [row_cons, balanced, closesInside, hl, ih h]

theorem passes_row (h : ∀ l ∈ ls, l.token.isInline = true) (stop : Stop) :
    (row ls).passes stop = true := by
  induction ls with
  | nil => rfl
  | cons l ls ih =>
    obtain ⟨hl, h⟩ := List.forall_mem_cons.mp h
    simp only [Token.isInline, Bool.and_eq_true, decide_eq_true_eq] at hl
    simp [row_cons, passes, hl, ih h]

end ModularScale.Css
