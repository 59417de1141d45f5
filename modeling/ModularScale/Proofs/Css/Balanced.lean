import ModularScale.Css.Component

/-! # Balanced components

Components in which each opening bracket is closed by one of its kind, and no other closing bracket
would have closed it. They are read back from their tokens, in whatever place these stand.
-/

namespace ModularScale.Css.Components

def append : Components → Components → Components
  | nil, ds => ds
  | leaf l rest, ds => leaf l (rest.append ds)
  | block l bracket inner closing rest, ds => block l bracket inner closing (rest.append ds)

instance : Append Components := ⟨append⟩

variable {cs ds : Components} {inside : Option Bracket} {l c : Lexeme} {ls : List Lexeme}
  {bracket : Bracket}

@[simp] theorem nil_append (ds : Components) : nil ++ ds = ds := rfl

@[simp] theorem leaf_append (l : Lexeme) (cs ds : Components) :
    leaf l cs ++ ds = leaf l (cs ++ ds) := rfl

@[simp] theorem block_append (l : Lexeme) (bracket : Bracket) (inner : Components)
    (closing : Option Lexeme) (cs ds : Components) :
    block l bracket inner closing cs ++ ds = block l bracket inner closing (cs ++ ds) := rfl

@[simp] theorem append_nil (cs : Components) : cs ++ nil = cs := by
  induction cs with
  | nil => rfl
  | leaf l rest ih => rw [leaf_append, ih]
  | block l bracket inner closing rest _ ih => rw [block_append, ih]

theorem append_assoc (cs ds es : Components) : cs ++ ds ++ es = cs ++ (ds ++ es) := by
  induction cs with
  | nil => rfl
  | leaf l rest ih => simp only [leaf_append, ih]
  | block l bracket inner closing rest _ ih => simp only [block_append, ih]

@[simp] theorem lexemes_append (cs ds : Components) :
    (cs ++ ds).lexemes = cs.lexemes ++ ds.lexemes := by
  induction cs with
  | nil => rfl
  | leaf l rest ih => simp [lexemes, ih]
  | block l bracket inner closing rest _ ih => simp [lexemes, ih]

/-- Whether a token closes the bracket around it. -/
def closesInside (inside : Option Bracket) (l : Lexeme) : Bool :=
  l.token.closes?.isSome && l.token.closes? = inside

theorem closesInside_none (l : Lexeme) : closesInside none l = false := by
  cases h : l.token.closes? <;> simp [closesInside, h]

/-- Whether components inside a bracket, or outside of all, are balanced. -/
def balanced (inside : Option Bracket) : Components → Bool
  | nil => true
  | leaf l rest => l.token.opens? = none && !closesInside inside l && rest.balanced inside
  | block l bracket inner closing rest =>
    l.token.opens? = some bracket && inner.balanced (some bracket) &&
      closing.any (·.token.closes? = some bracket) && rest.balanced inside

/-! ### Reading one token -/

theorem read_opening (inside : Option Bracket) (ls : List Lexeme)
    (h : l.token.opens? = some bracket) :
    (read inside (l :: ls)).content = block l bracket (read (some bracket) ls).content
        (read (some bracket) ls).closing (read inside (read (some bracket) ls).after).content ∧
      (read inside (l :: ls)).closing = (read inside (read (some bracket) ls).after).closing ∧
      (read inside (l :: ls)).after = (read inside (read (some bracket) ls).after).after := by
  rw [read]
  split
  case h_1 b hb =>
    obtain rfl : bracket = b := Option.some.inj (h.symm.trans hb)
    exact ⟨rfl, rfl, rfl⟩
  case h_2 hb => simp [h] at hb

theorem read_closing (inside : Option Bracket) (ls : List Lexeme) (ho : l.token.opens? = none)
    (hc : closesInside inside l = true) :
    (read inside (l :: ls)).content = nil ∧ (read inside (l :: ls)).closing = some l ∧
      (read inside (l :: ls)).after = ls := by
  rw [read]
  split
  case h_1 b hb => simp [ho] at hb
  case h_2 =>
    rw [closesInside] at hc
    rw [if_pos hc]
    exact ⟨rfl, rfl, rfl⟩

theorem read_leaf (inside : Option Bracket) (ls : List Lexeme) (ho : l.token.opens? = none)
    (hc : closesInside inside l = false) :
    (read inside (l :: ls)).content = leaf l (read inside ls).content ∧
      (read inside (l :: ls)).closing = (read inside ls).closing ∧
      (read inside (l :: ls)).after = (read inside ls).after := by
  rw [read]
  split
  case h_1 b hb => simp [ho] at hb
  case h_2 =>
    rw [closesInside, Bool.eq_false_iff] at hc
    rw [if_neg hc]
    exact ⟨rfl, rfl, rfl⟩

/-- The parts of a reading, found in a number of steps that is given in advance. -/
def readParts : Nat → Option Bracket → List Lexeme → Components × Option Lexeme × List Lexeme
  | 0, _, _ => (nil, none, [])
  | _ + 1, _, [] => (nil, none, [])
  | steps + 1, inside, l :: ls =>
    match l.token.opens? with
    | some bracket =>
      let inner := readParts steps (some bracket) ls
      let tail := readParts steps inside inner.2.2
      (block l bracket inner.1 inner.2.1 tail.1, tail.2)
    | none =>
      if closesInside inside l then (nil, some l, ls)
      else
        let tail := readParts steps inside ls
        (leaf l tail.1, tail.2)

theorem readParts_eq {steps : Nat} (h : ls.length ≤ steps) :
    readParts steps inside ls =
      ((read inside ls).content, (read inside ls).closing, (read inside ls).after) := by
  induction steps generalizing inside ls with
  | zero =>
    rw [List.eq_nil_of_length_eq_zero (Nat.le_zero.mp h), read]
    rfl
  | succ steps ih =>
    cases ls with
    | nil => rw [read]; rfl
    | cons l ls =>
      have hl : ls.length ≤ steps := Nat.le_of_succ_le_succ h
      unfold readParts
      cases ho : l.token.opens? with
      | some bracket =>
        obtain ⟨hct, hcl, haf⟩ := read_opening inside ls ho
        simp only
        rw [ih hl, ih (Nat.le_trans (read (some bracket) ls).after_length hl), hct, hcl, haf]
      | none =>
        cases hc : closesInside inside l with
        | true =>
          obtain ⟨hct, hcl, haf⟩ := read_closing inside ls ho hc
          rw [hct, hcl, haf]
          rfl
        | false =>
          obtain ⟨hct, hcl, haf⟩ := read_leaf inside ls ho hc
          rw [hct, hcl, haf]
          simp only [Bool.false_eq_true, ↓reduceIte, ih hl]

theorem ofLexemes_leaf (h : l.token.opens? = none) (ls : List Lexeme) :
    ofLexemes (l :: ls) = leaf l (ofLexemes ls) :=
  (read_leaf none ls h (closesInside_none l)).1

theorem ofLexemes_opening (h : l.token.opens? = some bracket) (ls : List Lexeme) :
    ∃ inner closing rest, ofLexemes (l :: ls) = block l bracket inner closing rest :=
  ⟨_, _, _, (read_opening none ls h).1⟩

theorem ofLexemes_eq (ls : List Lexeme) : ofLexemes ls = (readParts ls.length none ls).1 := by
  rw [readParts_eq (Nat.le_refl _), ofLexemes]

/-! ### Reading balanced components -/

theorem opens?_of_closes? {token : Token} (h : token.closes? = some bracket) :
    token.opens? = none := by
  cases token <;> simp_all [Token.closes?, Token.opens?]

/-- The tokens of balanced components are read as these, and then the others. -/
theorem read_lexemes_append (h : cs.balanced inside = true) (ls : List Lexeme) :
    (read inside (cs.lexemes ++ ls)).content = cs ++ (read inside ls).content ∧
      (read inside (cs.lexemes ++ ls)).closing = (read inside ls).closing ∧
      (read inside (cs.lexemes ++ ls)).after = (read inside ls).after := by
  induction cs generalizing inside ls with
  | nil => exact ⟨rfl, rfl, rfl⟩
  | leaf l rest ih =>
    simp only [balanced, Bool.and_eq_true, decide_eq_true_eq, Bool.not_eq_true'] at h
    obtain ⟨⟨ho, hc⟩, hr⟩ := h
    obtain ⟨hct, hcl, haf⟩ := read_leaf inside (rest.lexemes ++ ls) ho hc
    obtain ⟨ict, icl, iaf⟩ := ih hr ls
    rw [lexemes, List.cons_append, hct, hcl, haf, ict, icl, iaf]
    exact ⟨rfl, rfl, rfl⟩
  | block l bracket inner closing rest ihi ihr =>
    simp only [balanced, Bool.and_eq_true, decide_eq_true_eq] at h
    obtain ⟨⟨⟨ho, hi⟩, hc⟩, hr⟩ := h
    obtain ⟨c, rfl, hb⟩ : ∃ c, closing = some c ∧ c.token.closes? = some bracket := by
      simpa [Option.any_eq_true] using hc
    obtain ⟨hct, hcl, haf⟩ := read_opening inside (inner.lexemes ++ c :: (rest.lexemes ++ ls)) ho
    obtain ⟨ict, icl, iaf⟩ := ihi hi (c :: (rest.lexemes ++ ls))
    obtain ⟨cct, ccl, caf⟩ := read_closing (some bracket) (rest.lexemes ++ ls)
      (opens?_of_closes? hb) (by simp [closesInside, hb])
    obtain ⟨rct, rcl, raf⟩ := ihr hr ls
    rw [cct] at ict
    rw [ccl] at icl
    rw [caf] at iaf
    have hl : (block l bracket inner (some c) rest).lexemes ++ ls =
        l :: (inner.lexemes ++ c :: (rest.lexemes ++ ls)) := by simp [lexemes]
    rw [hl, hct, hcl, haf, ict, icl, iaf, rct, rcl, raf]
    simp

theorem ofLexemes_lexemes (h : cs.balanced none = true) : ofLexemes cs.lexemes = cs := by
  obtain ⟨hc, -, -⟩ := read_lexemes_append h []
  rw [List.append_nil] at hc
  rw [ofLexemes, hc, read]
  exact append_nil cs

end ModularScale.Css.Components
