import ModularScale.Css.Token

/-! # Components

Tokens grouped by their brackets. A closing bracket closes the innermost open one if the two match
and stands for itself if they do not; the end of the text closes all that is open.
-/

namespace ModularScale.Css

inductive Components
  | nil
  | leaf (lexeme : Lexeme) (rest : Components)
  | block (opening : Lexeme) (bracket : Bracket) (inner : Components) (closing : Option Lexeme)
      (rest : Components)
deriving DecidableEq, Repr

namespace Components

/-- Components up to a closing bracket, that bracket, and the tokens behind it. -/
structure Reading (size : Nat) where
  content : Components
  closing : Option Lexeme
  after : List Lexeme
  after_length : after.length ≤ size

/-- Reads what stands inside an open bracket, or a whole text. -/
def read (inside : Option Bracket) (ls : List Lexeme) : Reading ls.length :=
  match ls with
  | [] => ⟨nil, none, [], Nat.le_refl _⟩
  | l :: ls =>
    match l.token.opens? with
    | some bracket =>
      let inner := read (some bracket) ls
      let tail := read inside inner.after
      ⟨block l bracket inner.content inner.closing tail.content, tail.closing, tail.after, by
        have := inner.after_length
        have := tail.after_length
        simp only [List.length_cons]; omega⟩
    | none =>
      if l.token.closes?.isSome && l.token.closes? = inside then
        ⟨nil, some l, ls, by simp⟩
      else
        let tail := read inside ls
        ⟨leaf l tail.content, tail.closing, tail.after, by
          have := tail.after_length
          simp only [List.length_cons]; omega⟩
termination_by ls.length
decreasing_by
  · exact Nat.lt_succ_self _
  · exact Nat.lt_succ_of_le inner.after_length
  · exact Nat.lt_succ_of_le inner.after_length
  · exact Nat.lt_succ_self _

def ofLexemes (ls : List Lexeme) : Components :=
  (read none ls).content

def ofText (cs : List Char) : Components :=
  ofLexemes (lexemes 1 cs)

def lexemes : Components → List Lexeme
  | nil => []
  | leaf l rest => l :: rest.lexemes
  | block l _ inner closing rest => l :: inner.lexemes ++ closing.toList ++ rest.lexemes

/-- Grouping keeps every token: what was read and what is left make up the tokens given. -/
theorem lexemes_read (inside : Option Bracket) (ls : List Lexeme) :
    (read inside ls).content.lexemes ++ (read inside ls).closing.toList ++ (read inside ls).after =
      ls := by
  fun_induction read inside ls with
  | case1 => rfl
  | case2 inside l ls bracket _ inner tail ih₁ ih₂ =>
    simp only [lexemes, List.cons_append, List.append_assoc] at ih₁ ih₂ ⊢
    rw [ih₂, ih₁]
  | case3 => simp [lexemes]
  | case4 inside l ls _ _ tail ih =>
    simp only [lexemes, List.cons_append] at ih ⊢
    rw [ih]

/-- Outside of brackets nothing is closed and all tokens are read. -/
theorem closing_read_none (ls : List Lexeme) :
    (read none ls).closing = none ∧ (read none ls).after = [] := by
  generalize h : (none : Option Bracket) = inside
  fun_induction read inside ls with
  | case1 => simp
  | case2 inside l ls bracket _ inner tail ih₁ ih₂ => exact ih₂ h
  | case3 inside l ls _ hc =>
    subst h
    cases hl : l.token.closes? <;> simp [hl] at hc
  | case4 inside l ls _ _ tail ih => exact ih h

theorem lexemes_ofLexemes (ls : List Lexeme) : (ofLexemes ls).lexemes = ls := by
  have h := lexemes_read none ls
  rw [(closing_read_none ls).1, (closing_read_none ls).2] at h
  simpa [ofLexemes] using h

/-- The text that components were read from. -/
def text (cs : Components) : List Char :=
  cs.lexemes.flatMap Lexeme.text

theorem text_ofText (cs : List Char) : (ofText cs).text = cs := by
  simp [text, ofText, lexemes_ofLexemes, flatMap_text_lexemes]

def size : Components → Nat
  | nil => 0
  | leaf _ rest => rest.size + 1
  | block _ _ inner _ rest => inner.size + rest.size + 1

/-- What follows the white space and the comments at the start. -/
def dropGaps : Components → Components
  | leaf l rest => if l.token.isGap then rest.dropGaps else leaf l rest
  | cs => cs

/-- The marks at which a run of components ends: a `;`, a block in curly brackets, or either. -/
structure Stop where
  semicolon : Bool
  curly : Bool

/-- A run of components up to where it ends: its text, the content of the block there if it ends
at one, and what follows the run. -/
structure Run where
  text : List Char
  block : Option Components
  after : Components

def Run.cons (text : List Char) (run : Run) : Run :=
  { run with text := text ++ run.text }

def run (stop : Stop) : Components → Run
  | nil => ⟨[], none, nil⟩
  | leaf l rest =>
    if stop.semicolon && l.token = .semicolon then ⟨[], none, rest⟩
    else (rest.run stop).cons l.text
  | block l bracket inner closing rest =>
    if stop.curly && bracket = .curly then ⟨[], some inner, rest⟩
    else
      (rest.run stop).cons (l.text ++ inner.text ++ (closing.map Lexeme.text).getD [])

theorem size_run (stop : Stop) (cs : Components) :
    (cs.run stop).after.size + ((cs.run stop).block.map size).getD 0 ≤ cs.size - 1 := by
  induction cs with
  | nil => simp [run, size]
  | leaf l rest ih =>
    unfold run
    split
    · simp [size]
    · simp only [Run.cons, size] at ih ⊢; omega
  | block l bracket inner closing rest _ ih =>
    unfold run
    split
    · simp [size]; omega
    · simp only [Run.cons, size] at ih ⊢; omega

end Components

end ModularScale.Css
