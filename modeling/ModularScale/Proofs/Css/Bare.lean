import ModularScale.Proofs.Css.Relined

/-! # Tokens without lines

What is read from a text depends on the lines of its tokens in nothing but the lines of its nodes.
-/

namespace ModularScale

/-- A kind without the white space before parameters that are not there. -/
def Kind.plain : Kind → Kind
  | .atRule name params afterName hasBlock =>
    .atRule name params (if params.isEmpty then "" else afterName) hasBlock
  | kind => kind

/-- A node without its line. -/
def Node.plain (node : Node) : Node :=
  .made node.kind.plain

namespace Css

variable {inside : Option Bracket} {stop : Stop} {level : Level} {stray first : Bool} {line : Nat}
  {cs : Components} {ls : List Lexeme}

/-- A lexeme, wherever it stands. -/
def Lexeme.bare (l : Lexeme) : Lexeme :=
  { l with line := 0 }

/-- The tokens of a text without their lines. -/
def tokens (cs : List Char) : List Lexeme :=
  (lexemes 0 cs).map Lexeme.bare

theorem map_bare_lexemes (line : Nat) (cs : List Char) :
    (lexemes line cs).map Lexeme.bare = tokens cs := by
  unfold tokens
  generalize (0 : Nat) = other
  fun_induction lexemes line cs generalizing other with
  | case1 => rw [lexemes]
  | case2 line c cs next text ih =>
    rw [lexemes]
    simp only [List.map_cons, ih (other + newlines text)]
    rfl

@[simp] theorem tokens_nil : tokens [] = [] := by
  rw [tokens, lexemes]
  rfl

theorem tokens_cons (c : Char) (cs : List Char) :
    tokens (c :: cs) =
      ⟨(nextToken c cs).value, c :: cs.take ((nextToken c cs).length - 1), 0⟩ ::
        tokens (cs.drop ((nextToken c cs).length - 1)) := by
  rw [tokens, lexemes, List.map_cons, map_bare_lexemes]
  rfl

theorem flatMap_text_tokens (cs : List Char) : (tokens cs).flatMap Lexeme.text = cs := by
  rw [tokens, List.flatMap_map]
  exact flatMap_text_lexemes 0 cs

namespace Components

def bare : Components → Components
  | nil => nil
  | leaf l rest => leaf l.bare rest.bare
  | block l bracket inner closing rest =>
    block l.bare bracket inner.bare (closing.map Lexeme.bare) rest.bare

theorem relined_zero (cs : Components) : cs.relined (fun _ => 0) = cs.bare := by
  induction cs with
  | nil => rfl
  | leaf l rest ih => exact congrArg (leaf l.bare) ih
  | block l bracket inner closing rest ihi ihr =>
    rw [relined, ihi, ihr]
    rfl

theorem ofLexemes_bare (ls : List Lexeme) :
    ofLexemes (ls.map Lexeme.bare) = (ofLexemes ls).bare := by
  rw [← relined_zero]
  exact ofLexemes_relined (fun _ => 0) ls

theorem balanced_bare (inside : Option Bracket) (cs : Components) :
    cs.bare.balanced inside = cs.balanced inside := by
  rw [← relined_zero, balanced_relined]

theorem bare_ofText (text : List Char) : (ofText text).bare = ofLexemes (tokens text) := by
  rw [ofText, ← ofLexemes_bare, map_bare_lexemes]

end Components

open Components

/-- A sheet without the lines of its nodes. -/
def Sheet.bare (sheet : Sheet) : Sheet :=
  ⟨sheet.items.map fun node => .made node.kind, sheet.skipped⟩

theorem Sheet.bare_relined (f : Nat → Nat) (sheet : Sheet) :
    (sheet.relined f).bare = sheet.bare := by
  obtain ⟨items, skipped⟩ := sheet
  show (⟨(items.map _).map _, skipped⟩ : Sheet) = _
  rw [Forest.map_map]
  rfl

/-- The lines of the tokens are all that the lines of the nodes depend on, and nothing else does. -/
theorem bare_read (level : Level) (cs : Components) (stray : Bool) :
    (level.read stray cs.bare).bare = (level.read stray cs).bare := by
  rw [← relined_zero, read_relined, Sheet.bare_relined]

theorem Sheet.map_plain_bare (sheet : Sheet) :
    sheet.bare.items.map Node.plain = sheet.items.map Node.plain := by
  rw [bare, Forest.map_map]
  rfl

/-- The items are the same without the lines of the tokens. -/
theorem read_bare (level : Level) (cs : Components) (stray : Bool) :
    (level.read stray cs.bare).items.map Node.plain =
      (level.read stray cs).items.map Node.plain := by
  rw [← Sheet.map_plain_bare, bare_read, Sheet.map_plain_bare]

/-- A sheet as it is read from the tokens of its text without their lines. -/
theorem Sheet.map_plain_ofText (text : String) :
    (ofText text).items.map Node.plain =
      (readSheet true false (ofLexemes (tokens text.toList))).items.map Node.plain := by
  rw [← map_bare_lexemes 1 text.toList, ofLexemes_bare]
  exact (read_bare (.sheet true) _ false).symm

end Css

end ModularScale
