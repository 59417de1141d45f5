import ModularScale.Proofs.Css.Reading

/-! # Tokens on other lines

Where the lines of the tokens are changed, the items that are read stay the same and their lines
change with those of the tokens.
-/

namespace ModularScale

/-- A node on another line. -/
def Node.relined (f : Nat → Nat) (node : Node) : Node :=
  { node with line := node.line.map f }

namespace Css

variable {f : Nat → Nat} {inside : Option Bracket} {level : Level} {ls : List Lexeme}

/-- A token on another line. -/
def Lexeme.relined (f : Nat → Nat) (l : Lexeme) : Lexeme :=
  { l with line := f l.line }

namespace Components

def relined (f : Nat → Nat) : Components → Components
  | nil => nil
  | leaf l rest => leaf (l.relined f) (rest.relined f)
  | block l bracket inner closing rest =>
    block (l.relined f) bracket (inner.relined f) (closing.map (Lexeme.relined f)) (rest.relined f)

theorem readParts_relined (f : Nat → Nat) (steps : Nat) :
    readParts steps inside (ls.map (Lexeme.relined f)) =
      ((readParts steps inside ls).1.relined f,
        (readParts steps inside ls).2.1.map (Lexeme.relined f),
        (readParts steps inside ls).2.2.map (Lexeme.relined f)) := by
  induction steps generalizing inside ls with
  | zero => rfl
  | succ steps ih =>
    cases ls with
    | nil => rfl
    | cons l ls =>
      simp only [List.map_cons, readParts]
      cases ho : l.token.opens? with
      | some bracket =>
        simp only [show (l.relined f).token = l.token from rfl, ho, ih]
        rfl
      | none =>
        simp only [show (l.relined f).token = l.token from rfl, ho,
          show closesInside inside (l.relined f) = closesInside inside l from rfl]
        split
        · rfl
        · simp only [ih]
          rfl

theorem ofLexemes_relined (f : Nat → Nat) (ls : List Lexeme) :
    ofLexemes (ls.map (Lexeme.relined f)) = (ofLexemes ls).relined f := by
  rw [ofLexemes_eq, ofLexemes_eq, readParts_relined, List.length_map]

theorem lexemes_relined (f : Nat → Nat) (cs : Components) :
    (cs.relined f).lexemes = cs.lexemes.map (Lexeme.relined f) := by
  induction cs with
  | nil => rfl
  | leaf l rest ih => simp [relined, lexemes, ih]
  | block l bracket inner closing rest ihi ihr =>
    cases closing <;> simp [relined, lexemes, ihi, ihr]

@[simp] theorem text_relined (f : Nat → Nat) (cs : Components) : (cs.relined f).text = cs.text := by
  rw [text, lexemes_relined, List.flatMap_map]
  rfl

theorem balanced_relined (f : Nat → Nat) (cs : Components) (inside : Option Bracket) :
    (cs.relined f).balanced inside = cs.balanced inside := by
  induction cs generalizing inside with
  | nil => rfl
  | leaf l rest ih => exact congrArg (_ && ·) (ih inside)
  | block l bracket inner closing rest ihi ihr =>
    simp only [relined, balanced, ihi, ihr]
    cases closing <;> rfl

@[simp] theorem run_relined (f : Nat → Nat) (stop : Stop) (cs : Components) :
    (cs.relined f).run stop =
      ⟨(cs.run stop).text, (cs.run stop).block.map (relined f), (cs.run stop).after.relined f⟩ := by
  induction cs with
  | nil => rfl
  | leaf l rest ih =>
    simp only [relined, run, show (l.relined f).token = l.token from rfl]
    split
    · rfl
    · rw [ih]
      rfl
  | block l bracket inner closing rest _ ih =>
    simp only [relined, run]
    split
    · rfl
    · rw [ih, text_relined]
      cases closing <;> rfl

@[simp] theorem afterColon?_relined (f : Nat → Nat) (cs : Components) :
    (cs.relined f).afterColon? = cs.afterColon?.map (relined f) := by
  induction cs with
  | nil => rfl
  | leaf l rest ih =>
    simp only [relined, afterColon?, show (l.relined f).token = l.token from rfl, ih]
    split
    · rfl
    · split <;> rfl
  | block => rfl

/-- An item on other lines. -/
def Item.relined (f : Nat → Nat) (item : Item) : Item :=
  ⟨item.kind, item.content.relined f, item.after.relined f⟩

theorem atRuleItem_relined (f : Nat → Nat) (name : List Char) (cs : Components) :
    atRuleItem name (cs.relined f) = (atRuleItem name cs).relined f := by
  simp only [atRuleItem, run_relined, Item.relined]
  cases (cs.run nestedStop).block <;> rfl

theorem ruleItem_relined (f : Nat → Nat) (stop : Stop) (cs : Components) :
    ruleItem stop (cs.relined f) = (ruleItem stop cs).relined f := by
  simp only [ruleItem, run_relined, Item.relined]
  cases (cs.run stop).block <;> rfl

theorem declarationItem_relined (f : Nat → Nat) (name : List Char) (cs : Components) :
    declarationItem name (cs.relined f) = (declarationItem name cs).relined f := by
  simp only [declarationItem, run_relined, Item.relined]
  rfl

theorem customItem_relined (f : Nat → Nat) (cs : Components) :
    customItem (cs.relined f) = (customItem cs).relined f := by
  simp only [customItem, run_relined, Item.relined]
  rfl

theorem bodyItem_relined (f : Nat → Nat) (cs : Components) :
    (cs.relined f).bodyItem = cs.bodyItem.relined f := by
  cases cs with
  | nil => rfl
  | block l bracket inner closing rest =>
    exact ruleItem_relined f _ (block l bracket inner closing rest)
  | leaf l rest =>
    obtain ⟨token, text, line⟩ := l
    cases token with
    | atKeyword name => exact atRuleItem_relined f name rest
    | ident name =>
      show bodyItem (leaf ⟨.ident name, text, f line⟩ (rest.relined f)) = _
      simp only [bodyItem, afterColon?_relined]
      cases rest.afterColon? with
      | none => exact ruleItem_relined f _ (leaf ⟨.ident name, text, line⟩ rest)
      | some value => exact declarationItem_relined f name value
    | _ => exact ruleItem_relined f _ (leaf ⟨_, text, line⟩ rest)

theorem sheetItem_relined (f : Nat → Nat) (cs : Components) :
    (cs.relined f).sheetItem = cs.sheetItem.relined f := by
  cases cs with
  | nil => rfl
  | block l bracket inner closing rest =>
    exact ruleItem_relined f _ (block l bracket inner closing rest)
  | leaf l rest =>
    obtain ⟨token, text, line⟩ := l
    cases token with
    | atKeyword name => exact atRuleItem_relined f name rest
    | ident name =>
      show sheetItem (leaf ⟨.ident name, text, f line⟩ (rest.relined f)) = _
      simp only [sheetItem, afterColon?_relined, Option.isSome_map]
      split
      · exact customItem_relined f (leaf ⟨.ident name, text, line⟩ rest)
      · exact ruleItem_relined f _ (leaf ⟨.ident name, text, line⟩ rest)
    | _ => exact ruleItem_relined f _ (leaf ⟨_, text, line⟩ rest)

theorem startsItem_relined (f : Nat → Nat) (level : Level) (cs : Components) :
    level.startsItem (cs.relined f) = level.startsItem cs := by
  cases cs <;> rfl

theorem drops_relined (f : Nat → Nat) (level : Level) (cs : Components) :
    level.drops (cs.relined f) = level.drops cs := by
  rcases level with first | _
  · cases first <;> cases cs <;> rfl
  · cases cs <;> rfl

theorem line_relined {cs : Components} (f : Nat → Nat) (h : level.startsItem cs = true) :
    (cs.relined f).line = f cs.line := by
  cases cs with
  | nil => cases h
  | leaf => rfl
  | block => rfl

end Components

open Components

theorem item_relined (f : Nat → Nat) (level : Level) (cs : Components) :
    level.item (cs.relined f) = (level.item cs).relined f := by
  cases level with
  | block => exact bodyItem_relined f cs
  | sheet first => exact sheetItem_relined f cs

/-- A sheet on other lines. -/
def Sheet.relined (f : Nat → Nat) (sheet : Sheet) : Sheet :=
  { sheet with items := sheet.items.map (Node.relined f) }

theorem Sheet.relined_consItem (f : Nat → Nat) (kind : Option Kind) (line : Nat)
    (content rest : Sheet) : (consItem kind line content rest).relined f =
      consItem kind (f line) (content.relined f) (rest.relined f) := by
  cases kind with
  | none => rfl
  | some kind => rfl

/-- The lines of the nodes are those of the tokens, and nothing else depends on them. -/
theorem read_relined (f : Nat → Nat) (level : Level) (cs : Components) (stray : Bool) :
    level.read stray (cs.relined f) = (level.read stray cs).relined f := by
  induction level, cs using Level.induction generalizing stray with
  | nil level =>
    cases level with
    | block => simp only [relined, Level.read, readBody]; rfl
    | sheet first => simp only [relined, Level.read, readSheet]; rfl
  | gap level l rest hp ih =>
    obtain ⟨token, text, line⟩ := l
    rw [relined, Lexeme.relined]
    rcases token_cases token with ht | ⟨comment, ht⟩ | ht
    · cases ht
      rw [read_space, read_space, ih]
    · cases ht
      rw [read_comment, read_comment]
      cases stray with
      | true => exact ih true
      | false =>
        rw [if_neg Bool.false_ne_true, if_neg Bool.false_ne_true, ih]
        rfl
    · rw [read_mark stray hp ht, ← ih]
      exact read_mark (l := ⟨token, text, f line⟩) stray hp ht
  | item level cs hs ihc iha =>
    have hs' : level.startsItem (cs.relined f) = true := startsItem_relined f level cs ▸ hs
    have hitem := item_relined f level cs
    cases hd : level.drops cs with
    | true =>
      rw [read_dropped hs hd, read_dropped hs' (drops_relined f level cs ▸ hd), hitem]
      exact iha true
    | false =>
      have hc : readBody false (level.item (cs.relined f)).content =
          (readBody false (level.item cs).content).relined f := by
        rw [hitem]
        exact ihc false
      have ha : level.next.read false (level.item (cs.relined f)).after =
          (level.next.read false (level.item cs).after).relined f := by
        rw [hitem]
        exact iha false
      rw [read_item hs hd, read_item hs' (drops_relined f level cs ▸ hd), Sheet.relined_consItem, hc,
        ha, line_relined f hs, hitem]
      rfl

end Css

end ModularScale
