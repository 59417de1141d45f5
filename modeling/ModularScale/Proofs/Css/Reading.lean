import ModularScale.Css.Sheet
import ModularScale.Proofs.Css.Balanced

/-! # Places in a text

The reading of a style sheet goes from item to item and into their blocks. What is read at a place
that it comes to is part of the sheet.
-/

namespace ModularScale

namespace Forest

variable {α : Type u} {f g : Forest α}

/-- The trees of a forest from some node on, in the forest itself or below one of its nodes. -/
inductive Within (f : Forest α) : Forest α → Prop
  | refl : Within f f
  | child {a : α} {children rest : Forest α} : Within f children → Within f (cons a children rest)
  | sibling {a : α} {children rest : Forest α} : Within f rest → Within f (cons a children rest)

theorem Within.trans {h : Forest α} (hf : f.Within g) (hg : g.Within h) : f.Within h := by
  induction hg with
  | refl => exact hf
  | child _ ih => exact .child ih
  | sibling _ ih => exact .sibling ih

end Forest

namespace Css

namespace Components

variable {cs ds inner rest : Components} {stop : Stop} {l : Lexeme} {bracket : Bracket}
  {closing : Option Lexeme}

/-- The line on which components start. -/
def line : Components → Nat
  | nil => 0
  | leaf l _ => l.line
  | block l .. => l.line

@[simp] theorem text_append (cs ds : Components) : (cs ++ ds).text = cs.text ++ ds.text := by
  simp [text]

theorem text_leaf (l : Lexeme) (rest : Components) : (leaf l rest).text = l.text ++ rest.text := by
  simp [text, lexemes]

theorem text_block (l : Lexeme) (bracket : Bracket) (inner : Components) (closing : Option Lexeme)
    (rest : Components) : (block l bracket inner closing rest).text =
      l.text ++ inner.text ++ (closing.map Lexeme.text).getD [] ++ rest.text := by
  cases closing <;> simp [text, lexemes]

/-- Whether a run goes on behind components. -/
def passes (stop : Stop) : Components → Bool
  | nil => true
  | leaf l rest => !(stop.semicolon && l.token = .semicolon) && rest.passes stop
  | block _ bracket _ _ rest => !(stop.curly && bracket = .curly) && rest.passes stop

theorem run_append (h : cs.passes stop = true) (ds : Components) :
    (cs ++ ds).run stop = (ds.run stop).cons cs.text := by
  induction cs with
  | nil => rfl
  | leaf l rest ih =>
    simp only [passes, Bool.and_eq_true, Bool.not_eq_true'] at h
    rw [leaf_append, run, if_neg (by simp [h.1]), ih h.2, text_leaf]
    simp [Run.cons]
  | block l bracket inner closing rest _ ih =>
    simp only [passes, Bool.and_eq_true, Bool.not_eq_true'] at h
    rw [block_append, run, if_neg (by simp [h.1]), ih h.2, text_block]
    simp [Run.cons]

theorem afterColon?_append (hd : ds.afterColon? = none) :
    (cs ++ ds).afterColon? = cs.afterColon?.map (· ++ ds) := by
  induction cs with
  | nil => simpa [afterColon?] using hd
  | leaf l rest ih =>
    rw [leaf_append, afterColon?, afterColon?, ih]
    split
    · rfl
    · split <;> rfl
  | block => rfl

end Components

/-- Where items are read: in the sheet itself, in which nothing but gaps may stand before the first
item, or in a block. -/
inductive Level
  | sheet (first : Bool)
  | block
deriving DecidableEq, Repr

namespace Level

def read : Level → Bool → Components → Sheet
  | sheet first, stray, cs => readSheet first stray cs
  | block, stray, cs => readBody stray cs

def item : Level → Components → Components.Item
  | sheet _, cs => cs.sheetItem
  | block, cs => cs.bodyItem

/-- The level of the place behind an item. -/
def next : Level → Level
  | sheet _ => sheet false
  | block => block

/-- Whether a token stands between items. -/
def passesOver : Level → Token → Bool
  | sheet _, token => token.isGap || token = .markOpening || token = .markClosing
  | block, token => token.isGap || token = .semicolon

def startsItem (level : Level) : Components → Bool
  | .nil => false
  | .leaf l _ => !level.passesOver l.token
  | .block .. => true

/-- Whether an item is one that is passed over with all it holds. -/
def drops : Level → Components → Bool
  | sheet true, .leaf l _ => isCharset l.token
  | _, _ => false

end Level

/-- The places that the reading of a text comes to, each with the components from there on. -/
inductive Place (text : String) : Level → Components → Prop
  | start : Place text (.sheet true) (Components.ofText text.toList)
  | gap {level : Level} {l : Lexeme} {rest : Components} :
    Place text level (.leaf l rest) → level.passesOver l.token = true → Place text level rest
  | behind {level : Level} {cs : Components} :
    Place text level cs → level.startsItem cs = true → Place text level.next (level.item cs).after
  | inside {level : Level} {cs : Components} :
    Place text level cs → level.startsItem cs = true → level.drops cs = false →
      (level.item cs).kind.isSome = true → Place text .block (level.item cs).content

variable {level : Level} {cs : Components} {stray : Bool} {l : Lexeme} {rest : Components}

theorem Place.of_eq {text : String} (h : Components.ofText text.toList = cs) :
    Place text (.sheet true) cs :=
  h ▸ .start

theorem readBody_nil (stray : Bool) : readBody stray .nil = .empty := by
  rw [readBody]

theorem read_space (stray : Bool) (text : List Char) (line : Nat) (rest : Components) :
    level.read stray (.leaf ⟨.whiteSpace, text, line⟩ rest) = level.read stray rest := by
  cases level with
  | block => simp only [Level.read, readBody]
  | sheet first => simp only [Level.read, readSheet]

theorem read_comment (stray : Bool) (comment text : List Char) (line : Nat) (rest : Components) :
    level.read stray (.leaf ⟨.comment comment, text, line⟩ rest) =
      if stray then level.read true rest
      else .cons (.comment (String.ofList comment)) line .empty (level.read false rest) := by
  cases level with
  | block => simp only [Level.read, readBody]
  | sheet first => simp only [Level.read, readSheet]

/-- What is passed over and is no gap makes the comments behind it stray. -/
theorem read_mark (stray : Bool) (h : level.passesOver l.token = true)
    (hg : l.token.isGap = false) : level.read stray (.leaf l rest) = level.read true rest := by
  obtain ⟨token, text, line⟩ := l
  cases level with
  | block =>
    simp only [Level.read]
    cases token <;> simp_all [Level.passesOver, Token.isGap]
    rw [readBody]
  | sheet first =>
    simp only [Level.read]
    cases token <;> simp_all [Level.passesOver, Token.isGap]
    · rw [readSheet]
    · rw [readSheet]

theorem token_cases (token : Token) :
    token = .whiteSpace ∨ (∃ text, token = .comment text) ∨ token.isGap = false := by
  cases token with
  | whiteSpace => exact .inl rfl
  | comment text => exact .inr (.inl ⟨text, rfl⟩)
  | _ => exact .inr (.inr rfl)

theorem read_gap (h : level.passesOver l.token = true) :
    ∃ stray', (level.read stray' rest).items.Within (level.read stray (.leaf l rest)).items := by
  obtain ⟨token, text, line⟩ := l
  rcases token_cases token with ht | ⟨comment, ht⟩ | ht
  · cases ht
    exact ⟨stray, by rw [read_space]; exact .refl⟩
  · cases ht
    rw [read_comment]
    cases stray with
    | true => exact ⟨true, .refl⟩
    | false => exact ⟨false, .sibling .refl⟩
  · exact ⟨true, by rw [read_mark stray h ht]; exact .refl⟩

theorem readBody_item (stray : Bool) (h : Level.block.startsItem cs = true) :
    readBody stray cs = .consItem cs.bodyItem.kind cs.line
      (readBody false cs.bodyItem.content) (readBody false cs.bodyItem.after) := by
  rw [readBody.eq_def]
  split <;> simp [Level.startsItem, Level.passesOver, Token.isGap] at h
  · rfl
  · rfl

theorem readSheet_item (first stray : Bool) (h : (Level.sheet first).startsItem cs = true) :
    readSheet first stray cs = if (Level.sheet first).drops cs then
      readSheet false true cs.sheetItem.after
    else .consItem cs.sheetItem.kind cs.line
      (readBody false cs.sheetItem.content) (readSheet false false cs.sheetItem.after) := by
  rw [readSheet.eq_def]
  split <;> simp [Level.startsItem, Level.passesOver, Token.isGap] at h
  · cases first <;> rfl
  · cases first <;> rfl

theorem read_item (h : level.startsItem cs = true) (hd : level.drops cs = false) :
    level.read stray cs = .consItem (level.item cs).kind cs.line
      (readBody false (level.item cs).content) (level.next.read false (level.item cs).after) := by
  cases level with
  | block => exact readBody_item stray h
  | sheet first =>
    rw [Level.read, readSheet_item first stray h, hd]
    rfl

theorem read_dropped (h : level.startsItem cs = true) (hd : level.drops cs = true) :
    level.read stray cs = level.next.read true (level.item cs).after := by
  cases level with
  | block => cases hd
  | sheet first =>
    rw [Level.read, readSheet_item first stray h, hd]
    rfl

theorem size_item (level : Level) (cs : Components) :
    (level.item cs).content.size ≤ cs.size - 1 ∧ (level.item cs).after.size ≤ cs.size - 1 := by
  cases level with
  | block => exact Components.size_bodyItem cs
  | sheet first => exact Components.size_sheetItem cs

/-- The reading goes over what stands between items, into the items and behind them. -/
theorem Level.induction {motive : Level → Components → Prop}
    (nil : ∀ level, motive level .nil)
    (gap : ∀ level l rest, level.passesOver l.token = true → motive level rest →
      motive level (.leaf l rest))
    (item : ∀ level cs, level.startsItem cs = true → motive .block (level.item cs).content →
      motive level.next (level.item cs).after → motive level cs)
    (level : Level) (cs : Components) : motive level cs := by
  generalize hn : cs.size = n
  induction n using Nat.strongRecOn generalizing level cs with
  | _ n ih =>
    obtain ⟨hc, ha⟩ := size_item level cs
    cases cs with
    | nil => exact nil level
    | leaf l rest =>
      have hs : rest.size < n := hn ▸ Nat.lt_succ_self _
      cases hp : level.passesOver l.token with
      | true => exact gap level l rest hp (ih _ hs _ _ rfl)
      | false =>
        exact item level _ (by simp [startsItem, hp]) (ih _ (by omega) _ _ rfl)
          (ih _ (by omega) _ _ rfl)
    | block l bracket inner closing rest =>
      have hs : 0 < n := hn ▸ Nat.succ_pos _
      exact item level _ rfl (ih _ (by omega) _ _ rfl) (ih _ (by omega) _ _ rfl)

/-- What is read at a place is part of the sheet. -/
theorem Place.within {text : String} (h : Place text level cs) :
    ∃ stray, (level.read stray cs).items.Within (Sheet.ofText text).items := by
  induction h with
  | start => exact ⟨false, .refl⟩
  | gap _ hg ih =>
    obtain ⟨stray, ih⟩ := ih
    obtain ⟨stray', h⟩ := read_gap hg
    exact ⟨stray', h.trans ih⟩
  | @behind level cs _ hs ih =>
    obtain ⟨stray, ih⟩ := ih
    cases hd : level.drops cs with
    | true => exact ⟨true, read_dropped hs hd ▸ ih⟩
    | false =>
      rw [read_item hs hd] at ih
      refine ⟨false, .trans ?_ ih⟩
      cases (level.item cs).kind with
      | none => exact .refl
      | some kind => exact .sibling .refl
  | @inside level cs _ hs hd hk ih =>
    obtain ⟨stray, ih⟩ := ih
    rw [read_item hs hd] at ih
    obtain ⟨kind, hk⟩ := Option.isSome_iff_exists.mp hk
    rw [hk] at ih
    exact ⟨false, .trans (.child .refl) ih⟩

end Css

end ModularScale
