import Mathlib
import ModularScale.Proofs.Css.Ending
import ModularScale.Proofs.Css.Items

/-! # Sequences of top-level items

Complete items with white space between them are read one after the other, each from its own text.
A `;` or a closing bracket at the end of an item keeps what follows apart from it.
-/

namespace ModularScale.Css

open Components

/-- The tokens that end an item. -/
def Lexeme.semicolon : Lexeme :=
  ⟨.semicolon, [';'], 0⟩

def Lexeme.closingCurly : Lexeme :=
  ⟨.closing .curly, ['\x7d'], 0⟩

namespace Components

/-- Components of a single item that is ended as it should, with the node it is meant to be and what
its block holds. -/
inductive IsItem : Components → Kind → Components → Prop
  | statement {name text : List Char} {line : Nat} {head : Components}
      (h : head.passes nestedStop = true) :
    IsItem (leaf ⟨.atKeyword name, text, line⟩ (head ++ leaf .semicolon nil))
      (atRule name head.text false) nil
  | atBlock {name text : List Char} {line : Nat} {head content : Components} {l : Lexeme}
      (h : head.passes nestedStop = true) :
    IsItem (leaf ⟨.atKeyword name, text, line⟩
        (head ++ block l .curly content (some .closingCurly) nil))
      (atRule name head.text true) content
  | rule {head content : Components} {l : Lexeme} (h : head.passes ruleStop = true)
      (hs : (head ++ block l .curly content (some .closingCurly) nil).startsQualified = true) :
    IsItem (head ++ block l .curly content (some .closingCurly) nil) (rule head.text) content

variable {cs ds content : Components} {kind : Kind} {first : Bool}

namespace IsItem

theorem startsItem (h : cs.IsItem kind content) : (Level.sheet first).startsItem cs = true := by
  cases h with
  | statement => rfl
  | atBlock => rfl
  | rule h hs => exact startsItem_of_startsQualified hs

theorem item_append (h : cs.IsItem kind content) (ds : Components) :
    (cs ++ ds).sheetItem = if cs.startsCustom then ⟨none, nil, ds⟩ else ⟨some kind, content, ds⟩ := by
  cases h with
  | statement h =>
    rw [leaf_append, Components.append_assoc, leaf_append, nil_append, startsCustom,
      if_neg Bool.false_ne_true, sheetItem_statement h rfl]
    rintro name text line rest ⟨⟩
  | atBlock h =>
    rw [leaf_append, Components.append_assoc, block_append, nil_append, startsCustom,
      if_neg Bool.false_ne_true, sheetItem_atBlock h]
    rintro name text line rest ⟨⟩
  | rule h hs =>
    rw [Components.append_assoc, block_append, nil_append, sheetItem_rule h hs]

/-- An item ends with a token that keeps apart what follows. -/
theorem exists_last (h : cs.IsItem kind content) : ∃ ls l z, cs.lexemes = ls ++ [l] ∧
    l.token.barrier? = some z ∧ l.token.isClosed l.text = true := by
  cases h with
  | @statement name text line head =>
    refine ⟨⟨.atKeyword name, text, line⟩ :: head.lexemes, .semicolon, ';', ?_, rfl, rfl⟩
    simp [lexemes]
  | @atBlock name text line head content l =>
    refine ⟨⟨.atKeyword name, text, line⟩ :: (head.lexemes ++ l :: content.lexemes), .closingCurly,
      '\x7d', ?_, rfl, rfl⟩
    simp [lexemes]
  | @rule head content l =>
    refine ⟨head.lexemes ++ l :: content.lexemes, .closingCurly, '\x7d', ?_, rfl, rfl⟩
    simp [lexemes]

end IsItem

end Components

/-- The text of an item behind white space, with the node it is meant to be and what its block
holds. -/
structure TopItem where
  before : List Char
  text : List Char
  kind : Kind
  content : Components
  spaces : Spaces before
  balanced : (ofLexemes (tokens text)).balanced none = true
  isItem : (ofLexemes (tokens text)).IsItem kind content

namespace TopItem

def components (item : TopItem) : Components :=
  ofLexemes (tokens item.text)

/-- Whether an item is a `@charset`. -/
def isCharset (item : TopItem) : Bool :=
  (Level.sheet true).drops item.components

/-- Whether the prelude of an item starts like the declaration of a custom property. -/
def startsCustom (item : TopItem) : Bool :=
  item.components.startsCustom

/-- The text of a sequence of items. -/
def written (items : List TopItem) : List Char :=
  items.flatMap fun item => item.before ++ item.text

/-- The components of a sequence of items and of the white space behind them. -/
def layout (w : List Char) : List TopItem → Components
  | [] => gap w
  | item :: items => gap item.before ++ (item.components ++ layout w items)

variable {items : List TopItem} {w : List Char}

theorem lexemes_components (item : TopItem) : item.components.lexemes = tokens item.text :=
  lexemes_ofLexemes _

theorem tokens_append (item : TopItem) (r : List Char) :
    tokens (item.text ++ r) = item.components.lexemes ++ tokens r := by
  obtain ⟨ls, l, z, hl, hz, hc⟩ := item.isItem.exists_last
  rw [lexemes_components]
  exact Css.tokens_append (item.lexemes_components.symm.trans hl) hz hc r

theorem startsWith_text (item : TopItem) (r : List Char) :
    startsWith isSpace (item.text ++ r) = false := by
  have hs : (Level.sheet false).startsItem item.components = true := item.isItem.startsItem
  have hb := item.balanced
  have hl := item.lexemes_components
  cases ht : item.text with
  | nil =>
    rw [ht, tokens_nil] at hl
    rw [lexemes_eq_nil hl] at hs
    cases hs
  | cons c a =>
    rw [ht, tokens_cons] at hl
    rw [← Bool.not_eq_true]
    intro (hc : isSpace c = true)
    have hv : (nextToken c a).value = .whiteSpace := by rw [nextToken, if_pos hc]
    rw [hv] at hl
    change item.components.balanced none = true at hb
    generalize item.components = cs at *
    cases cs with
    | nil => cases hs
    | leaf l rest =>
      rw [Components.lexemes, List.cons.injEq] at hl
      rw [hl.1] at hs
      cases hs
    | block l bracket inner closing rest =>
      simp only [Components.lexemes, List.cons_append, List.cons.injEq] at hl
      rw [hl.1] at hb
      cases hb

theorem tokens_written (hw : Spaces w) (items : List TopItem) :
    tokens (written items ++ w) = (layout w items).lexemes := by
  induction items with
  | nil =>
    have h := tokens_gap hw (r := []) rfl
    rw [List.append_nil, tokens_nil, List.append_nil] at h
    exact h
  | cons item items ih =>
    rw [written, List.flatMap_cons, List.append_assoc, List.append_assoc,
      tokens_gap item.spaces (item.startsWith_text _), tokens_append]
    rw [written] at ih
    rw [ih, layout, lexemes_append, lexemes_append]

theorem balanced_layout (w : List Char) (items : List TopItem) :
    (layout w items).balanced none = true := by
  induction items with
  | nil => exact balanced_gap none w
  | cons item items ih =>
    rw [layout, balanced_append, balanced_append, balanced_gap, ih, Bool.and_true, Bool.true_and]
    exact item.balanced

theorem ofLexemes_written (hw : Spaces w) (items : List TopItem) :
    ofLexemes (tokens (written items ++ w)) = layout w items := by
  rw [tokens_written hw, ofLexemes_lexemes (balanced_layout w items)]

end TopItem

open TopItem

/-- A sheet has a node for each item in order, but for those that start like the declaration of a
custom property. These are skipped, and so are malformed items inside the blocks of the others, but
nothing else. -/
structure Sheet.Lists (sheet : Sheet) (items : List TopItem) : Prop where
  kinds : sheet.items.tops.map Node.kind = (items.filter (!·.startsCustom)).map TopItem.kind
  skipped : sheet.skipped = items.countP TopItem.startsCustom +
    ((items.filter (!·.startsCustom)).map fun item => (readBody false item.content).skipped).sum

theorem startsItem_append {level : Level} {cs : Components} (h : level.startsItem cs = true)
    (ds : Components) : level.startsItem (cs ++ ds) = true := by
  cases cs with
  | nil => cases h
  | leaf => exact h
  | block => rfl

theorem drops_append {level : Level} {cs : Components} (h : level.startsItem cs = true)
    (ds : Components) : level.drops (cs ++ ds) = level.drops cs := by
  cases cs with
  | nil => cases h
  | leaf | block =>
    rcases level with first | _
    · cases first <;> rfl
    · rfl

namespace Sheet.Lists

variable {items : List TopItem} {item : TopItem} {first stray : Bool} {w : List Char}

theorem gap (first stray : Bool) (w : List Char) :
    (readSheet first stray (layout w [])).Lists [] := by
  have h : readSheet first stray (layout w []) = .empty := by
    have h := read_gap_append (.sheet first) stray w .nil
    rw [append_nil] at h
    exact h.trans (by rw [Level.read, readSheet])
  rw [h]
  exact ⟨rfl, rfl⟩

/-- One more item in front is read and what follows it remains to be read. -/
theorem cons (hc : first = true → item.isCharset = false)
    (h : (readSheet false false (layout w items)).Lists items) :
    (readSheet first stray (layout w (item :: items))).Lists (item :: items) := by
  have hs : (Level.sheet first).startsItem item.components = true := item.isItem.startsItem
  have hd : (Level.sheet first).drops (item.components ++ layout w items) = false := by
    rw [drops_append hs]
    cases first with
    | false => cases item.components <;> rfl
    | true => exact hc rfl
  have hi : (Level.sheet first).item (item.components ++ layout w items) =
      if item.startsCustom then ⟨none, .nil, layout w items⟩
      else ⟨some item.kind, item.content, layout w items⟩ := item.isItem.item_append _
  have hr : readSheet first stray (layout w (item :: items)) = .consItem
      ((Level.sheet first).item (item.components ++ layout w items)).kind
      (item.components ++ layout w items).line
      (readBody false ((Level.sheet first).item (item.components ++ layout w items)).content)
      (readSheet false false
        ((Level.sheet first).item (item.components ++ layout w items)).after) := by
    rw [layout]
    exact (read_gap_append (.sheet first) stray item.before _).trans
      (read_item (startsItem_append hs _) hd)
  rw [hr, hi]
  obtain ⟨hk, hn⟩ := h
  cases hz : item.startsCustom with
  | true =>
    refine ⟨?_, ?_⟩
    · rw [List.filter_cons_of_neg (by simp [hz])]
      exact hk
    · rw [List.filter_cons_of_neg (by simp [hz]), List.countP_cons_of_pos hz]
      show (readSheet false false (layout w items)).skipped + 1 = _
      omega
  | false =>
    refine ⟨?_, ?_⟩
    · rw [List.filter_cons_of_pos (by simp [hz]), List.map_cons, ← hk]
      rfl
    · rw [List.filter_cons_of_pos (by simp [hz]), List.countP_cons_of_neg (by simp [hz]),
        List.map_cons, List.sum_cons]
      show (readBody false item.content).skipped +
        (readSheet false false (layout w items)).skipped = _
      omega

theorem of_layout (stray : Bool) (w : List Char) (items : List TopItem) :
    (readSheet false stray (layout w items)).Lists items := by
  induction items generalizing stray with
  | nil => exact gap false stray w
  | cons item items ih => exact cons (by simp) (ih false)

theorem of_bare {sheet sheet' : Sheet} (hb : sheet.bare = sheet'.bare) (h : sheet.Lists items) :
    sheet'.Lists items := by
  obtain ⟨hi, hs⟩ := Sheet.mk.inj hb
  have ht := congrArg (·.tops.map Node.kind) hi
  simp only [Forest.tops_map, List.map_map] at ht
  exact ⟨ht.symm.trans h.kinds, hs.symm.trans h.skipped⟩

/-- What follows a `@charset` that comes first is read without it. -/
theorem behind_charset (hc : item.isCharset = true) :
    (readSheet true stray (layout w (item :: items))).Lists items := by
  have hs : (Level.sheet true).startsItem item.components = true := item.isItem.startsItem
  have hd : (Level.sheet true).drops (item.components ++ layout w items) = true := by
    rw [drops_append hs]
    exact hc
  have ha : (item.components ++ layout w items).sheetItem.after = layout w items := by
    rw [show (item.components ++ layout w items).sheetItem = _ from item.isItem.item_append _]
    split <;> rfl
  have hr : readSheet true stray (layout w (item :: items)) =
      readSheet false true (item.components ++ layout w items).sheetItem.after :=
    (read_gap_append (.sheet true) stray item.before _).trans
      (read_dropped (startsItem_append hs _) hd)
  rw [hr, ha]
  exact of_layout true w items

end Sheet.Lists

/-- Complete items with white space between them are all read, in order, but for those that start
like the declaration of a custom property; a `@charset` that comes first is left open. -/
theorem ofText_lists (items : List TopItem) {w : List Char} (hw : Spaces w) :
    ∃ kept, (kept = items ∨ ∃ first, first.isCharset = true ∧ items = first :: kept) ∧
      (Sheet.ofText (String.ofList (written items ++ w))).Lists kept := by
  have hb : (readSheet true false (layout w items)).bare =
      (Sheet.ofText (String.ofList (written items ++ w))).bare := by
    rw [← ofLexemes_written hw, ← map_bare_lexemes 1, ofLexemes_bare, Sheet.ofText,
      String.toList_ofList]
    exact bare_read (.sheet true) _ false
  cases items with
  | nil => exact ⟨[], .inl rfl, .of_bare hb (.gap true false w)⟩
  | cons item items =>
    cases hc : item.isCharset with
    | false =>
      exact ⟨_, .inl rfl, .of_bare hb (.cons (fun _ => hc) (.of_layout false w items))⟩
    | true => exact ⟨items, .inr ⟨item, hc, rfl⟩, .of_bare hb (.behind_charset hc)⟩

/-- A statement and a rule. -/
theorem ofText_lists_pair : Spaces ['\n'] ∧ ∃ items : List TopItem,
    written items = "@Layer a;\n.x\x7b\x7d".toList ∧
    items.map TopItem.kind = [.atRule "layer" "a" " " false, .rule ".x"] ∧
    ∃ kept, (kept = items ∨ ∃ first, first.isCharset = true ∧ items = first :: kept) ∧
      (Sheet.ofText (String.ofList (written items ++ ['\n']))).Lists kept := by
  have hw : Spaces ['\n'] := by simp [Spaces, isSpace, isNewline]
  have hl : ofLexemes (tokens "@Layer a;".toList) =
      .leaf ⟨.atKeyword "Layer".toList, "@Layer".toList, 0⟩
        (.leaf ⟨.whiteSpace, [' '], 0⟩ (.leaf ⟨.ident ['a'], ['a'], 0⟩ .nil) ++
          .leaf .semicolon .nil) := by
    rw [ofLexemes_eq]
    cbv
  have hx : ofLexemes (tokens ".x\x7b\x7d".toList) =
      .leaf ⟨.delimiter '.', ['.'], 0⟩ (.leaf ⟨.ident ['x'], ['x'], 0⟩ .nil) ++
        .block ⟨.opening .curly, ['\x7b'], 0⟩ .curly .nil (some .closingCurly) .nil := by
    rw [ofLexemes_eq]
    cbv
  let layer : TopItem := ⟨[], "@Layer a;".toList, atRule "Layer".toList " a".toList false, .nil,
    by simp [Spaces], by rw [hl]; rfl, by rw [hl]; exact .statement rfl⟩
  let x : TopItem := ⟨['\n'], ".x\x7b\x7d".toList, rule ".x".toList, .nil, hw,
    by rw [hx]; rfl, by rw [hx]; exact .rule rfl rfl⟩
  refine ⟨hw, [layer, x], rfl, ?_, ofText_lists [layer, x] hw⟩
  show [atRule "Layer".toList " a".toList false, rule ".x".toList] = _
  decide

/-- A rule that starts like the declaration of a custom property is skipped. -/
theorem exists_skipped_rule : ∃ items : List TopItem, items.map TopItem.kind = [.rule "--a:b"] ∧
    written items = "--a:b\x7b\x7d".toList ∧
    (Sheet.ofText (String.ofList (written items))).items.tops.map Node.kind = [] ∧
    (Sheet.ofText (String.ofList (written items))).skipped = 1 := by
  have hc : ofLexemes (tokens "--a:b\x7b\x7d".toList) =
      .leaf ⟨.ident "--a".toList, "--a".toList, 0⟩ (.leaf ⟨.colon, [':'], 0⟩
        (.leaf ⟨.ident ['b'], ['b'], 0⟩ .nil)) ++
          .block ⟨.opening .curly, ['\x7b'], 0⟩ .curly .nil (some .closingCurly) .nil := by
    rw [ofLexemes_eq]
    cbv
  let item : TopItem := ⟨[], "--a:b\x7b\x7d".toList, rule "--a:b".toList, .nil, by simp [Spaces],
    by rw [hc]; rfl, by rw [hc]; exact .rule rfl rfl⟩
  have hr : Sheet.ofText "--a:b\x7b\x7d" = ⟨.nil, 1⟩ := by
    rw [Sheet.ofText, Components.ofText, ofLexemes_eq]
    cbv
  have hw : String.ofList (written [item]) = "--a:b\x7b\x7d" := rfl
  refine ⟨[item], rfl, rfl, ?_⟩
  rw [hw, hr]
  exact ⟨rfl, rfl⟩

end ModularScale.Css
