import ModularScale.Proofs.Css.Reading

/-! # Kinds of items

What the first item of components can be, and where the run of components ends by which it is made
up.
-/

namespace ModularScale.Css

open Components

/-- Where the head of a rule ends. -/
def Level.stop : Level → Stop
  | .sheet _ => ruleStop
  | .block => nestedStop

variable {level : Level} {stop : Stop} {cs ds content : Components}

/-- Whether components start like a rule: with no at-keyword, nothing that is passed over, and no
name before a colon, unless that is none of a custom property in a sheet. -/
def Level.startsRule (level : Level) : Components → Bool
  | .leaf ⟨.atKeyword _, _, _⟩ _ => false
  | .leaf ⟨.ident name, _, _⟩ rest =>
    !(rest.afterColon?.isSome && (level = .block || isCustom name))
  | .leaf l _ => !level.passesOver l.token
  | _ => true

theorem item_of_startsRule (h : level.startsRule cs = true) :
    level.item cs = ruleItem level.stop cs := by
  cases cs with
  | nil => cases level <;> rfl
  | block => cases level <;> rfl
  | leaf l rest =>
    obtain ⟨token, text, line⟩ := l
    cases token with
    | atKeyword => cases h
    | ident name =>
      simp only [Level.startsRule, Bool.not_eq_true', Bool.and_eq_false_iff] at h
      cases level with
      | sheet first =>
        simp only [reduceCtorEq, decide_false, Bool.false_or] at h
        rw [Level.item, sheetItem, if_neg]
        · rfl
        · rw [Bool.and_comm, Bool.and_eq_true, ← Bool.not_eq_false, ← Bool.not_eq_false]
          rintro ⟨ha, hc⟩
          exact h.elim ha hc
      | block =>
        simp only [decide_true, Bool.true_or, Bool.true_eq_false, or_false] at h
        rw [Option.isSome_eq_false_iff, Option.isNone_iff_eq_none] at h
        rw [Level.item, bodyItem, h]
        rfl
    | _ => cases level <;> rfl

theorem startsItem_of_startsRule (h : level.startsRule cs = true) (hne : cs ≠ .nil) :
    level.startsItem cs = true := by
  cases cs with
  | nil => exact absurd rfl hne
  | block => rfl
  | leaf l rest =>
    obtain ⟨token, text, line⟩ := l
    cases token with
    | atKeyword => cases h
    | ident name => cases level <;> rfl
    | _ => exact h

/-- Whether components start like a rule does not depend on what follows, if no colon does. -/
theorem startsRule_append (hd : ds.afterColon? = none) (hne : cs ≠ .nil) :
    level.startsRule (cs ++ ds) = level.startsRule cs := by
  cases cs with
  | nil => exact absurd rfl hne
  | block => rfl
  | leaf l rest =>
    obtain ⟨token, text, line⟩ := l
    cases token with
    | ident name =>
      simp only [leaf_append, Level.startsRule, afterColon?_append hd, Option.isSome_map]
    | _ => rfl

/-- An item is an at-rule, a declaration in a block, one that starts like a custom property where
there are none, or one that starts like a rule. -/
theorem item_cases (h : level.startsItem cs = true) :
    (∃ name text line rest, cs = .leaf ⟨.atKeyword name, text, line⟩ rest ∧
      level.item cs = atRuleItem name rest) ∨
    (∃ name text line rest value, level = .block ∧ cs = .leaf ⟨.ident name, text, line⟩ rest ∧
      rest.afterColon? = some value ∧ level.item cs = declarationItem name value) ∨
    level.item cs = customItem cs ∨
    level.startsRule cs = true := by
  cases cs with
  | nil => cases h
  | block => exact .inr (.inr (.inr rfl))
  | leaf l rest =>
    obtain ⟨token, text, line⟩ := l
    cases token with
    | atKeyword name => exact .inl ⟨name, text, line, rest, rfl, by cases level <;> rfl⟩
    | ident name =>
      cases level with
      | block =>
        cases hc : rest.afterColon? with
        | some value =>
          refine .inr (.inl ⟨name, text, line, rest, value, rfl, rfl, hc, ?_⟩)
          rw [Level.item, bodyItem, hc]
        | none =>
          refine .inr (.inr (.inr ?_))
          rw [Level.startsRule, hc]
          rfl
      | sheet first =>
        rcases Bool.eq_false_or_eq_true (isCustom name && rest.afterColon?.isSome) with hc | hc
        · refine .inr (.inr (.inl ?_))
          rw [Level.item, sheetItem, if_pos hc]
        · refine .inr (.inr (.inr ?_))
          rw [Bool.and_comm] at hc
          simp only [Level.startsRule, reduceCtorEq, decide_false, Bool.false_or, hc, Bool.not_false]
    | _ => exact .inr (.inr (.inr h))

/-- A run ends where the components do, at a `;` or at a block in curly brackets. -/
theorem exists_run (stop : Stop) (cs : Components) : ∃ head, head.passes stop = true ∧
    (cs.run stop).text = head.text ∧
    ((cs = head ∧ (cs.run stop).block = none ∧ (cs.run stop).after = .nil) ∨
      (∃ l, cs = head ++ .leaf l (cs.run stop).after ∧ (cs.run stop).block = none ∧
        l.token = .semicolon) ∨
      ∃ l content closing, cs = head ++ .block l .curly content closing (cs.run stop).after ∧
        (cs.run stop).block = some content) := by
  induction cs with
  | nil => exact ⟨.nil, rfl, rfl, .inl ⟨rfl, rfl, rfl⟩⟩
  | leaf l rest ih =>
    rw [run]
    split
    case isTrue h =>
      rw [Bool.and_eq_true, decide_eq_true_eq] at h
      exact ⟨.nil, rfl, rfl, .inr (.inl ⟨l, rfl, rfl, h.2⟩)⟩
    case isFalse h =>
      obtain ⟨head, hp, ht, hc⟩ := ih
      refine ⟨.leaf l head, by simp [passes, hp, h], by simp [Run.cons, ht, text_leaf], ?_⟩
      rcases hc with ⟨hc, hb, ha⟩ | ⟨m, hc, hm⟩ | ⟨m, content, closing, hc, hb⟩
      · exact .inl ⟨congrArg (leaf l) hc, hb, ha⟩
      · exact .inr (.inl ⟨m, congrArg (leaf l) hc, hm⟩)
      · exact .inr (.inr ⟨m, content, closing, congrArg (leaf l) hc, hb⟩)
  | block l bracket inner closing rest _ ih =>
    rw [run]
    split
    case isTrue h =>
      rw [Bool.and_eq_true, decide_eq_true_eq] at h
      exact ⟨.nil, rfl, rfl, .inr (.inr ⟨l, inner, closing, h.2 ▸ rfl, rfl⟩)⟩
    case isFalse h =>
      obtain ⟨head, hp, ht, hc⟩ := ih
      refine ⟨.block l bracket inner closing head, by simp [passes, hp, h],
        by simp [Run.cons, ht, text_block], ?_⟩
      rcases hc with ⟨hc, hb, ha⟩ | ⟨m, hc, hm⟩ | ⟨m, content, closing', hc, hb⟩
      · exact .inl ⟨congrArg (Components.block l bracket inner closing) hc, hb, ha⟩
      · exact .inr (.inl ⟨m, congrArg (Components.block l bracket inner closing) hc, hm⟩)
      · exact .inr (.inr ⟨m, content, closing',
          congrArg (Components.block l bracket inner closing) hc, hb⟩)

/-! ## Items that are ended as they should -/

namespace Components

/-- Whether components start a qualified rule: with no at-keyword and nothing that is passed over
between items. -/
def startsQualified : Components → Bool
  | leaf ⟨.atKeyword _, _, _⟩ _ => false
  | cs => (Level.sheet false).startsItem cs

/-- Whether a prelude starts with the name of a custom property and a colon. -/
def startsCustom : Components → Bool
  | leaf ⟨.ident name, _, _⟩ rest => isCustom name && rest.afterColon?.isSome
  | _ => false

variable {first : Bool} {l : Lexeme} {closing : Option Lexeme} {name text : List Char} {line : Nat}
  {head : Components}

theorem startsItem_of_startsQualified (h : cs.startsQualified = true) :
    (Level.sheet first).startsItem cs = true := by
  cases cs with
  | nil => cases h
  | block => rfl
  | leaf l rest =>
    obtain ⟨token, text, line⟩ := l
    cases token <;> first | rfl | cases h

theorem sheetItem_statement (h : head.passes nestedStop = true) (hl : l.token = .semicolon)
    (ds : Components) : (leaf ⟨.atKeyword name, text, line⟩ (head ++ leaf l ds)).sheetItem =
      ⟨some (atRule name head.text false), nil, ds⟩ := by
  have hrun : (head ++ leaf l ds).run nestedStop = ⟨head.text, none, ds⟩ := by
    rw [run_append h]
    simp [run, Run.cons, nestedStop, hl]
  rw [sheetItem, atRuleItem, hrun]
  rfl

theorem sheetItem_atBlock (h : head.passes nestedStop = true) (ds : Components) :
    (leaf ⟨.atKeyword name, text, line⟩ (head ++ block l .curly content closing ds)).sheetItem =
      ⟨some (atRule name head.text true), content, ds⟩ := by
  have hrun : (head ++ block l .curly content closing ds).run nestedStop =
      ⟨head.text, some content, ds⟩ := by
    rw [run_append h]
    simp [run, Run.cons, nestedStop]
  rw [sheetItem, atRuleItem, hrun]
  rfl

/-- A rule whose prelude starts like the declaration of a custom property is malformed. -/
theorem sheetItem_rule (h : head.passes ruleStop = true)
    (hs : (head ++ block l .curly content closing nil).startsQualified = true) (ds : Components) :
    (head ++ block l .curly content closing ds).sheetItem =
      if (head ++ block l .curly content closing nil).startsCustom then ⟨none, nil, ds⟩
      else ⟨some (rule head.text), content, ds⟩ := by
  have hrun : (head ++ block l .curly content closing ds).run ruleStop =
      ⟨head.text, some content, ds⟩ := by
    rw [run_append h]
    simp [run, Run.cons, ruleStop]
  have hrule : ruleItem ruleStop (head ++ block l .curly content closing ds) =
      ⟨some (Css.rule head.text), content, ds⟩ := by
    rw [ruleItem, hrun]
    rfl
  have hcustom : customItem (head ++ block l .curly content closing ds) = ⟨none, nil, ds⟩ := by
    rw [customItem, hrun]
  cases head with
  | nil => exact hrule
  | block => exact hrule
  | leaf m tail =>
    obtain ⟨token, text, line⟩ := m
    cases token with
    | atKeyword => cases hs
    | ident name =>
      rw [leaf_append] at hrule hcustom ⊢
      rw [leaf_append, sheetItem, startsCustom, afterColon?_append rfl, afterColon?_append rfl,
        Option.isSome_map, Option.isSome_map]
      split
      · exact hcustom
      · exact hrule
    | _ => exact hrule

/-- Components of a single item: an at-rule up to its `;`, or an at-rule or a qualified rule up to
the end of its closed block. -/
inductive IsWhole : Components → Prop
  | statement {name text : List Char} {line : Nat} {head : Components} {l : Lexeme}
      (h : head.passes nestedStop = true) (hl : l.token = .semicolon) :
    IsWhole (leaf ⟨.atKeyword name, text, line⟩ (head ++ leaf l nil))
  | atBlock {name text : List Char} {line : Nat} {head content : Components} {l c : Lexeme}
      (h : head.passes nestedStop = true) (hc : c.token = .closing .curly) :
    IsWhole (leaf ⟨.atKeyword name, text, line⟩ (head ++ block l .curly content (some c) nil))
  | rule {head content : Components} {l c : Lexeme} (h : head.passes ruleStop = true)
      (hs : (head ++ block l .curly content (some c) nil).startsQualified = true)
      (hc : c.token = .closing .curly) : IsWhole (head ++ block l .curly content (some c) nil)

namespace IsWhole

theorem startsItem (h : cs.IsWhole) : (Level.sheet first).startsItem cs = true := by
  cases h with
  | statement => rfl
  | atBlock => rfl
  | rule h hs => exact startsItem_of_startsQualified hs

/-- An item ends where its own components do. -/
theorem exists_sheetItem (h : cs.IsWhole) :
    ∃ kind content, ∀ ds, (cs ++ ds).sheetItem = ⟨kind, content, ds⟩ := by
  cases h with
  | @statement name text line head l h hl =>
    refine ⟨some (atRule name head.text false), nil, fun ds => ?_⟩
    rw [leaf_append, Components.append_assoc, leaf_append, nil_append, sheetItem_statement h hl]
  | @atBlock name text line head content l c h =>
    refine ⟨some (atRule name head.text true), content, fun ds => ?_⟩
    rw [leaf_append, Components.append_assoc, block_append, nil_append, sheetItem_atBlock h]
  | @rule head content l c h hs =>
    cases hc : (head ++ block l .curly content (some c) nil).startsCustom with
    | true =>
      refine ⟨none, nil, fun ds => ?_⟩
      rw [Components.append_assoc, block_append, nil_append, sheetItem_rule h hs, hc]
      rfl
    | false =>
      refine ⟨some (Css.rule head.text), content, fun ds => ?_⟩
      rw [Components.append_assoc, block_append, nil_append, sheetItem_rule h hs, hc]
      rfl

theorem exists_last (h : cs.IsWhole) : ∃ ls l, cs.lexemes = ls ++ [l] ∧
    (l.token = .semicolon ∨ l.token = .closing .curly) := by
  cases h with
  | @statement name text line head l h hl =>
    exact ⟨⟨.atKeyword name, text, line⟩ :: head.lexemes, l, by simp [lexemes], .inl hl⟩
  | @atBlock name text line head content l c h hc =>
    exact ⟨⟨.atKeyword name, text, line⟩ :: (head.lexemes ++ l :: content.lexemes), c,
      by simp [lexemes], .inr hc⟩
  | @rule head content l c h hs hc =>
    exact ⟨head.lexemes ++ l :: content.lexemes, c, by simp [lexemes], .inr hc⟩

end IsWhole

end Components

end ModularScale.Css
