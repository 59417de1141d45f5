import ModularScale.Proofs.Document.OfSheet

/-! # Lines

The items of a style sheet come in the order of the tokens with which they start, so their lines do
not decrease.
-/

namespace ModularScale.Css

variable {line : Nat} {cs : Components} {stop : Stop}

/-- No token starts on an earlier line than one before it. -/
theorem pairwise_lexemes (line : Nat) (cs : List Char) :
    (lexemes line cs).Pairwise (·.line ≤ ·.line) ∧ ∀ l ∈ lexemes line cs, line ≤ l.line := by
  fun_induction lexemes line cs with
  | case1 => exact ⟨.nil, List.forall_mem_nil _⟩
  | case2 line c cs next text ih =>
    obtain ⟨hp, hl⟩ := ih
    have hl' : ∀ l ∈ lexemes (line + newlines text) (cs.drop (next.length - 1)), line ≤ l.line :=
      fun l hm => Nat.le_trans (Nat.le_add_right _ _) (hl l hm)
    exact ⟨.cons hl' hp, List.forall_mem_cons.mpr ⟨Nat.le_refl _, hl'⟩⟩

namespace Components

/-- What a run leaves comes behind its first token: the content of the block at its end, and then
all that follows. -/
theorem run_sublist (stop : Stop) (cs : Components) :
    (((cs.run stop).block.getD nil).lexemes ++ (cs.run stop).after.lexemes).Sublist
      cs.lexemes.tail := by
  induction cs with
  | nil => exact .slnil
  | leaf l rest ih =>
    unfold run
    split
    · exact .refl _
    · exact ih.trans (List.tail_sublist _)
  | block l bracket inner closing rest _ ih =>
    unfold run
    split
    · exact (List.sublist_append_left _ _).append (.refl _)
    · exact (ih.trans (List.tail_sublist _)).trans (List.sublist_append_right _ _)

theorem afterColon?_sublist {rest : Components} (h : cs.afterColon? = some rest) :
    rest.lexemes.Sublist cs.lexemes := by
  induction cs with
  | nil => cases h
  | leaf l tail ih =>
    unfold afterColon? at h
    split at h
    · exact (ih h).cons l
    · split at h
      · cases h
        exact List.sublist_cons_self l _
      · cases h
  | block => cases h

/-- What an item leaves comes behind its first token. -/
def Item.Leaves (item : Item) (ls : List Lexeme) : Prop :=
  (item.content.lexemes ++ item.after.lexemes).Sublist ls.tail

theorem Item.Leaves.after_sublist {item : Item} {ls : List Lexeme} (h : item.Leaves ls) :
    item.after.lexemes.Sublist ls :=
  ((List.sublist_append_right _ _).trans h).trans (List.tail_sublist ls)

theorem ruleItem_leaves (stop : Stop) (cs : Components) : (ruleItem stop cs).Leaves cs.lexemes :=
  run_sublist stop cs

theorem atRuleItem_leaves (name : List Char) (l : Lexeme) (cs : Components) :
    (atRuleItem name cs).Leaves (leaf l cs).lexemes :=
  (run_sublist nestedStop cs).trans (List.tail_sublist _)

theorem declarationItem_leaves {name : List Char} {l : Lexeme} {value : Components}
    (h : cs.afterColon? = some value) : (declarationItem name value).Leaves (leaf l cs).lexemes := by
  have hr := (List.sublist_append_right _ _).trans (run_sublist valueStop value)
  exact (hr.trans (List.tail_sublist _)).trans (afterColon?_sublist h)

theorem customItem_leaves (cs : Components) : (customItem cs).Leaves cs.lexemes :=
  (List.sublist_append_right _ _).trans (run_sublist ruleStop cs)

theorem bodyItem_leaves (cs : Components) : (bodyItem cs).Leaves cs.lexemes := by
  unfold bodyItem
  split
  · exact atRuleItem_leaves _ _ _
  · split
    case h_1 hv => exact declarationItem_leaves hv
    case h_2 => exact ruleItem_leaves _ _
  · exact ruleItem_leaves _ _

theorem sheetItem_leaves (cs : Components) : (sheetItem cs).Leaves cs.lexemes := by
  unfold sheetItem
  split
  · exact atRuleItem_leaves _ _ _
  · split
    · exact customItem_leaves _
    · exact ruleItem_leaves _ _
  · exact ruleItem_leaves _ _

end Components

open Components

/-- The lines of items are those of some of the tokens, in their order. -/
def Sheet.LinesIn (sheet : Sheet) (ls : List Lexeme) : Prop :=
  (sheet.items.toList.map Node.line).Sublist (ls.map fun l => some l.line)

theorem Sheet.LinesIn.mono {sheet : Sheet} {ls ls' : List Lexeme} (h : sheet.LinesIn ls)
    (hs : ls.Sublist ls') : sheet.LinesIn ls' :=
  h.trans (hs.map _)

theorem Sheet.linesIn_consItem {item : Item} {l : Lexeme} {ls : List Lexeme} {content rest : Sheet}
    (h : item.Leaves (l :: ls)) (hc : content.LinesIn item.content.lexemes)
    (hr : rest.LinesIn item.after.lexemes) :
    (consItem item.kind l.line content rest).LinesIn (l :: ls) := by
  cases hk : item.kind with
  | none => exact hr.mono h.after_sublist
  | some kind =>
    have hboth : ((content.items.toList ++ rest.items.toList).map Node.line).Sublist
        (ls.map fun l => some l.line) := by
      rw [List.map_append]
      refine (hc.append hr).trans ?_
      rw [← List.map_append]
      exact h.map _
    exact hboth.cons_cons _

theorem linesIn_readBody (stray : Bool) (cs : Components) :
    (readBody stray cs).LinesIn cs.lexemes := by
  fun_induction readBody stray cs with
  | case1 => exact .slnil
  | case2 => exact Sheet.LinesIn.mono ‹_› (List.sublist_cons_self _ _)
  | case3 => exact Sheet.LinesIn.mono ‹_› (List.sublist_cons_self _ _)
  | case4 => exact Sheet.LinesIn.mono ‹_› (List.sublist_cons_self _ _)
  | case5 stray text _ line rest _ ih => exact List.Sublist.cons_cons _ ih
  | case6 => exact Sheet.linesIn_consItem (bodyItem_leaves _) ‹_› ‹_›
  | case7 => exact Sheet.linesIn_consItem (bodyItem_leaves _) ‹_› ‹_›

theorem linesIn_readSheet (first stray : Bool) (cs : Components) :
    (readSheet first stray cs).LinesIn cs.lexemes := by
  fun_induction readSheet first stray cs with
  | case1 => exact .slnil
  | case2 => exact Sheet.LinesIn.mono ‹_› (List.sublist_cons_self _ _)
  | case3 => exact Sheet.LinesIn.mono ‹_› (List.sublist_cons_self _ _)
  | case4 => exact Sheet.LinesIn.mono ‹_› (List.sublist_cons_self _ _)
  | case5 => exact Sheet.LinesIn.mono ‹_› (List.sublist_cons_self _ _)
  | case6 first stray text _ line rest _ ih => exact List.Sublist.cons_cons _ ih
  | case7 => exact Sheet.LinesIn.mono ‹_› (sheetItem_leaves _).after_sublist
  | case8 => exact Sheet.linesIn_consItem (sheetItem_leaves _) (linesIn_readBody _ _) ‹_›
  | case9 => exact Sheet.linesIn_consItem (sheetItem_leaves _) (linesIn_readBody _ _) ‹_›

/-- Each item has a line, and none has an earlier line than one before it. -/
theorem Sheet.lines_ofText (text : String) : ∃ lines : List Nat,
    (ofText text).items.toList.map Node.line = lines.map some ∧ lines.Pairwise (· ≤ ·) := by
  have h : (ofText text).LinesIn (Components.ofText text.toList).lexemes :=
    linesIn_readSheet true false _
  rw [LinesIn, ← Function.comp_def some, ← List.map_map, Components.ofText, lexemes_ofLexemes] at h
  obtain ⟨lines, hs, hl⟩ := List.sublist_map_iff.mp h
  refine ⟨lines, hl, List.Pairwise.sublist hs ?_⟩
  exact List.pairwise_map.mpr (pairwise_lexemes 1 text.toList).1

end ModularScale.Css
