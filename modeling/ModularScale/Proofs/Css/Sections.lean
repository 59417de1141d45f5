import Mathlib
import ModularScale.Proofs.Css.Joined

/-! # Sections of a block

A `;` outside of all brackets ends every item that it stands in, whether this is a declaration, a
rule, an at-rule or malformed. So a block that holds such a `;` is read as one block up to there and
another one behind.
-/

namespace ModularScale.Css

namespace Components

variable {cs ds rest value : Components} {stop : Stop}

/-- Components with a `;` outside of all brackets as the last token. -/
inductive Ends : Components → Prop
  | semicolon {l : Lexeme} (h : l.token = .semicolon) : Ends (leaf l nil)
  | leaf {l : Lexeme} {rest : Components} (h : Ends rest) : Ends (leaf l rest)
  | block {l : Lexeme} {bracket : Bracket} {inner : Components} {closing : Option Lexeme}
      {rest : Components} (h : Ends rest) : Ends (block l bracket inner closing rest)

/-- Components that are empty or end with a `;`: a reading that comes to their end is done with all
items in them. -/
def IsSection (cs : Components) : Prop :=
  cs = nil ∨ cs.Ends

theorem Ends.of_leaf {l : Lexeme} (h : (Components.leaf l rest).Ends)
    (hl : l.token ≠ .semicolon) : rest.Ends := by
  cases h with
  | semicolon h => exact absurd h hl
  | leaf h => exact h

theorem Ends.exists_last (h : cs.Ends) :
    ∃ ls l, cs.lexemes = ls ++ [l] ∧ l.token = .semicolon := by
  induction h with
  | @semicolon l h => exact ⟨[], l, rfl, h⟩
  | @leaf m rest _ ih =>
    obtain ⟨ls, l, hl, ht⟩ := ih
    exact ⟨m :: ls, l, by simp [lexemes, hl], ht⟩
  | @block m bracket inner closing rest _ ih =>
    obtain ⟨ls, l, hl, ht⟩ := ih
    exact ⟨m :: inner.lexemes ++ closing.toList ++ ls, l, by simp [lexemes, hl], ht⟩

/-- No run that ends at a `;` goes on behind a section, and what it leaves of it is one, too. -/
theorem Ends.run_append (h : cs.Ends) (hs : stop.semicolon = true) :
    (cs.run stop).after.IsSection ∧ ∀ ds, (cs ++ ds).run stop =
      ⟨(cs.run stop).text, (cs.run stop).block, (cs.run stop).after ++ ds⟩ := by
  induction h with
  | semicolon h =>
    constructor
    · simp [run, hs, h, IsSection]
    · intro ds
      simp [run, hs, h]
  | @leaf l rest h ih =>
    obtain ⟨ha, hr⟩ := ih
    simp only [run, leaf_append, hr]
    split
    · exact ⟨.inr h, fun _ => rfl⟩
    · exact ⟨ha, fun _ => rfl⟩
  | @block l bracket inner closing rest h ih =>
    obtain ⟨ha, hr⟩ := ih
    simp only [run, block_append, hr]
    split
    · exact ⟨.inr h, fun _ => rfl⟩
    · exact ⟨ha, fun _ => rfl⟩

theorem Ends.afterColon?_append (h : cs.Ends) (ds : Components) :
    (cs ++ ds).afterColon? = cs.afterColon?.map (· ++ ds) := by
  induction h with
  | semicolon h => simp [afterColon?, h, Token.isGap]
  | leaf h ih =>
    simp only [leaf_append, afterColon?, ih]
    split
    · rfl
    · split <;> rfl
  | block => rfl

theorem Ends.of_afterColon? (h : cs.Ends) (hv : cs.afterColon? = some value) : value.Ends := by
  induction h with
  | semicolon h => simp [afterColon?, h, Token.isGap] at hv
  | leaf h ih =>
    unfold afterColon? at hv
    split at hv
    · exact ih hv
    · split at hv
      · cases hv
        exact h
      · cases hv
  | block => cases hv

/-- An item that starts in a section ends in it. -/
def EndsWithin (cs : Components) : Prop :=
  cs.bodyItem.after.IsSection ∧
    ∀ ds, (cs ++ ds).bodyItem = ⟨cs.bodyItem.kind, cs.bodyItem.content, cs.bodyItem.after ++ ds⟩

theorem Ends.endsWithin (h : cs.Ends) : cs.EndsWithin := by
  have hrule : ∀ {cs : Components}, cs.Ends → (ruleItem nestedStop cs).after.IsSection ∧
      ∀ ds, ruleItem nestedStop (cs ++ ds) = ⟨(ruleItem nestedStop cs).kind,
        (ruleItem nestedStop cs).content, (ruleItem nestedStop cs).after ++ ds⟩ := by
    intro cs h
    obtain ⟨ha, hr⟩ := @Ends.run_append cs nestedStop h rfl
    exact ⟨ha, fun ds => by simp only [ruleItem, hr]⟩
  cases cs with
  | nil => cases h
  | block => exact hrule h
  | leaf l rest =>
    obtain ⟨token, text, line⟩ := l
    cases token with
    | atKeyword name =>
      obtain ⟨ha, hr⟩ := @Ends.run_append rest nestedStop (h.of_leaf (by simp)) rfl
      exact ⟨ha, fun ds => by simp only [leaf_append, bodyItem, atRuleItem, hr]⟩
    | ident name =>
      have hrest : rest.Ends := h.of_leaf (by simp)
      have hcolon := hrest.afterColon?_append
      unfold EndsWithin
      simp only [leaf_append, bodyItem, hcolon]
      cases hv : rest.afterColon? with
      | none => exact hrule h
      | some value =>
        obtain ⟨ha, hr⟩ := @Ends.run_append value valueStop (hrest.of_afterColon? hv) rfl
        exact ⟨ha, fun ds => by simp only [Option.map_some, declarationItem, hr]⟩
    | _ => exact hrule h

/-- Whether a comment comes first but for white space. -/
def startsComment : Components → Bool
  | leaf ⟨.whiteSpace, _, _⟩ rest => rest.startsComment
  | leaf ⟨.comment _, _, _⟩ _ => true
  | _ => false

theorem startsComment_relined (f : Nat → Nat) (cs : Components) :
    (cs.relined f).startsComment = cs.startsComment := by
  induction cs with
  | nil => rfl
  | leaf l rest ih =>
    obtain ⟨token, text, line⟩ := l
    cases token with
    | whiteSpace => exact ih
    | _ => rfl
  | block => rfl

end Components

open Components

variable {cs ds : Components} {u v : List Char}

/-- Where no comment comes first, it does not matter whether one would be stray. -/
theorem readBody_of_startsComment (h : cs.startsComment = false) (stray : Bool) :
    readBody stray cs = readBody false cs := by
  induction cs with
  | nil => rw [readBody, readBody]
  | block l bracket inner closing rest =>
    have hs : Level.block.startsItem (.block l bracket inner closing rest) = true := rfl
    rw [readBody_item stray hs, readBody_item false hs]
  | leaf l rest ih =>
    cases hs : Level.block.startsItem (.leaf l rest) with
    | true => rw [readBody_item stray hs, readBody_item false hs]
    | false =>
      obtain ⟨token, text, line⟩ := l
      cases token with
      | whiteSpace =>
        simp only [readBody]
        exact ih h
      | comment => cases h
      | semicolon => simp only [readBody]
      | _ => cases hs

theorem IsSection.of_leaf {l : Lexeme} {rest : Components}
    (h : (Components.leaf l rest).IsSection) : rest.IsSection := by
  cases h.resolve_left nofun with
  | semicolon => exact .inl rfl
  | leaf h => exact .inr h

/-- A section is read on its own, whatever follows it, and what follows is read as if it came
first. -/
theorem readBody_append (h : cs.IsSection) (hd : ds.startsComment = false) (stray : Bool) :
    readBody stray (cs ++ ds) = (readBody stray cs).join (readBody false ds) := by
  suffices ∀ level, level = Level.block → level.read stray (cs ++ ds) =
      (level.read stray cs).join (readBody false ds) from this .block rfl
  intro level hl
  induction level, cs using Level.induction generalizing stray with
  | nil level =>
    subst hl
    rw [Components.nil_append, Level.read, Level.read, readBody_nil, Sheet.empty_join]
    exact readBody_of_startsComment hd stray
  | gap level l rest hp ih =>
    have hrest : rest.IsSection := IsSection.of_leaf h
    obtain ⟨token, text, line⟩ := l
    rw [leaf_append]
    rcases token_cases token with ht | ⟨comment, ht⟩ | ht
    · subst ht
      rw [read_space, read_space]
      exact ih hrest stray hl
    · subst ht
      rw [read_comment, read_comment]
      cases stray with
      | true => exact ih hrest true hl
      | false =>
        rw [if_neg Bool.false_ne_true, if_neg Bool.false_ne_true, ih hrest false hl]
        exact (Sheet.consItem_join (some _) line .empty _ _).symm
    · rw [read_mark stray hp ht, read_mark stray hp ht]
      exact ih hrest true hl
  | item level cs hs _ ih =>
    subst hl
    have hends : cs.Ends := h.resolve_left (by rintro rfl; cases hs)
    obtain ⟨ha, hb⟩ := hends.endsWithin
    have hline : (cs ++ ds).line = cs.line := by
      cases cs with
      | nil => cases hs
      | leaf => rfl
      | block => rfl
    rw [read_item (startsItem_append hs ds) rfl, read_item hs rfl, Sheet.consItem_join,
      ← ih ha false rfl, hline]
    simp only [Level.item, hb, Level.next]

/-! ## The texts of blocks -/

theorem read_map_relined (f : Nat → Nat) (inside : Option Bracket) (ls : List Lexeme) :
    (Components.read inside (ls.map (Lexeme.relined f))).content =
        (Components.read inside ls).content.relined f ∧
      (Components.read inside (ls.map (Lexeme.relined f))).after =
        (Components.read inside ls).after.map (Lexeme.relined f) := by
  have h := @readParts_relined inside ls f ls.length
  rw [readParts_eq (by simp), readParts_eq (Nat.le_refl _), Prod.mk.injEq, Prod.mk.injEq] at h
  exact ⟨h.1, h.2.2⟩

/-- What stands behind the opening bracket of a block, up to its closing bracket. -/
def blockContent (x : List Char) : Components :=
  (Components.read (some .curly) (Css.lexemes 1 x)).content

/-- What stands behind the closing bracket of a block. -/
def behindBlock (x : List Char) : Components :=
  ofLexemes (Components.read (some .curly) (Css.lexemes 1 x)).after

/-- A text in which each bracket is closed and no closing bracket is one of a block around it, with
a `;` outside of all brackets as the last token. -/
structure IsSectionText (u : List Char) : Prop where
  balanced : (ofText u).balanced (some .curly) = true
  ends : (ofText u).Ends

theorem IsSectionText.lexemes_append (h : IsSectionText u) (y : List Char) :
    Css.lexemes 1 (u ++ y) =
      (ofText u).lexemes ++ (Css.lexemes 1 y).map (Lexeme.relined (· + newlines u)) := by
  have hlex : (ofText u).lexemes = Css.lexemes 1 u := lexemes_ofLexemes _
  obtain ⟨ls, l, hl, ht⟩ := h.ends.exists_last
  have hu : tokens u = ls.map Lexeme.bare ++ [l.bare] := by
    rw [← map_bare_lexemes 1, ← hlex, hl, List.map_append]
    rfl
  have hz : l.bare.token.barrier? = some ';' := congrArg Token.barrier? ht
  have hc : l.bare.token.isClosed l.bare.text = true := congrArg (Token.isClosed l.text) ht
  rw [lexemes_append_of_tokens (tokens_append hu hz hc y), hlex]

theorem IsSectionText.blockContent_append (h : IsSectionText u) (y : List Char) :
    blockContent (u ++ y) = ofText u ++ (blockContent y).relined (· + newlines u) ∧
      behindBlock (u ++ y) = (behindBlock y).relined (· + newlines u) := by
  obtain ⟨hc, -, ha⟩ := read_lexemes_append h.balanced
    ((Css.lexemes 1 y).map (Lexeme.relined (· + newlines u)))
  obtain ⟨hc', ha'⟩ := read_map_relined (· + newlines u) (some .curly) (Css.lexemes 1 y)
  rw [blockContent, behindBlock, h.lexemes_append, hc, ha, hc', ha', ofLexemes_relined]
  exact ⟨rfl, rfl⟩

theorem lexemes_closing : Css.lexemes 1 ['\x7d'] = [⟨.closing .curly, ['\x7d'], 1⟩] := by
  rw [lexemes_eq_onLines, tokens_closing, tokens_nil]
  rfl

theorem blockContent_closing : blockContent ['\x7d'] = .nil ∧ behindBlock ['\x7d'] = .nil := by
  obtain ⟨hc, -, ha⟩ : (Components.read (some .curly) [⟨.closing .curly, ['\x7d'], 1⟩]).content = nil ∧
      _ ∧ (Components.read (some .curly) [⟨.closing .curly, ['\x7d'], 1⟩]).after = [] :=
    read_closing (some .curly) [] rfl rfl
  have hn : ofLexemes [] = nil := by rw [ofLexemes, Components.read]
  rw [blockContent, behindBlock, lexemes_closing, hc, ha]
  exact ⟨rfl, hn⟩

theorem startsComment_gap_append (w : List Char) (cs : Components) :
    (gap w ++ cs).startsComment = cs.startsComment := by
  unfold gap
  split <;> rfl

/-- The first token decides whether a comment comes first. -/
theorem startsComment_read {l : Lexeme} (h : l.token.isGap = false) (inside : Option Bracket)
    (ls : List Lexeme) : (Components.read inside (l :: ls)).content.startsComment = false := by
  obtain ⟨token, text, line⟩ := l
  cases ho : token.opens? with
  | some bracket =>
    obtain ⟨hc, -⟩ := @read_opening ⟨token, text, line⟩ bracket inside ls ho
    rw [hc]
    rfl
  | none =>
    cases hi : closesInside inside ⟨token, text, line⟩ with
    | true =>
      obtain ⟨hc, -⟩ := read_closing inside ls ho hi
      rw [hc]
      rfl
    | false =>
      obtain ⟨hc, -⟩ := read_leaf inside ls ho hi
      rw [hc]
      cases token with
      | whiteSpace => cases h
      | comment => cases h
      | _ => rfl

/-- A text that starts with a comment, but for white space. -/
def StartsComment (v : List Char) : Prop :=
  "/*".toList <+: v.dropWhile isSpace

theorem startsComment_blockContent (h : ¬StartsComment v) :
    (blockContent (v ++ ['\x7d'])).startsComment = false := by
  have hbare : (blockContent (v ++ ['\x7d'])).relined (fun _ => 0) =
      (Components.read (some .curly) (tokens (v ++ ['\x7d']))).content := by
    rw [← map_bare_lexemes 1]
    exact (read_map_relined _ _ _).1.symm
  have hspaces : Spaces (v.takeWhile isSpace) := fun c hc => List.mem_takeWhile_imp hc
  obtain ⟨c, cs, hr, hgap⟩ : ∃ c cs, v.dropWhile isSpace ++ ['\x7d'] = c :: cs ∧
      (nextToken c cs).value.isGap = false := by
    cases hd : v.dropWhile isSpace with
    | nil => exact ⟨'\x7d', [], rfl, rfl⟩
    | cons c cs =>
      refine ⟨c, cs ++ ['\x7d'], rfl, ?_⟩
      rw [← Bool.not_eq_true]
      intro hgap
      rcases isSpace_or_comment_of_isGap hgap with hs | ⟨rfl, hs⟩
      · have hn := List.head_dropWhile_not isSpace (l := v) (by simp [hd])
        simp only [hd, List.head_cons] at hn
        rw [hn] at hs
        cases hs
      · apply h
        rw [StartsComment, hd]
        cases cs with
        | nil => cases hs
        | cons d cs =>
          obtain rfl : d = '*' := by simpa [startsWith] using hs
          exact ⟨cs, rfl⟩
  have hstart : startsWith isSpace (c :: cs) = false := by
    rw [← Bool.not_eq_true]
    intro hs
    have hspace : (nextToken c cs).value = .whiteSpace := by
      rw [nextToken, if_pos (show isSpace c = true from hs)]
    rw [hspace] at hgap
    cases hgap
  rw [← startsComment_relined (fun _ => 0), hbare]
  conv_lhs => rw [← List.takeWhile_append_dropWhile (p := isSpace) (l := v)]
  rw [List.append_assoc, hr, tokens_gap hspaces hstart,
    (read_lexemes_append (balanced_gap _ _) _).1, startsComment_gap_append, tokens_cons]
  exact startsComment_read hgap _ _

theorem tokens_selector (x : List Char) : tokens (".a\x7b".toList ++ x) =
    ⟨.delimiter '.', ['.'], 0⟩ :: ⟨.ident ['a'], ['a'], 0⟩ ::
      ⟨.opening .curly, ['\x7b'], 0⟩ :: tokens x := by
  have hstop : name ('\x7b' :: x) = ⟨[], 0⟩ := name_stop rfl (by decide) x
  have hname : name ('a' :: '\x7b' :: x) = ⟨['a'], 1⟩ := by
    rw [name_cons rfl, hstop]
    rfl
  have hident : nextToken 'a' ('\x7b' :: x) = ⟨.ident ['a'], 1⟩ := by
    show nameToken ('a' :: '\x7b' :: x) = _
    rw [nameToken_eq, hname]
    rfl
  have hdot : nextToken '.' ('a' :: '\x7b' :: x) = ⟨.delimiter '.', 1⟩ := rfl
  show tokens ('.' :: 'a' :: '\x7b' :: x) = _
  rw [tokens_mark hdot, tokens_mark hident, tokens_opening]

/-- A rule with a block that holds a text. -/
def ruleAround (x : String) : String :=
  ".a\x7b" ++ (x ++ "\x7d")

theorem toList_ruleAround (x : String) :
    (ruleAround x).toList = ".a\x7b".toList ++ (x.toList ++ ['\x7d']) := by
  rw [ruleAround, String.toList_append, String.toList_append]
  rfl

/-- A rule holds what stands behind its opening bracket, up to the closing one. -/
theorem ofText_ruleAround (x : String) : Sheet.ofText (ruleAround x) =
    .cons (.rule ".a") 1 (readBody false (blockContent (x.toList ++ ['\x7d'])))
      (readSheet false false (behindBlock (x.toList ++ ['\x7d']))) := by
  let ls := Css.lexemes 1 (x.toList ++ ['\x7d'])
  have hl : Css.lexemes 1 (ruleAround x).toList = ⟨.delimiter '.', ['.'], 1⟩ ::
      ⟨.ident ['a'], ['a'], 1⟩ :: ⟨.opening .curly, ['\x7b'], 1⟩ :: ls := by
    rw [toList_ruleAround, lexemes_eq_onLines, tokens_selector]
    simp only [ls, lexemes_eq_onLines 1]
    rfl
  obtain ⟨hdot, -⟩ := @read_leaf ⟨.delimiter '.', ['.'], 1⟩ none
    (⟨.ident ['a'], ['a'], 1⟩ :: ⟨.opening .curly, ['\x7b'], 1⟩ :: ls) rfl rfl
  obtain ⟨hname, -⟩ := @read_leaf ⟨.ident ['a'], ['a'], 1⟩ none
    (⟨.opening .curly, ['\x7b'], 1⟩ :: ls) rfl rfl
  obtain ⟨hblock, -⟩ := @read_opening ⟨.opening .curly, ['\x7b'], 1⟩ .curly none ls rfl
  rw [Sheet.ofText, Components.ofText, hl, ofLexemes, hdot, hname, hblock]
  exact @read_item (.sheet true) _ false rfl rfl

/-- The block around a section alone holds just the section. -/
theorem IsSectionText.ofText_ruleAround {u : String} (h : IsSectionText u.toList) :
    Sheet.ofText (ruleAround u) =
      .cons (.rule ".a") 1 (readBody false (Components.ofText u.toList)) .empty := by
  obtain ⟨hc, ha⟩ := h.blockContent_append ['\x7d']
  obtain ⟨hc', ha'⟩ := blockContent_closing
  have hnil : readSheet false false .nil = .empty := by rw [readSheet]
  rw [Css.ofText_ruleAround, hc, ha, hc', ha']
  simp only [relined, append_nil, hnil]

/-- Malformed or not, the items up to a `;` outside of all brackets are read as if nothing followed
them in their block, and what follows them is read as if it came first, further down. -/
theorem Sheet.ofText_sections {u v : String} (hu : IsSectionText u.toList)
    (hv : ¬StartsComment v.toList) : ∃ content content' rest : Sheet,
      Sheet.ofText (ruleAround u) = .cons (.rule ".a") 1 content .empty ∧
      Sheet.ofText (ruleAround v) = .cons (.rule ".a") 1 content' rest ∧
      Sheet.ofText (ruleAround (u ++ v)) = .cons (.rule ".a") 1
        (content.join (content'.relined (· + newlines u.toList)))
        (rest.relined (· + newlines u.toList)) ∧
      (Sheet.ofText (ruleAround (u ++ v))).skipped =
        (Sheet.ofText (ruleAround u)).skipped + (Sheet.ofText (ruleAround v)).skipped := by
  let f := (· + newlines u.toList)
  let behind := v.toList ++ ['\x7d']
  have hfirst := hu.ofText_ruleAround
  have hlater := Css.ofText_ruleAround v
  have hboth : Sheet.ofText (ruleAround (u ++ v)) = .cons (.rule ".a") 1
      ((readBody false (Components.ofText u.toList)).join
        ((readBody false (blockContent behind)).relined f))
      ((readSheet false false (behindBlock behind)).relined f) := by
    obtain ⟨hc, ha⟩ := hu.blockContent_append behind
    have hd : ((blockContent behind).relined f).startsComment = false := by
      rw [startsComment_relined]
      exact startsComment_blockContent hv
    have hbody : readBody false ((blockContent behind).relined f) =
        (readBody false (blockContent behind)).relined f := read_relined f .block _ false
    have hsheet : readSheet false false ((behindBlock behind).relined f) =
        (readSheet false false (behindBlock behind)).relined f :=
      read_relined f (.sheet false) _ false
    rw [← hbody, ← hsheet, ← readBody_append (.inr hu.ends) hd, ← hc, ← ha,
      Css.ofText_ruleAround, String.toList_append, List.append_assoc]
  refine ⟨_, _, _, hfirst, hlater, hboth, ?_⟩
  rw [hfirst, hlater, hboth]
  exact Nat.add_assoc _ _ _

/-- A malformed item, a rule and a declaration, with another malformed item behind them. -/
theorem Sheet.ofText_sections_mixed :
    IsSectionText "x y;\nc\x7b\x7da:b;".toList ∧ ¬StartsComment " =;d:e".toList ∧
    (Sheet.ofText (ruleAround "x y;\nc\x7b\x7da:b;")).skipped = 1 ∧
    (Sheet.ofText (ruleAround " =;d:e")).skipped = 1 ∧
    (Sheet.ofText (ruleAround ("x y;\nc\x7b\x7da:b;" ++ " =;d:e"))).skipped = 2 := by
  have hc : Components.ofText "x y;\nc\x7b\x7da:b;".toList =
      leaf ⟨.ident ['x'], ['x'], 1⟩ (leaf ⟨.whiteSpace, [' '], 1⟩ (leaf ⟨.ident ['y'], ['y'], 1⟩
        (leaf ⟨.semicolon, [';'], 1⟩ (leaf ⟨.whiteSpace, ['\n'], 1⟩ (leaf ⟨.ident ['c'], ['c'], 2⟩
          (.block ⟨.opening .curly, ['\x7b'], 2⟩ .curly .nil (some ⟨.closing .curly, ['\x7d'], 2⟩)
            (leaf ⟨.ident ['a'], ['a'], 2⟩ (leaf ⟨.colon, [':'], 2⟩ (leaf ⟨.ident ['b'], ['b'], 2⟩
              (leaf ⟨.semicolon, [';'], 2⟩ .nil)))))))))) := by
    rw [Components.ofText, ofLexemes_eq]
    cbv
  have hu : IsSectionText "x y;\nc\x7b\x7da:b;".toList := by
    constructor
    · rw [hc]
      rfl
    · rw [hc]
      exact .leaf (.leaf (.leaf (.leaf (.leaf (.leaf (.block (.leaf (.leaf (.leaf
        (.semicolon rfl))))))))))
  have hv : ¬StartsComment " =;d:e".toList := by
    unfold StartsComment
    decide
  obtain ⟨content, content', rest, -, -, -, hs⟩ := Sheet.ofText_sections hu hv
  have hs₁ : (Sheet.ofText (ruleAround "x y;\nc\x7b\x7da:b;")).skipped = 1 := by
    rw [Sheet.ofText, Components.ofText, ofLexemes_eq]
    cbv
  have hs₂ : (Sheet.ofText (ruleAround " =;d:e")).skipped = 1 := by
    rw [Sheet.ofText, Components.ofText, ofLexemes_eq]
    cbv
  exact ⟨hu, hv, hs₁, hs₂, by rw [hs, hs₁, hs₂]⟩

end ModularScale.Css
