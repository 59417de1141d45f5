import ModularScale.Proofs.Css.Newlines
import ModularScale.Proofs.Css.TopLevel
import ModularScale.Proofs.Css.Written

/-! # Joined style sheets

A text of complete items and closed comments is read on its own, whatever text follows it, and the
text behind it is read as if it came first, further down.
-/

namespace ModularScale

namespace Css

open Components

/-! ## Complete texts -/

variable {cs ds : Components} {x : List Char}

namespace Components

/-- Closed comments and whole items one after the other, with white space before each of them. No
item is a `@charset`. -/
inductive Complete : Components → Prop
  | nil : Complete nil
  | space {text : List Char} {line : Nat} {rest : Components} (h : Complete rest)
      (hne : rest ≠ nil) : Complete (leaf ⟨.whiteSpace, text, line⟩ rest)
  | comment {content text : List Char} {line : Nat} {rest : Components}
      (hc : (Token.comment content).isClosed text = true) (h : Complete rest) :
    Complete (leaf ⟨.comment content, text, line⟩ rest)
  | item {cs rest : Components} (hi : cs.IsWhole) (hc : (Level.sheet true).drops cs = false)
      (h : Complete rest) : Complete (cs ++ rest)

/-- Whether a `@charset` comes first, but for what stands between items. -/
def startsCharset : Components → Bool
  | leaf l rest =>
    if (Level.sheet true).passesOver l.token then rest.startsCharset else isCharset l.token
  | _ => false

theorem Complete.exists_last (h : cs.Complete) (hne : cs ≠ .nil) : ∃ ls l z,
    cs.lexemes = ls ++ [l] ∧ l.token.barrier? = some z ∧ l.token.isClosed l.text = true := by
  induction h with
  | nil => exact absurd rfl hne
  | space h hr ih =>
    obtain ⟨ls, l, z, hl, hz⟩ := ih hr
    exact ⟨_ :: ls, l, z, by rw [lexemes, hl, List.cons_append], hz⟩
  | @comment content text line rest hc h ih =>
    by_cases hr : rest = .nil
    · subst hr
      exact ⟨[], ⟨.comment content, text, line⟩, '/', rfl, rfl, hc⟩
    · obtain ⟨ls, l, z, hl, hz⟩ := ih hr
      exact ⟨_ :: ls, l, z, by rw [lexemes, hl, List.cons_append], hz⟩
  | @item cs rest hi hc h ih =>
    by_cases hr : rest = .nil
    · subst hr
      obtain ⟨ls, l, hl, ht⟩ := hi.exists_last
      rw [append_nil]
      rcases ht with ht | ht
      · exact ⟨ls, l, ';', hl, by rw [ht]; rfl, by rw [ht]; rfl⟩
      · exact ⟨ls, l, '\x7d', hl, by rw [ht]; rfl, by rw [ht]; rfl⟩
    · obtain ⟨ls, l, z, hl, hz⟩ := ih hr
      exact ⟨cs.lexemes ++ ls, l, z, by rw [lexemes_append, hl, List.append_assoc], hz⟩

end Components

/-- A text of closed comments and complete items, with one of them last. -/
structure IsComplete (x : List Char) : Prop where
  balanced : (ofText x).balanced none = true
  complete : (ofText x).Complete

theorem IsComplete.tokens_append (h : IsComplete x) (y : List Char) :
    tokens (x ++ y) = tokens x ++ tokens y := by
  by_cases hne : ofText x = .nil
  · have hx := text_ofText x
    rw [hne] at hx
    obtain rfl : [] = x := hx
    exact (congrArg (· ++ tokens y) tokens_nil).symm
  · have hlex : (ofText x).lexemes = Css.lexemes 1 x := lexemes_ofLexemes _
    obtain ⟨ls, l, z, hl, hz, hc⟩ := h.complete.exists_last hne
    rw [hlex] at hl
    have hx : tokens x = ls.map Lexeme.bare ++ [l.bare] := by
      rw [← map_bare_lexemes 1, hl, List.map_append]
      rfl
    exact Css.tokens_append hx (l := l.bare) hz hc y

theorem IsComplete.components_append (h : IsComplete x) (y : List Char) :
    ofText (x ++ y) = ofText x ++ (ofText y).relined (· + newlines x) := by
  have hlex : (ofText x).lexemes = Css.lexemes 1 x := lexemes_ofLexemes _
  rw [ofText, lexemes_append_of_tokens (h.tokens_append y), ← hlex, ofLexemes,
    (read_lexemes_append h.balanced _).1]
  exact congrArg (ofText x ++ ·) (ofLexemes_relined _ _)

/-! ## Joined sheets -/

/-- The items of two sheets one after the other. -/
def Sheet.join (s t : Sheet) : Sheet :=
  ⟨s.items ++ t.items, s.skipped + t.skipped⟩

theorem Sheet.empty_join (t : Sheet) : Sheet.empty.join t = t := by
  simp [Sheet.join, Sheet.empty]

theorem Sheet.consItem_join (kind : Option Kind) (line : Nat) (content rest t : Sheet) :
    (consItem kind line content rest).join t = consItem kind line content (rest.join t) := by
  cases kind with
  | none => simp [consItem, skip, join, Nat.add_right_comm]
  | some kind => simp [consItem, Sheet.cons, join, Nat.add_assoc]

theorem readSheet_of_startsCharset (h : ds.startsCharset = false) (stray : Bool) :
    readSheet true stray ds = readSheet false stray ds := by
  have hitem : ∀ (ds : Components) stray, (Level.sheet true).startsItem ds = true →
      (Level.sheet true).drops ds = false → readSheet true stray ds = readSheet false stray ds := by
    intro ds stray hs hd
    have hfirst : (Level.sheet true).read stray ds = _ := read_item hs hd
    have hlater : (Level.sheet false).read stray ds = _ := read_item hs rfl
    exact hfirst.trans hlater.symm
  induction ds generalizing stray with
  | nil => rw [readSheet, readSheet]
  | leaf l rest ih =>
    rw [startsCharset] at h
    split at h
    case isTrue hp =>
      obtain ⟨token, text, line⟩ := l
      show (Level.sheet true).read stray _ = (Level.sheet false).read stray _
      rcases token_cases token with ht | ⟨comment, ht⟩ | ht
      · cases ht
        rw [read_space, read_space]
        exact ih h stray
      · cases ht
        rw [read_comment, read_comment]
        cases stray with
        | true => exact ih h true
        | false => exact congrArg (Sheet.cons _ line .empty) (ih h false)
      · have hlater : (Level.sheet false).passesOver token = true := hp
        rw [read_mark stray hp ht, read_mark stray hlater ht]
        exact ih h true
    case isFalse hp => exact hitem _ stray (by simp [Level.startsItem, hp]) h
  | block l bracket inner closing rest => exact hitem _ stray rfl rfl

/-- Complete components are read on their own, whatever follows them. -/
theorem readSheet_append (h : cs.Complete) (hd : ds.startsCharset = false) (first : Bool) :
    readSheet first false (cs ++ ds) =
      (readSheet first false cs).join (readSheet false false ds) := by
  induction h generalizing first with
  | nil =>
    rw [nil_append, readSheet, Sheet.empty_join]
    cases first with
    | false => rfl
    | true => exact readSheet_of_startsCharset hd false
  | @space text line rest h hne ih =>
    have hspace : ∀ cs, readSheet first false (leaf ⟨.whiteSpace, text, line⟩ cs) =
        readSheet first false cs := @read_space (.sheet first) false text line
    rw [leaf_append, hspace, hspace, ih]
  | @comment content text line rest hc h ih =>
    have hcomment : ∀ cs, readSheet first false (leaf ⟨.comment content, text, line⟩ cs) =
        .consItem (some (.comment (String.ofList content))) line .empty
          (readSheet first false cs) :=
      @read_comment (.sheet first) false content text line
    rw [leaf_append, hcomment, hcomment, ih, Sheet.consItem_join]
  | @item cs rest hi hc h ih =>
    obtain ⟨kind, content, hitem⟩ := hi.exists_sheetItem
    have hs : (Level.sheet first).startsItem cs = true := hi.startsItem
    have hread : ∀ ds, readSheet first false (cs ++ ds) =
        .consItem kind cs.line (readBody false content) (readSheet false false ds) := by
      intro ds
      have hdrop : (Level.sheet first).drops (cs ++ ds) = false := by
        rw [drops_append hs]
        cases first with
        | false => cases cs <;> rfl
        | true => exact hc
      have hline : (cs ++ ds).line = cs.line := by
        cases cs with
        | nil => cases hs
        | leaf => rfl
        | block => rfl
      have hr : readSheet first false (cs ++ ds) = .consItem (cs ++ ds).sheetItem.kind
          (cs ++ ds).line (readBody false (cs ++ ds).sheetItem.content)
            (readSheet false false (cs ++ ds).sheetItem.after) :=
        read_item (startsItem_append hs ds) hdrop
      rw [hr, hitem, hline]
    rw [Components.append_assoc, hread, hread, ih, Sheet.consItem_join]

theorem startsCharset_relined (f : Nat → Nat) (cs : Components) :
    (cs.relined f).startsCharset = cs.startsCharset := by
  induction cs with
  | nil => rfl
  | leaf l rest ih => simp only [relined, startsCharset, Lexeme.relined, ih]
  | block => rfl

theorem Sheet.ofText_append_eq_join {x y : String} (hx : IsComplete x.toList)
    (hy : (Components.ofText y.toList).startsCharset = false) :
    Sheet.ofText (x ++ y) =
      (Sheet.ofText x).join ((Sheet.ofText y).relined (· + newlines x.toList)) := by
  let f := (· + newlines x.toList)
  have hd : ((Components.ofText y.toList).relined f).startsCharset = false := by
    rw [startsCharset_relined, hy]
  have hr : readSheet true false ((Components.ofText y.toList).relined f) =
      (Sheet.ofText y).relined f := read_relined f (.sheet true) _ false
  rw [Sheet.ofText, String.toList_append, hx.components_append, readSheet_append hx.complete hd,
    ← readSheet_of_startsCharset hd, hr]
  rfl

theorem startsCharset_ofText (text : List Char) :
    (ofText text).startsCharset = (ofLexemes (tokens text)).startsCharset := by
  rw [← bare_ofText, ← relined_zero, startsCharset_relined]

/-- The style sheet of a text that stands behind other items. -/
def Sheet.ofLaterText (text : String) : Sheet :=
  readSheet false false (Components.ofText text.toList)

theorem Sheet.ofLaterText_eq {text : String}
    (h : (Components.ofText text.toList).startsCharset = false) : ofLaterText text = ofText text :=
  (readSheet_of_startsCharset h false).symm

theorem Sheet.map_plain_ofLaterText (text : String) :
    (ofLaterText text).items.map Node.plain =
      ((Level.sheet false).read false (ofLexemes (tokens text.toList))).items.map Node.plain := by
  rw [← map_bare_lexemes 1 text.toList, ofLexemes_bare]
  exact (read_bare (.sheet false) _ false).symm

/-! ### White space before a text -/

theorem ofLexemes_gap (w : List Char) (ls : List Lexeme) :
    ofLexemes ((gap w).lexemes ++ ls) = gap w ++ ofLexemes ls :=
  (read_lexemes_append (balanced_gap none w) ls).1

/-- White space before a text adds to the white space that the text starts with. -/
theorem exists_gaps {w : List Char} (hw : Spaces w) (y : List Char) : ∃ v v' cs,
    ofLexemes (tokens (w ++ y)) = gap v ++ cs ∧ ofLexemes (tokens y) = gap v' ++ cs := by
  have hs : Spaces (y.takeWhile isSpace) := fun c hc => List.mem_takeWhile_imp hc
  have hr : startsWith isSpace (y.dropWhile isSpace) = false := by
    rw [startsWith_eq, Bool.not_eq_false', List.isEmpty_iff, List.takeWhile_eq_nil_iff]
    intro hlt
    exact List.dropWhile_get_zero_not isSpace y hlt
  rw [← List.takeWhile_append_dropWhile (p := isSpace) (l := y), ← List.append_assoc,
    tokens_gap (hw.append hs) hr, tokens_gap hs hr, ofLexemes_gap, ofLexemes_gap]
  exact ⟨_, _, _, rfl, rfl⟩

theorem read_spaces_append {w : List Char} (hw : Spaces w) (level : Level) (stray : Bool)
    (y : List Char) : level.read stray (ofLexemes (tokens (w ++ y))) =
      level.read stray (ofLexemes (tokens y)) := by
  obtain ⟨v, v', cs, h, h'⟩ := exists_gaps hw y
  rw [h, h', read_gap_append, read_gap_append]

theorem startsCharset_gap_append (w : List Char) (cs : Components) :
    (gap w ++ cs).startsCharset = cs.startsCharset := by
  unfold gap
  split <;> rfl

theorem startsCharset_spaces_append {w : List Char} (hw : Spaces w) (y : List Char) :
    (ofText (w ++ y)).startsCharset = (ofText y).startsCharset := by
  obtain ⟨v, v', cs, h, h'⟩ := exists_gaps hw y
  rw [startsCharset_ofText, startsCharset_ofText, h, h', startsCharset_gap_append,
    startsCharset_gap_append]

/-! ### Texts that others can follow -/

/-- A text behind which each other one is read as on its own, unless it starts with a `@charset`. -/
def Sheet.EndsItem (x : String) : Prop :=
  ∀ y : String, (Components.ofText y.toList).startsCharset = false →
    (ofText (x ++ y)).items.map Node.plain =
      (ofText x).items.map Node.plain ++ (ofText y).items.map Node.plain

theorem IsComplete.endsItem {x : String} (hx : IsComplete x.toList) : Sheet.EndsItem x := by
  intro y hy
  rw [Sheet.ofText_append_eq_join hx hy, Sheet.join, Forest.map_append,
    ← Sheet.map_plain_bare (Sheet.relined _ _), Sheet.bare_relined, Sheet.map_plain_bare]

/-- White space can stand before what follows. -/
theorem Sheet.EndsItem.spaces {x : String} {w : List Char} (hx : EndsItem x) (hw : Spaces w) :
    EndsItem (x ++ String.ofList w) := by
  have hspaces : ∀ y : String, (Components.ofText y.toList).startsCharset = false →
      (ofText (x ++ (String.ofList w ++ y))).items.map Node.plain =
        (ofText x).items.map Node.plain ++ (ofText y).items.map Node.plain := by
    intro y hy
    have htext : (String.ofList w ++ y).toList = w ++ y.toList := by simp
    have hw' : (Components.ofText (String.ofList w ++ y).toList).startsCharset = false := by
      rw [htext, startsCharset_spaces_append hw, hy]
    rw [hx _ hw', ← ofLaterText_eq hw', ← ofLaterText_eq hy, map_plain_ofLaterText,
      map_plain_ofLaterText, htext, read_spaces_append hw]
  have hempty : (Components.ofText "".toList).startsCharset = false := by
    rw [Components.ofText, ofLexemes_eq]
    cbv
  have hnil := hspaces "" hempty
  have hitems : (ofText "").items = .nil := by
    rw [ofText, Components.ofText, ofLexemes_eq]
    cbv
  rw [String.append_empty, hitems, Forest.map, Forest.append_nil] at hnil
  intro y hy
  rw [String.append_assoc, hspaces y hy, hnil]

/-- A text that is read as some nodes is read so before any other text. -/
theorem ReadsAs.read_append {level : Level} {text : List Char} {f : Forest Node}
    (h : ReadsAs level text f) (hl : level.inside = none) (r : List Char) :
    (level.read false (ofLexemes (tokens (text ++ r)))).items.map Node.plain =
      f.map Node.plain ++ (level.read false (ofLexemes (tokens r))).items.map Node.plain := by
  obtain ⟨cs, w, hw, hb, ht, hr⟩ := h [] r (List.forall_mem_nil _)
  rw [hl] at hb
  rw [List.nil_append] at ht
  rw [ht, ofLexemes, (read_lexemes_append hb _).1, hr, ← read_spaces_append hw, ofLexemes]

/-- Behind complete items a text is read as on its own, with its lines further down, unless it
starts with a `@charset`. -/
theorem Sheet.ofText_append {x y : String} (hx : IsComplete x.toList)
    (hy : (Components.ofText y.toList).startsCharset = false) :
    (Sheet.ofText (x ++ y)).items = (Sheet.ofText x).items ++
        (Sheet.ofText y).items.map (Node.relined (· + newlines x.toList)) ∧
      (Sheet.ofText (x ++ y)).skipped = (Sheet.ofText x).skipped + (Sheet.ofText y).skipped := by
  rw [ofText_append_eq_join hx hy]
  exact ⟨rfl, rfl⟩

/-- A comment and a rule before a text that starts with a bracket that nothing opens. -/
theorem Sheet.ofText_append_rule :
    IsComplete "/*a*/\n.x\x7b\x7d".toList ∧
    (Components.ofText "\x7d\n.y\x7b".toList).startsCharset = false ∧
    newlines "/*a*/\n.x\x7b\x7d".toList = 1 ∧
    (Sheet.ofText ("/*a*/\n.x\x7b\x7d" ++ "\x7d\n.y\x7b")).items =
      (Sheet.ofText "/*a*/\n.x\x7b\x7d").items ++
        (Sheet.ofText "\x7d\n.y\x7b").items.map (Node.relined (· + 1)) := by
  have hc : Components.ofText "/*a*/\n.x\x7b\x7d".toList =
      leaf ⟨.comment ['a'], "/*a*/".toList, 1⟩ (leaf ⟨.whiteSpace, ['\n'], 1⟩
        (leaf ⟨.delimiter '.', ['.'], 2⟩ (leaf ⟨.ident ['x'], ['x'], 2⟩ .nil) ++
          .block ⟨.opening .curly, ['\x7b'], 2⟩ .curly .nil (some ⟨.closing .curly, ['\x7d'], 2⟩)
            .nil ++ .nil)) := by
    rw [Components.ofText, ofLexemes_eq]
    cbv
  have hx : IsComplete "/*a*/\n.x\x7b\x7d".toList := by
    constructor
    · rw [hc]
      rfl
    · rw [hc]
      exact .comment rfl (.space (.item (.rule rfl rfl rfl) rfl .nil) (by rintro ⟨⟩))
  have hy : (Components.ofText "\x7d\n.y\x7b".toList).startsCharset = false := by
    rw [Components.ofText, ofLexemes_eq]
    cbv
  exact ⟨hx, hy, rfl, (Sheet.ofText_append hx hy).1⟩

end Css

end ModularScale
