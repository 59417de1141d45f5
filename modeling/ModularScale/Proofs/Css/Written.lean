import ModularScale.Document.Print
import ModularScale.Proofs.Css.Around
import ModularScale.Proofs.Css.Important
import ModularScale.Proofs.Css.Items

/-! # Texts that read as nodes

A written node is read back as what was written, wherever it stands and whatever comes before and
behind it.
-/

namespace ModularScale

namespace Css

open Components

/-- The bracket around the items of a level. -/
def Level.inside : Level → Option Bracket
  | .sheet _ => none
  | .block => some .curly

/-- A text that is read as the given nodes behind any white space and before any other text. Tokens
can go on into white space behind the text, which is read with what follows. -/
def ReadsAs (level : Level) (text : List Char) (f : Forest Node) : Prop :=
  ∀ v r, Spaces v → ∃ cs w, Spaces w ∧ cs.balanced level.inside = true ∧
    tokens (v ++ (text ++ r)) = cs.lexemes ++ tokens (w ++ r) ∧
    ∀ ds, (level.read false (cs ++ ds)).items.map Node.plain =
      f.map Node.plain ++ (level.read false ds).items.map Node.plain

namespace ReadsAs

variable {level : Level} {v w r text text' : List Char} {f g : Forest Node}

theorem nil (level : Level) : ReadsAs level [] .nil := fun v _ hv =>
  ⟨.nil, v, hv, rfl, rfl, fun _ => rfl⟩

theorem append (hf : ReadsAs level text f) (hg : ReadsAs level text' g) :
    ReadsAs level (text ++ text') (f ++ g) := by
  intro v r hv
  obtain ⟨cs, w, hw, hb, ht, hr⟩ := hf v (text' ++ r) hv
  obtain ⟨cs', w', hw', hb', ht', hr'⟩ := hg w r hw
  refine ⟨cs ++ cs', w', hw', ?_, ?_, fun ds => ?_⟩
  · rw [balanced_append, hb, hb', Bool.and_self]
  · rw [List.append_assoc, ht, ht', lexemes_append, List.append_assoc]
  · rw [Components.append_assoc, hr, hr', Forest.map_append, Forest.append_assoc]

theorem spaces_append (hw : Spaces w) (h : ReadsAs level text f) :
    ReadsAs level (w ++ text) f := by
  intro v r hv
  obtain ⟨cs, w', hw', hb, ht, hr⟩ := h (v ++ w) r (hv.append hw)
  exact ⟨cs, w', hw', hb, by rw [← ht]; simp, hr⟩

end ReadsAs

variable {level : Level} {stray : Bool} {core cs ds content : Components} {l : Lexeme}
  {n v w r text lines : List Char} {f g : Forest Node}

theorem drops_of_next (hl : level.next = level) (cs : Components) : level.drops cs = false := by
  cases level with
  | block => rfl
  | sheet first =>
    cases hl
    rfl

theorem plain_consItem (kind : Kind) (line : Nat) (content rest : Sheet) :
    (Sheet.consItem (some kind) line content rest).items.map Node.plain =
      .cons (.made kind.plain) (content.items.map Node.plain) (rest.items.map Node.plain) :=
  rfl

/-- A single item is read behind white space, and what follows it behind a line break. -/
theorem readsAs_single {kind : Kind} {children : Forest Node} {item : List Char}
    (h : ∀ v r, Spaces v → ∃ cs, cs.balanced level.inside = true ∧
      tokens (v ++ (item ++ '\n' :: r)) = cs.lexemes ++ tokens ('\n' :: r) ∧
      ∀ ds, (level.read false (cs ++ ds)).items.map Node.plain =
        .cons (.made kind.plain) (children.map Node.plain)
          ((level.read false ds).items.map Node.plain)) (line : Option Nat) :
    ReadsAs level (item ++ ['\n']) (.single ⟨kind, line⟩ children) := by
  intro v r hv
  obtain ⟨cs, hb, ht, hr⟩ := h v r hv
  refine ⟨cs, ['\n'], ?_, hb, ?_, hr⟩
  · intro c hc
    rw [List.mem_singleton.mp hc]
    rfl
  · rw [List.append_assoc]
    exact ht

theorem readsAs_comment {t : List Char}
    (h : Solid level.inside (leaf ⟨.comment t, '/' :: '*' :: t ++ ['*', '/'], 0⟩ .nil))
    (line : Option Nat) : ReadsAs level (('/' :: '*' :: t ++ ['*', '/']) ++ ['\n'])
      (.single ⟨.comment (String.ofList t), line⟩ .nil) := by
  refine readsAs_single (fun v r hv => ?_) line
  refine ⟨gap v ++ leaf ⟨.comment t, '/' :: '*' :: t ++ ['*', '/'], 0⟩ .nil, ?_, ?_, fun ds => ?_⟩
  · rw [balanced_append, balanced_gap, h.balanced]
    rfl
  · have ht := h.tokens_append ('\n' :: r) (stops_cons rfl r)
    rw [text_leaf, show Components.text nil = [] from rfl, List.append_nil] at ht
    rw [tokens_gap hv rfl, ht, lexemes_append, List.append_assoc]
  · rw [Components.append_assoc, read_gap_append, leaf_append, nil_append, read_comment]
    rfl

theorem tokens_mark {c : Char} {t : Token} (h : nextToken c r = ⟨t, 1⟩) :
    tokens (c :: r) = ⟨t, [c], 0⟩ :: tokens r := by
  rw [tokens_cons, h]
  rfl

theorem tokens_opening (r : List Char) :
    tokens ('\x7b' :: r) = ⟨.opening .curly, ['\x7b'], 0⟩ :: tokens r :=
  tokens_mark rfl

theorem tokens_closing (r : List Char) :
    tokens ('\x7d' :: r) = ⟨.closing .curly, ['\x7d'], 0⟩ :: tokens r :=
  tokens_mark rfl

theorem tokens_semicolon (r : List Char) : tokens (';' :: r) = ⟨.semicolon, [';'], 0⟩ :: tokens r :=
  tokens_mark rfl

theorem tokens_colon (r : List Char) : tokens (':' :: r) = ⟨.colon, [':'], 0⟩ :: tokens r :=
  tokens_mark rfl

theorem tokens_importance (r : List Char) :
    tokens ('!' :: r) = ⟨.delimiter '!', ['!'], 0⟩ :: tokens r :=
  tokens_mark rfl

/-! ### Blocks -/

/-- A block in curly brackets. -/
def curly (content : Components) : Components :=
  .block ⟨.opening .curly, ['\x7b'], 0⟩ .curly content (some ⟨.closing .curly, ['\x7d'], 0⟩) .nil

theorem balanced_curly (hc : content.balanced (some .curly) = true) (inside : Option Bracket) :
    (curly content).balanced inside = true := by
  simp [curly, balanced, hc, Token.opens?, Token.closes?]

theorem run_curly {stop : Stop} (hs : stop.curly = true) (content ds : Components) :
    (curly content ++ ds).run stop = ⟨[], some content, ds⟩ := by
  show (Components.block _ _ content _ ds).run stop = _
  rw [run, hs]
  rfl

theorem tokens_block (h : ReadsAs .block lines f) (depth : Nat) (r : List Char) :
    ∃ content, content.balanced (some .curly) = true ∧
      tokens ('\x7b' :: '\n' :: (lines ++ (indent depth ++ '\x7d' :: r))) =
        (curly content).lexemes ++ tokens r ∧
      (readBody false content).items.map Node.plain = f.map Node.plain := by
  have hn : Spaces ['\n'] := by simp [Spaces, isSpace, isNewline]
  obtain ⟨cs, w, hw, hb, ht, hr⟩ := h ['\n'] (indent depth ++ '\x7d' :: r) hn
  have hi : Spaces (w ++ indent depth) := by
    refine hw.append fun c hc => ?_
    rw [List.eq_of_mem_replicate hc]
    rfl
  refine ⟨cs ++ gap (w ++ indent depth), ?_, ?_, ?_⟩
  · rw [balanced_append, show cs.balanced (some .curly) = true from hb, balanced_gap]
    rfl
  · rw [List.singleton_append] at ht
    rw [tokens_opening, ht, ← List.append_assoc, tokens_gap hi rfl, tokens_closing]
    simp [curly, Components.lexemes]
  · have hg := hr (gap (w ++ indent depth))
    rw [← append_nil (gap _), read_gap_append] at hg
    simpa [Level.read, readBody_nil, Sheet.empty, Forest.map] using hg

/-! ### At-rules -/

/-- The parts of an at-rule as they are written: a name, white space and parameters. -/
structure Heads (level : Level) (n v : List Char) (core : Components) : Prop where
  name : IsName n
  lower : Text.asciiLower n = n
  spaces : Spaces v
  solid : Solid level.inside core
  passes : core.passes nestedStop = true
  parted : ∀ c, (v ++ core.text).head? = some c → isNameChar c = false ∧ c ≠ '\\'

/-- The white space before parameters that are there. -/
def parting (v : List Char) (core : Components) : List Char :=
  if core = nil then [] else v

theorem Heads.tokens_append (h : Heads level n v core) (hw : Spaces w) (hs : Stops (w ++ r))
    (hr : startsWith isSpace r = false) :
    tokens ('@' :: (n ++ (parting v core ++ (core.text ++ (w ++ r))))) =
      ⟨.atKeyword n, '@' :: n, 0⟩ :: ((around (parting v core) core w).lexemes ++ tokens r) := by
  have hv : Spaces (parting v core) := by
    unfold parting
    split
    · exact List.forall_mem_nil _
    · exact h.spaces
  rw [← tokens_around h.solid hv hw hs hr]
  refine tokens_at h.name ?_
  unfold parting
  split
  case isTrue hn =>
    rw [hn]
    exact name_of_stops hs
  case isFalse hn =>
    have hne : v ++ core.text ≠ [] := by simp [h.solid.text_ne_nil hn]
    have hp := h.parted
    rw [← List.append_assoc]
    cases hx : v ++ core.text with
    | nil => exact absurd hx hne
    | cons c x =>
      rw [hx] at hp
      obtain ⟨hc, hb⟩ := hp c rfl
      exact name_stop hc hb _

/-- The parts of an at-rule, but for white space that stands alone. -/
theorem plain_atRule (hu : Text.Trimmed text) (hv : Spaces v) (hw : Spaces w) (n : List Char)
    (hasBlock : Bool) : (atRule n (v ++ text ++ w) hasBlock).plain =
      (Kind.atRule (String.ofList (Text.asciiLower n)) (String.ofList text) (String.ofList v)
        hasBlock).plain := by
  rw [atRule, hu.trim_append hv.isBlank hw.isBlank]
  cases text with
  | nil => rfl
  | cons c text =>
    have hb : (v ++ (c :: text) ++ w).takeWhile Text.isBlank = v := by
      rw [List.append_assoc, List.takeWhile_append_of_pos hv.isBlank, List.cons_append,
        List.takeWhile_cons, hu.head c rfl]
      exact List.append_nil v
    rw [hb]

theorem Heads.plain_atRule (h : Heads level n v core) (hw : Spaces w) (hasBlock : Bool) :
    (atRule n (around (parting v core) core w).text hasBlock).plain =
      (Kind.atRule (String.ofList n) (String.ofList core.text) (String.ofList v)
        hasBlock).plain := by
  rw [text_around]
  unfold parting
  split
  case isTrue hn =>
    rw [Css.plain_atRule (v := []) h.solid.trimmed (List.forall_mem_nil _) hw, h.lower, hn]
    rfl
  case isFalse => rw [Css.plain_atRule h.solid.trimmed h.spaces hw, h.lower]

/-- What ends the head of an item: a `;`, or a block in which nodes are written. -/
structure Ending (tail : List Char) (hasBlock : Bool) (f : Forest Node) : Prop where
  start : ∀ r, startsWith isSpace (tail ++ r) = false
  reads : ∀ r, ∃ e : Components, (∀ inside, e.balanced inside = true) ∧
    tokens (tail ++ '\n' :: r) = e.lexemes ++ tokens ('\n' :: r) ∧
    ∀ ds, ∃ content : Option Components, (e ++ ds).run nestedStop = ⟨[], content, ds⟩ ∧
      content.isSome = hasBlock ∧
      (readBody false (content.getD .nil)).items.map Node.plain = f.map Node.plain

theorem ending_semicolon : Ending [';'] false .nil where
  start _ := rfl
  reads r := by
    refine ⟨leaf ⟨.semicolon, [';'], 0⟩ .nil, fun inside => ?_, tokens_semicolon _,
      fun ds => ⟨none, rfl, rfl, ?_⟩⟩
    · simp [balanced, Token.opens?, closesInside, Token.closes?]
    · rw [Option.getD_none, readBody_nil]
      rfl

theorem ending_block (h : ReadsAs .block lines f) (depth : Nat) :
    Ending ('\x7b' :: '\n' :: (lines ++ (indent depth ++ ['\x7d']))) true f where
  start _ := rfl
  reads r := by
    obtain ⟨content, hc, ht, hf⟩ := tokens_block h depth ('\n' :: r)
    refine ⟨curly content, balanced_curly hc, ?_, fun ds =>
      ⟨some content, run_curly rfl content ds, rfl, hf⟩⟩
    rw [← ht]
    simp

theorem readsAs_atRule {hasBlock : Bool} (hl : level.next = level) (h : Heads level n v core)
    (he : Ending text hasBlock f) (hw : Spaces w) (hs : ∀ r, Stops (w ++ (text ++ r)))
    (line : Option Nat) :
    ReadsAs level ('@' :: (n ++ (parting v core ++ (core.text ++ (w ++ text)))) ++ ['\n'])
      (.single ⟨.atRule (String.ofList n) (String.ofList core.text) (String.ofList v) hasBlock,
        line⟩ f) := by
  refine readsAs_single (fun u r hu => ?_) line
  obtain ⟨e, hb, ht, hr⟩ := he.reads r
  let head := around (parting v core) core w
  have hbal : (leaf ⟨.atKeyword n, '@' :: n, 0⟩ head).balanced level.inside = true := by
    simp [head, balanced, balanced_around h.solid.balanced, Token.opens?, closesInside,
      Token.closes?]
  refine ⟨gap u ++ (leaf ⟨.atKeyword n, '@' :: n, 0⟩ head ++ e), ?_, ?_, fun ds => ?_⟩
  · rw [balanced_append, balanced_append, balanced_gap, hbal, hb]
    rfl
  · have hlex := h.tokens_append hw (hs ('\n' :: r)) (he.start _)
    rw [tokens_gap hu rfl]
    simp only [List.cons_append, List.append_assoc, lexemes_append, Components.lexemes] at hlex ⊢
    rw [hlex, ht]
  · obtain ⟨content, hrun, hk, hf⟩ := hr ds
    have hpass : head.passes nestedStop = true := passes_around h.passes _ _
    have hs : level.startsItem (leaf ⟨.atKeyword n, '@' :: n, 0⟩ (head ++ (e ++ ds))) = true := by
      cases level <;> rfl
    have hitem : level.item (leaf ⟨.atKeyword n, '@' :: n, 0⟩ (head ++ (e ++ ds))) =
        ⟨some (atRule n head.text hasBlock), content.getD .nil, ds⟩ := by
      have : atRuleItem n (head ++ (e ++ ds)) =
          ⟨some (atRule n head.text hasBlock), content.getD .nil, ds⟩ := by
        rw [atRuleItem, run_append hpass, hrun, ← hk]
        simp [Run.cons]
      cases level <;> exact this
    rw [Components.append_assoc, read_gap_append, Components.append_assoc, leaf_append,
      read_item hs (drops_of_next hl _), hitem, plain_consItem, hf, h.plain_atRule hw, hl]

/-! ### Rules -/

theorem read_curly (hl : level.next = level) (hp : cs.passes level.stop = true)
    (hr : level.startsRule (cs ++ (curly content ++ ds)) = true) :
    (level.read false (cs ++ (curly content ++ ds))).items.map Node.plain =
      .cons (.made (rule cs.text)) ((readBody false content).items.map Node.plain)
        ((level.read false ds).items.map Node.plain) := by
  have hne : cs ++ (curly content ++ ds) ≠ Components.nil := by cases cs <;> nofun
  have hc : level.stop.curly = true := by cases level <;> rfl
  have hitem : level.item (cs ++ (curly content ++ ds)) = ⟨some (rule cs.text), content, ds⟩ := by
    rw [item_of_startsRule hr, ruleItem, run_append hp, run_curly hc]
    simp [Run.cons]
  rw [read_item (startsItem_of_startsRule hr hne) (drops_of_next hl _), hitem, plain_consItem, hl]
  rfl

theorem readsAs_rule (hl : level.next = level) (h : Solid level.inside core)
    (hp : core.passes level.stop = true) (hr : level.startsRule core = true)
    (hf : ReadsAs .block lines f) (depth : Nat) (line : Option Nat) :
    ReadsAs level (core.text ++ (' ' :: '\x7b' :: '\n' :: (lines ++ (indent depth ++ ['\x7d']))) ++
      ['\n']) (.single ⟨.rule (String.ofList core.text), line⟩ f) := by
  refine readsAs_single (fun v r hv => ?_) line
  have hw : Spaces [' '] := by simp [Spaces, isSpace]
  obtain ⟨content, hc, ht, hf⟩ := tokens_block hf depth ('\n' :: r)
  refine ⟨around v core [' '] ++ curly content, ?_, ?_, fun ds => ?_⟩
  · rw [balanced_append, balanced_around h.balanced, balanced_curly hc]
    rfl
  · have hlex := tokens_around h hv hw (stops_cons rfl _) (r := '\x7b' :: '\n' :: (lines ++
      (indent depth ++ '\x7d' :: '\n' :: r))) rfl
    rw [ht] at hlex
    simp only [lexemes_append, List.append_assoc, List.cons_append, List.nil_append] at hlex ⊢
    exact hlex
  · rw [Components.append_assoc]
    unfold around
    split
    case isTrue hn =>
      rw [read_gap_append, ← nil_append (curly content ++ ds), read_curly hl rfl rfl, hf, hn]
      rfl
    case isFalse hn =>
      have hr : level.startsRule (core ++ gap [' '] ++ (curly content ++ ds)) = true := by
        rw [Components.append_assoc, startsRule_append rfl hn, hr]
      have htrim := h.trimmed.trim_append (v := []) (List.forall_mem_nil _) hw.isBlank
      rw [Components.append_assoc, read_gap_append, read_curly hl ?_ hr, hf, text_append, text_gap,
        rule, ← List.nil_append core.text, htrim]
      · rfl
      · rw [passes_append, hp, passes_gap]
        rfl

/-! ### Declarations -/

theorem readsAs_value (value : Components) (hn : IsName n)
    (hb : value.balanced (some .curly) = true) (hp : value.passes valueStop = true)
    (ht : ∀ r, tokens (value.text ++ ';' :: r) = value.lexemes ++ tokens (';' :: r))
    (line : Option Nat) :
    ReadsAs .block (n ++ ':' :: (value.text ++ [';']) ++ ['\n'])
      (.single ⟨declaration n value.text, line⟩ .nil) := by
  refine readsAs_single (fun v r hv => ?_) line
  let tail := value ++ leaf ⟨.semicolon, [';'], 0⟩ .nil
  have htail : tail.balanced (some .curly) = true := by
    simp [tail, balanced_append, hb, balanced, Token.opens?, closesInside, Token.closes?]
  refine ⟨gap v ++ leaf ⟨.ident n, n, 0⟩ (leaf ⟨.colon, [':'], 0⟩ tail), ?_, ?_, fun ds => ?_⟩
  · rw [balanced_append, balanced_gap]
    simp [balanced, Token.opens?, closesInside, Token.closes?, show Level.block.inside = some .curly
      from rfl, htail]
  · have hs : startsWith isSpace (n ++ ':' :: (value.text ++ ';' :: '\n' :: r)) = false := by
      cases n with
      | nil => rfl
      | cons c n =>
        rw [← Bool.not_eq_true]
        intro hs
        have hc := (hn.chars c List.mem_cons_self).1
        rw [isNameChar_of_isStop] at hc
        · cases hc
        · rw [isStop, show isSpace c = true from hs]
          rfl
    have hlex := tokens_name hn (r := ':' :: (value.text ++ ';' :: '\n' :: r)) (stops_cons rfl _)
    rw [tokens_colon, ht, tokens_semicolon] at hlex
    simp only [List.append_assoc, List.cons_append, List.nil_append] at hlex ⊢
    rw [tokens_gap hv hs, hlex]
    simp [tail, Components.lexemes]
  · have hrun : (tail ++ ds).run valueStop = ⟨value.text, none, ds⟩ := by
      show (value ++ _ ++ ds).run valueStop = _
      rw [Components.append_assoc, run_append hp]
      show (Run.mk [] none ds).cons value.text = _
      simp [Run.cons]
    have hitem : bodyItem (leaf ⟨.ident n, n, 0⟩ (leaf ⟨.colon, [':'], 0⟩ (tail ++ ds))) =
        ⟨some (declaration n value.text), .nil, ds⟩ := by
      show declarationItem n (tail ++ ds) = _
      rw [declarationItem, hrun]
    rw [Components.append_assoc, read_gap_append, leaf_append, leaf_append,
      read_item rfl rfl, Level.item, hitem, plain_consItem, readBody_nil]
    rfl

theorem readsAs_declaration (hn : IsName n) (hc : propertyName n = n)
    (h : Solid (some .curly) core) (hp : core.passes valueStop = true)
    (hi : splitImportant core.text = (core.text, false)) (line : Option Nat) :
    ReadsAs .block (n ++ ':' :: (' ' :: core.text ++ [';']) ++ ['\n'])
      (.single ⟨.declaration (String.ofList n) (String.ofList core.text) false, line⟩ .nil) := by
  have hs : Spaces [' '] := by simp [Spaces, isSpace]
  have hk : declaration n (' ' :: core.text) =
      .declaration (String.ofList n) (String.ofList core.text) false := by
    have htrim := h.trimmed.trim_append hs.isBlank (w := []) (List.forall_mem_nil _)
    rw [List.append_nil] at htrim
    have hv : splitImportant (' ' :: core.text) = (core.text, false) := by
      rw [← hi]
      exact splitImportant_congr (htrim.trans h.trimmed.trim_eq.symm)
    rw [declaration, hv, hc]
  have ht : (around [' '] core []).text = ' ' :: core.text := by
    rw [text_around]
    exact List.append_nil _
  have hval := readsAs_value _ hn (balanced_around h.balanced [' '] []) (passes_around hp [' '] [])
    (fun r => ?_) line
  · rwa [ht, hk] at hval
  · rw [ht, ← tokens_around h hs (w := []) (List.forall_mem_nil _) (stops_cons rfl r) rfl]
    rfl

theorem readsAs_important (hn : IsName n) (hc : propertyName n = n)
    (h : Solid (some .curly) core) (hp : core.passes valueStop = true) (line : Option Nat) :
    ReadsAs .block (n ++ ':' :: (' ' :: (core.text ++ " !important".toList) ++ [';']) ++ ['\n'])
      (.single ⟨.declaration (String.ofList n) (String.ofList core.text) true, line⟩ .nil) := by
  have hs : Spaces [' '] := by simp [Spaces, isSpace]
  have hk : declaration n (' ' :: (core.text ++ " !important".toList)) =
      .declaration (String.ofList n) (String.ofList core.text) true := by
    have hv : splitImportant ([' '] ++ (core.text ++ ' ' :: '!' :: "important".toList)) =
        (core.text, true) := splitImportant_append h.trimmed hs.isBlank
    rw [declaration, show ' ' :: (core.text ++ " !important".toList) =
      [' '] ++ (core.text ++ ' ' :: '!' :: "important".toList) from rfl, hv, hc]
  let mark := leaf ⟨.delimiter '!', ['!'], 0⟩
    (leaf ⟨.ident "important".toList, "important".toList, 0⟩ .nil)
  have ht : (around [' '] core [' '] ++ mark).text = ' ' :: (core.text ++ " !important".toList) := by
    rw [text_append, text_around, List.append_assoc]
    exact List.append_assoc [' '] core.text _
  have hi : IsName "important".toList := isName_of_all (by decide) (by decide)
  have hval := readsAs_value (around [' '] core [' '] ++ mark) hn ?_ ?_ (fun r => ?_) line
  · rwa [ht, hk] at hval
  · rw [balanced_append, balanced_around h.balanced]
    rfl
  · rw [passes_append, passes_around hp]
    rfl
  · have hlex := tokens_around h hs hs (r := '!' :: ("important".toList ++ ';' :: r))
      (stops_cons rfl _) rfl
    rw [tokens_importance, tokens_name hi (stops_cons rfl r)] at hlex
    rw [ht, lexemes_append, List.append_assoc]
    refine Eq.trans ?_ hlex
    rw [List.cons_append, List.append_assoc]
    rfl

end Css

end ModularScale
