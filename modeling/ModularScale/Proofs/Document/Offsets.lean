import Mathlib
import ModularScale.Proofs.Css.Lines
import ModularScale.Proofs.Css.Newlines
import ModularScale.Proofs.Css.Slices
import ModularScale.Proofs.Document.Reparsing

/-! # Lines of nodes

A node starts on the line of the first character of what it was read from. To say which character
this is, the tokens are given the numbers of characters before them in place of their lines: then
the nodes come with such numbers, too.
-/

namespace ModularScale

namespace Css

variable {c : Char} {cs : List Char} {l : Lexeme} {ls ms : List Lexeme} {f : Nat → Nat} {m n : Nat}

/-! ## Offsets of tokens -/

theorem KeepsBreaks.take (h : KeepsBreaks cs m) (n : Nat) : KeepsBreaks (cs.take n) m := by
  intro a b he
  refine h a (b ++ cs.drop n) ?_
  calc cs = cs.take n ++ cs.drop n := (List.take_append_drop n cs).symm
    _ = a ++ '\r' :: '\n' :: (b ++ cs.drop n) := by rw [he]; simp

theorem newlines_take_add (h : KeepsBreaks cs m) (n : Nat) :
    newlines (cs.take (m + n)) = newlines (cs.take m) + newlines ((cs.drop m).take n) := by
  rw [← newlines_take_drop (h.take (m + n)), List.take_take, Nat.min_eq_left (Nat.le_add_right m n),
    List.drop_take, Nat.add_sub_cancel_left]

theorem text_ne_nil_of_mem_tokens (h : l ∈ tokens cs) : l.text ≠ [] := by
  induction hn : cs.length using Nat.strongRecOn generalizing cs with
  | _ n ih =>
    cases cs with
    | nil =>
      rw [tokens_nil] at h
      cases h
    | cons c cs =>
      rw [tokens_cons] at h
      rcases List.mem_cons.mp h with rfl | h
      · exact List.cons_ne_nil _ _
      · refine ih _ ?_ h rfl
        rw [← hn, List.length_drop, List.length_cons]
        omega

/-- Tokens with the numbers of characters before them in place of their lines, if there are some
before the first one already. -/
def onOffsets (n : Nat) : List Lexeme → List Lexeme
  | [] => []
  | l :: ls => { l with line := n } :: onOffsets (n + l.text.length) ls

theorem spelled_onOffsets (n : Nat) (ls : List Lexeme) : spelled (onOffsets n ls) = spelled ls := by
  induction ls generalizing n with
  | nil => rfl
  | cons l ls ih => rw [onOffsets, spelled_cons, spelled_cons, ih]

/-- The line of a token counts the lines that end before it. -/
theorem lexemes_eq_onOffsets (line : Nat) (cs : List Char) :
    ∀ m, (∀ n, f (m + n) = line + newlines (cs.take n)) →
      lexemes line cs = (onOffsets m (tokens cs)).map (Lexeme.relined f) := by
  fun_induction lexemes line cs with
  | case1 => simp [onOffsets]
  | case2 line c cs next text ih =>
    intro m hf
    have hline : f m = line := by
      have h0 := hf 0
      rwa [List.take_zero, Nat.add_zero] at h0
    have hlen : text.length = next.length - 1 + 1 := by
      have := length_nextToken_le c cs
      simp only [text, next, List.length_cons, List.length_take]
      omega
    have htake : (c :: cs).take text.length = text := by
      rw [hlen, List.take_succ_cons]
    have hrest := ih (m + text.length) fun n => by
      have hn := hf (text.length + n)
      have hcut : KeepsBreaks (c :: cs) text.length := hlen ▸ keepsBreaks_token c cs
      rw [newlines_take_add hcut, htake, ← Nat.add_assoc, ← Nat.add_assoc] at hn
      rw [hn, hlen, List.drop_succ_cons]
    rw [tokens_cons, onOffsets, List.map_cons, hrest, Lexeme.relined, hline]

theorem pairwise_onOffsets (h : ∀ l ∈ ls, l.text ≠ []) (n : Nat) :
    (onOffsets n ls).Pairwise (·.line < ·.line) ∧ ∀ l ∈ onOffsets n ls, n ≤ l.line := by
  induction ls generalizing n with
  | nil => exact ⟨.nil, List.forall_mem_nil _⟩
  | cons l ls ih =>
    obtain ⟨hl, h⟩ := List.forall_mem_cons.mp h
    obtain ⟨hp, hn⟩ := ih h (n + l.text.length)
    have hpos := List.length_pos_of_ne_nil hl
    constructor
    · refine .cons (fun m hm => ?_) hp
      have := hn m hm
      show n < m.line
      omega
    · refine List.forall_mem_cons.mpr ⟨Nat.le_refl n, fun m hm => ?_⟩
      have := hn m hm
      omega

theorem spelled_prefix (h : ls <+: ms) : spelled ls <+: spelled ms := by
  obtain ⟨ks, rfl⟩ := h
  exact ⟨spelled ks, (spelled_append ls ks).symm⟩

/-- From its offset on, the text starts with a token and those behind it. -/
theorem prefix_drop_of_infix (h : l :: ms <:+: onOffsets n ls) :
    n ≤ l.line ∧ spelled (l :: ms) <+: (spelled ls).drop (l.line - n) := by
  induction ls generalizing n with
  | nil => cases List.infix_nil.mp h
  | cons k ls ih =>
    rcases List.infix_cons_iff.mp h with h | h
    · rw [List.cons_prefix_cons] at h
      obtain ⟨rfl, hms⟩ := h
      have hms := spelled_prefix hms
      rw [spelled_onOffsets] at hms
      refine ⟨Nat.le_refl n, ?_⟩
      rw [Nat.sub_self]
      exact (List.prefix_append_right_inj k.text).mpr hms
    · obtain ⟨hn, hp⟩ := ih h
      refine ⟨Nat.le_trans (Nat.le_add_right n _) hn, ?_⟩
      have hd : l.line - n = k.text.length + (l.line - (n + k.text.length)) := by omega
      rw [hd, ← List.drop_drop, spelled_cons k ls, List.drop_left]
      exact hp

/-! ## Offsets of items -/

open Components

/-- What an item leaves stands together: the content of its block, and what follows it. -/
theorem item_infix {level : Level} {cs : Components} (h : level.startsItem cs = true) :
    (level.item cs).content.lexemes <:+: cs.lexemes ∧
      (level.item cs).after.lexemes <:+: cs.lexemes := by
  obtain ⟨⟨head, ha⟩, hc⟩ := item_parts h
  have hafter := congrArg Components.lexemes ha
  rw [lexemes_append] at hafter
  refine ⟨?_, hafter ▸ (List.suffix_append _ _).isInfix⟩
  rcases hc with hc | ⟨head, l, closing, hc⟩
  · rw [hc]
    exact List.nil_infix
  · have hblock := congrArg Components.lexemes hc
    rw [lexemes_append, Components.lexemes] at hblock
    rw [hblock]
    exact ⟨head.lexemes ++ [l], closing.toList ++ (level.item cs).after.lexemes, by simp⟩

variable {text : String} {level : Level} {cs : Components} {node : Node}

/-- A node is what is read first at a place of the text. On other lines, which tell those in the
text, the components there start with one of some tokens, and the node starts on its line. -/
def ReadFrom (text : String) (f : Nat → Nat) (ls : List Lexeme) (node : Node) : Prop :=
  ∃ level cs, Place text level (cs.relined f) ∧ cs.lexemes <:+: ls ∧
    level.first? cs = some node.kind ∧ node.line = some cs.line

theorem ReadFrom.mono (h : ReadFrom text f ls node) (hi : ls <:+: ms) : ReadFrom text f ms node := by
  obtain ⟨level, cs, hp, hc, hk⟩ := h
  exact ⟨level, cs, hp, hc.trans hi, hk⟩

theorem readFrom_of_mem_read (hp : Place text level (cs.relined f)) (stray : Bool)
    (hn : node ∈ (level.read stray cs).items.toList) : ReadFrom text f cs.lexemes node := by
  induction level, cs using Level.induction generalizing stray with
  | nil level =>
    have hnil : (level.read stray .nil).items = .nil := by
      cases level with
      | block => rw [Level.read, readBody]; rfl
      | sheet first => rw [Level.read, readSheet]; rfl
    rw [hnil] at hn
    cases hn
  | gap level l rest hl ih =>
    have hrest (stray : Bool) (hn : node ∈ (level.read stray rest).items.toList) :
        ReadFrom text f (leaf l rest).lexemes node :=
      (ih (.gap hp hl) stray hn).mono (List.infix_cons List.infix_rfl)
    obtain ⟨token, spelling, line⟩ := l
    rcases token_cases token with ht | ⟨comment, ht⟩ | ht
    · subst ht
      rw [read_space] at hn
      exact hrest stray hn
    · subst ht
      rw [read_comment] at hn
      cases stray with
      | true => exact hrest true hn
      | false =>
        rcases List.mem_cons.mp hn with rfl | hn
        · exact ⟨level, _, hp, List.infix_rfl, rfl, rfl⟩
        · exact hrest false hn
    · rw [read_mark stray hl ht] at hn
      exact hrest true hn
  | item level cs hs ihc iha =>
    have hitem := item_relined f level cs
    have hs' : level.startsItem (cs.relined f) = true := startsItem_relined f level cs ▸ hs
    obtain ⟨hci, hai⟩ := item_infix hs
    have hafter (stray : Bool) (hn : node ∈ (level.next.read stray (level.item cs).after).items.toList) :
        ReadFrom text f cs.lexemes node := by
      have hplace := hp.behind hs'
      rw [hitem] at hplace
      exact (iha hplace stray hn).mono hai
    cases hd : level.drops cs with
    | true =>
      rw [read_dropped hs hd] at hn
      exact hafter true hn
    | false =>
      rw [read_item hs hd] at hn
      cases hk : (level.item cs).kind with
      | none =>
        rw [hk] at hn
        exact hafter false hn
      | some kind =>
        rw [hk] at hn
        rcases List.mem_cons.mp hn with rfl | hn
        · exact ⟨level, cs, hp, List.infix_rfl, (first?_item hs).trans hk, rfl⟩
        · rcases List.mem_append.mp hn with hn | hn
          · have hplace := hp.inside hs' (drops_relined f level cs ▸ hd)
            rw [hitem] at hplace
            exact (ihc (hplace (Option.isSome_iff_exists.mpr ⟨kind, hk⟩)) false hn).mono hci
          · exact hafter false hn

theorem first?_relined (f : Nat → Nat) (level : Level) (cs : Components) :
    level.first? (cs.relined f) = level.first? cs := by
  have hitem : level.startsItem (cs.relined f) = level.startsItem cs := startsItem_relined f level cs
  have hkind : (level.item (cs.relined f)).kind = (level.item cs).kind := by
    rw [item_relined]
    rfl
  cases cs with
  | nil => cases level <;> rfl
  | block =>
    simp only [relined] at hkind
    simp only [Level.first?, relined, hkind]
    rfl
  | leaf l rest =>
    obtain ⟨token, spelling, line⟩ := l
    cases token with
    | comment => rfl
    | _ =>
      simp only [relined, Lexeme.relined] at hkind
      simp only [Level.first?, relined, Lexeme.relined, hkind]
      rfl

theorem exists_lexemes_of_first? {kind : Kind} (h : level.first? cs = some kind) :
    ∃ l ls, cs.lexemes = l :: ls ∧ cs.line = l.line ∧ ∀ f, (cs.relined f).line = f cs.line := by
  cases cs with
  | nil => cases level <;> cases h
  | leaf l rest => exact ⟨l, rest.lexemes, rfl, rfl, fun _ => rfl⟩
  | block l => exact ⟨l, _, rfl, rfl, fun _ => rfl⟩

/-- The reading of a text comes to a place behind its first `n` characters, where it reads a node of
the given kind. -/
def StartsAt (text : String) (n : Nat) (kind : Kind) : Prop :=
  ∃ level cs, Place text level cs ∧ level.first? cs = some kind ∧
    cs.line = 1 + newlines (text.toList.take n) ∧ cs.text <+: text.toList.drop n

/-- The tokens of a text, each with the number of characters before it. -/
def offsets (text : String) : List Lexeme :=
  onOffsets 0 (tokens text.toList)

/-- The line of the character behind the first `n` of a text. -/
def lineAt (text : String) (n : Nat) : Nat :=
  1 + newlines (text.toList.take n)

theorem ofText_eq_relined (text : String) :
    Components.ofText text.toList = (ofLexemes (offsets text)).relined (lineAt text) := by
  have h : Css.lexemes 1 text.toList = (offsets text).map (Lexeme.relined (lineAt text)) :=
    lexemes_eq_onOffsets 1 text.toList 0 fun n => by rw [Nat.zero_add, lineAt]
  rw [Components.ofText, h, ofLexemes_relined]

theorem ReadFrom.startsAt {n : Nat} (h : ReadFrom text (lineAt text) (offsets text) node)
    (hn : node.line = some n) : StartsAt text n node.kind := by
  obtain ⟨level, cs, hp, hi, hf, hl⟩ := h
  obtain rfl : n = cs.line := Option.some.inj (hn.symm.trans hl)
  obtain ⟨l, ls, hls, hline, hrelined⟩ := exists_lexemes_of_first? hf
  rw [hls, offsets] at hi
  obtain ⟨-, hprefix⟩ := prefix_drop_of_infix hi
  have htext : spelled (tokens text.toList) = text.toList := flatMap_text_tokens _
  rw [htext, Nat.sub_zero, ← hls, ← hline] at hprefix
  refine ⟨level, _, hp, (first?_relined _ _ _).trans hf, hrelined _, ?_⟩
  rw [text_relined]
  exact hprefix

/-- The style sheet of a text, with the number of characters before each node in place of its
line. -/
def Sheet.located (text : String) : Sheet :=
  readSheet true false (ofLexemes (offsets text))

theorem Sheet.ofText_eq_located (text : String) :
    ofText text = (located text).relined (lineAt text) := by
  rw [ofText, ofText_eq_relined]
  exact read_relined _ (.sheet true) _ false

/-- No two nodes start at the same place, and none starts before one that stands before it. -/
theorem Sheet.exists_offsets (text : String) : ∃ starts : List Nat,
    (located text).items.toList.map Node.line = starts.map some ∧ starts.Pairwise (· < ·) := by
  have h : (located text).LinesIn (ofLexemes (offsets text)).lexemes :=
    linesIn_readSheet true false _
  rw [LinesIn, ← Function.comp_def some, ← List.map_map, lexemes_ofLexemes] at h
  obtain ⟨starts, hs, hl⟩ := List.sublist_map_iff.mp h
  have hp := (pairwise_onOffsets (fun l => @text_ne_nil_of_mem_tokens text.toList l) 0).1
  exact ⟨starts, hl, List.Pairwise.sublist hs (List.pairwise_map.mpr hp)⟩

theorem Sheet.startsAt_located (text : String) : ∀ node ∈ (located text).items.toList,
    ∀ n, node.line = some n → StartsAt text n node.kind := by
  intro node hn n hl
  have hread := @readFrom_of_mem_read (lineAt text) text (.sheet true) (ofLexemes (offsets text)) _
      (.of_eq (ofText_eq_relined text)) false hn
  rw [lexemes_ofLexemes] at hread
  exact hread.startsAt hl

/-- Each node is what is read first at a place that the reading of the text comes to. -/
theorem Sheet.exists_place (hn : node ∈ (ofText text).items.toList) :
    ∃ level cs, Place text level cs ∧ level.first? cs = some node.kind := by
  rw [ofText_eq_located] at hn
  change node ∈ (Forest.map (Node.relined (lineAt text)) _).toList at hn
  rw [Forest.toList_map] at hn
  obtain ⟨found, hm, rfl⟩ := List.mem_map.mp hn
  obtain ⟨level, cs, hp, -, hf, -⟩ :=
    @readFrom_of_mem_read (lineAt text) text (.sheet true) (ofLexemes (offsets text)) _
      (.of_eq (ofText_eq_relined text)) false hm
  exact ⟨level, _, hp, (first?_relined _ _ _).trans hf⟩

end Css

open Css in
/-- Each node of a document that was read from a text starts on the line of the first character of
what it was read from, wherever this stands, and the nodes come in the order of their lines. -/
theorem Document.lines_ofSheet (text : String) :
    let nodes := (ofSheet (Sheet.ofText text)).attached.toList.tail.map Prod.snd
    (∃ starts : List Nat, starts.Pairwise (· < ·) ∧ List.Forall₂ (fun node n =>
      node.line = some (1 + newlines (text.toList.take n)) ∧ StartsAt text n node.kind)
        nodes starts) ∧
    ∃ lines : List Nat, nodes.map Node.line = lines.map some ∧ lines.Pairwise (· ≤ ·) := by
  intro nodes
  have hnodes : nodes = (Sheet.ofText text).items.toList := by
    have h := congrArg Forest.toList (map_snd_attached (Sheet.ofText text).items)
    rw [Forest.toList_map] at h
    show (ofForest _).attached.toList.tail.map Prod.snd = _
    rw [List.map_tail, h, Forest.single, Forest.toList, List.tail_cons, Forest.toList,
      List.append_nil]
  rw [hnodes]
  refine ⟨?_, Sheet.lines_ofText text⟩
  obtain ⟨starts, hl, hp⟩ := Sheet.exists_offsets text
  refine ⟨starts, hp, ?_⟩
  have hline : List.Forall₂ (· = ·) ((Sheet.located text).items.toList.map Node.line)
      (starts.map some) := by
    rw [hl, List.forall₂_same]
    exact fun _ _ => rfl
  rw [List.forall₂_map_left_iff, List.forall₂_map_right_iff] at hline
  have hboth := (List.forall₂_and_left _ _).mpr ⟨Sheet.startsAt_located text, hline⟩
  rw [Sheet.ofText_eq_located]
  show List.Forall₂ _ (Forest.map (Node.relined (lineAt text)) _).toList starts
  rw [Forest.toList_map, List.forall₂_map_left_iff]
  refine hboth.imp fun node n h => ?_
  obtain ⟨hstart, hn⟩ := h
  exact ⟨congrArg (Option.map (lineAt text)) hn, hstart n hn⟩

end ModularScale
