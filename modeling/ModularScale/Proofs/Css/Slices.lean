import Mathlib
import ModularScale.Proofs.Css.Items
import ModularScale.Proofs.Css.Regular

/-! # Slices of a text

What a node is made of is a slice of its text: the tokens up to a `;`, to a curly bracket or to the
end. The text behind the slice starts with that mark.
-/

namespace ModularScale.Css

/-- The tokens behind the content of a block, or of a text, are none, or a closing curly bracket
comes first. -/
def IsBehind (ls : List Lexeme) : Prop :=
  ls = [] ∨ ∃ l ls', ls = l :: ls' ∧ l.token = .closing .curly

/-- The tokens behind a slice are none, or one that ends it comes first. -/
def IsEnd (ls : List Lexeme) : Prop :=
  ls = [] ∨ ∃ l ls', ls = l :: ls' ∧
    (l.token = .semicolon ∨ l.token = .opening .curly ∨ l.token = .closing .curly)

theorem IsBehind.isEnd {ls : List Lexeme} (h : IsBehind ls) : IsEnd ls := by
  rcases h with h | ⟨l, ls', h, hl⟩
  · exact .inl h
  · exact .inr ⟨l, ls', h, .inr (.inr hl)⟩

theorem spelled_bare (ls : List Lexeme) : spelled (ls.map Lexeme.bare) = spelled ls :=
  List.flatMap_map _ _ _

theorem IsEnd.bare {ls : List Lexeme} (h : IsEnd ls) : IsEnd (ls.map Lexeme.bare) := by
  rcases h with rfl | ⟨l, ls, rfl, hl⟩
  · exact .inl rfl
  · exact .inr ⟨l.bare, ls.map Lexeme.bare, rfl, hl⟩

namespace Components

variable {inside : Option Bracket} {cs ds content : Components} {l : Lexeme} {bracket : Bracket}
  {closing : Option Lexeme} {ls : List Lexeme} {stop : Stop}

/-! ## Parts of what is read -/

theorem eq_of_read_leaf (h : (read inside ls).content = leaf l cs) :
    ∃ ls', ls = l :: ls' ∧ (read inside ls').content = cs := by
  revert h
  fun_induction read inside ls with
  | case1 => rintro ⟨⟩
  | case2 => rintro ⟨⟩
  | case3 => rintro ⟨⟩
  | case4 =>
    rintro ⟨⟩
    exact ⟨_, rfl, rfl⟩

theorem eq_of_read_block (h : (read inside ls).content = block l bracket content closing cs) :
    ∃ ls', ls = l :: ls' ∧ l.token.opens? = some bracket ∧
      (read (some bracket) ls').content = content ∧ (read (some bracket) ls').closing = closing ∧
      (read inside (read (some bracket) ls').after).content = cs := by
  revert h
  fun_induction read inside ls with
  | case1 => rintro ⟨⟩
  | case2 _ _ _ _ ho =>
    rintro ⟨⟩
    exact ⟨_, rfl, ho, rfl, rfl, rfl⟩
  | case3 => rintro ⟨⟩
  | case4 => rintro ⟨⟩

/-- A part of what is read is read from its own tokens on. -/
theorem exists_read_of_append (h : (read inside ls).content = cs ++ ds) :
    ∃ ls', ls = cs.lexemes ++ ls' ∧ (read inside ls').content = ds := by
  induction cs generalizing ls with
  | nil => exact ⟨ls, rfl, h⟩
  | leaf l rest ih =>
    obtain ⟨ls, rfl, hr⟩ := eq_of_read_leaf h
    obtain ⟨ls', rfl, hd⟩ := ih hr
    exact ⟨ls', rfl, hd⟩
  | block l bracket inner closing rest _ ih =>
    obtain ⟨ls, rfl, -, rfl, rfl, hr⟩ := eq_of_read_block h
    obtain ⟨ls', ha, hd⟩ := ih hr
    refine ⟨ls', ?_, hd⟩
    rw [lexemes, List.append_assoc, ← ha, List.cons_append, List.cons_append, lexemes_read]

/-- What is read up to a closing bracket ends there. -/
theorem closing_read (inside : Option Bracket) (ls : List Lexeme) :
    ((read inside ls).closing = none → (read inside ls).after = []) ∧
      ∀ l, (read inside ls).closing = some l → l.token.closes? = inside := by
  fun_induction read inside ls with
  | case1 =>
    refine ⟨fun _ => rfl, fun l h => ?_⟩
    cases h
  | case2 inside l ls bracket _ inner tail _ ih => exact ih
  | case3 inside l ls _ hc =>
    refine ⟨fun h => absurd h (Option.some_ne_none l), ?_⟩
    rintro _ ⟨⟩
    simpa using (Bool.and_eq_true_iff.mp hc).2
  | case4 inside l ls _ _ tail ih => exact ih

theorem exists_behind_of_read (h : inside = none ∨ inside = some .curly) (ls : List Lexeme) :
    ∃ behind, ls = (read inside ls).content.lexemes ++ behind ∧ IsBehind behind := by
  obtain ⟨hn, hs⟩ := closing_read inside ls
  refine ⟨(read inside ls).closing.toList ++ (read inside ls).after, ?_, ?_⟩
  · rw [← List.append_assoc, lexemes_read]
  · cases hc : (read inside ls).closing with
    | none => exact .inl (hn hc)
    | some l =>
      refine .inr ⟨l, _, rfl, ?_⟩
      have hl := hs l hc
      rcases h with rfl | rfl
      · rw [(closing_read_none ls).1] at hc
        cases hc
      · cases ht : l.token <;> rw [ht] at hl <;> cases hl
        rfl

/-! ## Parts of an item -/

/-- What a run leaves is the end of the components, and the block before it if there is one. -/
theorem run_parts (stop : Stop) (cs : Components) :
    (∃ head, cs = head ++ (cs.run stop).after) ∧
      ∀ content, (cs.run stop).block = some content → ∃ head l closing,
        cs = head ++ block l .curly content closing (cs.run stop).after := by
  obtain ⟨head, -, -, ⟨hc, hb, ha⟩ | ⟨l, hc, hb, -⟩ | ⟨l, content, closing, hc, hb⟩⟩ :=
    exists_run stop cs
  · rw [hb, ha]
    exact ⟨⟨cs, (append_nil cs).symm⟩, nofun⟩
  · rw [hb]
    refine ⟨⟨head ++ leaf l nil, ?_⟩, nofun⟩
    rw [append_assoc]
    exact hc
  · rw [hb]
    refine ⟨⟨head ++ block l .curly content closing nil, ?_⟩, ?_⟩
    · rw [append_assoc]
      exact hc
    · rintro _ ⟨⟩
      exact ⟨head, l, closing, hc⟩

/-- Before a colon that separates come gaps alone. -/
theorem afterColon?_part {value : Components} (h : cs.afterColon? = some value) :
    ∃ head gaps colon, cs = head ++ value ∧ head.lexemes = gaps ++ [colon] ∧
      (∀ l ∈ gaps, l.token.isGap = true) ∧ colon.token = .colon := by
  induction cs with
  | nil => cases h
  | block => cases h
  | leaf l rest ih =>
    unfold afterColon? at h
    split at h
    case isTrue hl =>
      obtain ⟨head, gaps, colon, rfl, hh, hg, hc⟩ := ih h
      refine ⟨leaf l head, l :: gaps, colon, rfl, ?_, List.forall_mem_cons.mpr ⟨hl, hg⟩, hc⟩
      rw [lexemes, hh, List.cons_append]
    case isFalse hl =>
      split at h
      case isTrue hc =>
        cases h
        exact ⟨leaf l nil, [], l, rfl, rfl, List.forall_mem_nil _, hc⟩
      case isFalse => cases h

/-- What an item leaves is the end of the components, and its block stands before that. -/
theorem item_parts {level : Level} (h : level.startsItem cs = true) :
    (∃ head, cs = head ++ (level.item cs).after) ∧ ((level.item cs).content = nil ∨
      ∃ head l closing, cs = head ++
        block l .curly (level.item cs).content closing (level.item cs).after) := by
  have hblock : ∀ {stop : Stop} {cs : Components}, ((cs.run stop).block.getD nil = nil) ∨
      ∃ head l closing, cs = head ++
        block l .curly ((cs.run stop).block.getD nil) closing (cs.run stop).after := by
    intro stop cs
    cases hb : (cs.run stop).block with
    | none => exact .inl rfl
    | some content => exact .inr ((run_parts stop cs).2 content hb)
  rcases item_cases h with ⟨name, text, line, rest, rfl, hi⟩ |
    ⟨name, text, line, rest, value, -, rfl, hv, hi⟩ | hi | hr
  · rw [hi]
    obtain ⟨head, ha⟩ := (run_parts nestedStop rest).1
    refine ⟨⟨leaf _ head, congrArg (leaf _) ha⟩, hblock.imp_right ?_⟩
    rintro ⟨head, l, closing, hc⟩
    exact ⟨leaf _ head, l, closing, congrArg (leaf _) hc⟩
  · rw [hi]
    obtain ⟨head, ha⟩ := (run_parts valueStop value).1
    obtain ⟨colon, -, -, rfl, -⟩ := afterColon?_part hv
    refine ⟨⟨leaf ⟨.ident name, text, line⟩ colon ++ head, ?_⟩, .inl rfl⟩
    rw [append_assoc]
    exact congrArg (leaf ⟨.ident name, text, line⟩ colon ++ ·) ha
  · rw [hi]
    exact ⟨(run_parts ruleStop cs).1, .inl rfl⟩
  · rw [item_of_startsRule hr]
    exact ⟨(run_parts level.stop cs).1, hblock⟩

end Components

open Components

variable {text : String} {level : Level} {cs ds content : Components} {l : Lexeme}
  {closing : Option Lexeme}

/-- Components are read from the tokens of a text from some token on, in the sheet itself or in a
block. -/
def ReadOf (text : String) (cs : Components) : Prop :=
  ∃ inside before ls, (inside = none ∨ inside = some .curly) ∧
    Css.lexemes 1 text.toList = before ++ ls ∧ (Components.read inside ls).content = cs

theorem ReadOf.right (h : ReadOf text (cs ++ ds)) : ReadOf text ds := by
  obtain ⟨inside, before, ls, hi, ht, hr⟩ := h
  obtain ⟨ls', rfl, hd⟩ := exists_read_of_append hr
  exact ⟨inside, before ++ cs.lexemes, ls', hi, by rw [ht, List.append_assoc], hd⟩

theorem ReadOf.inner (h : ReadOf text (.block l .curly content closing ds)) : ReadOf text content := by
  obtain ⟨inside, before, ls, -, ht, hr⟩ := h
  obtain ⟨ls', rfl, -, hc, -⟩ := eq_of_read_block hr
  exact ⟨some .curly, before ++ [l], ls', .inr rfl, by rw [ht]; simp, hc⟩

theorem ReadOf.exists_behind (h : ReadOf text cs) : ∃ before behind,
    Css.lexemes 1 text.toList = before ++ (cs.lexemes ++ behind) ∧ IsBehind behind := by
  obtain ⟨inside, before, ls, hi, ht, rfl⟩ := h
  obtain ⟨behind, hl, hb⟩ := exists_behind_of_read hi ls
  exact ⟨before, behind, by rw [ht, ← hl], hb⟩

theorem readOf_nil (text : String) : ReadOf text .nil := by
  refine ⟨none, Css.lexemes 1 text.toList, [], .inl rfl, (List.append_nil _).symm, ?_⟩
  rw [Components.read]

theorem Place.readOf (h : Place text level cs) : ReadOf text cs := by
  induction h with
  | start => exact ⟨none, [], _, .inl rfl, rfl, rfl⟩
  | @gap level l rest _ _ ih => exact @ReadOf.right text (.leaf l .nil) rest ih
  | behind _ hs ih =>
    obtain ⟨⟨head, hc⟩, -⟩ := item_parts hs
    rw [hc] at ih
    exact ih.right
  | inside _ hs _ _ ih =>
    obtain ⟨-, hc | ⟨head, l, closing, hc⟩⟩ := item_parts hs
    · rw [hc]
      exact readOf_nil text
    · rw [hc] at ih
      exact ih.right.inner

/-! ## Slices and what follows them -/

theorem ReadOf.token_eq (h : ReadOf text (.block l .curly content closing ds)) :
    l.token = .opening .curly := by
  obtain ⟨inside, before, ls, -, -, hr⟩ := h
  obtain ⟨-, -, ho, -⟩ := eq_of_read_block hr
  cases ht : l.token <;> rw [ht] at ho <;> cases ho
  rfl

/-- The text of a run is a slice of the text that the components were read from. -/
theorem ReadOf.exists_run (h : ReadOf text (cs ++ ds)) (stop : Stop) : ∃ before head behind,
    Css.lexemes 1 text.toList = before ++ (cs.lexemes ++ (head ++ behind)) ∧
      (ds.run stop).text = spelled head ∧ IsEnd behind := by
  obtain ⟨before, behind, ht, hb⟩ := h.exists_behind
  have hd := h.right
  obtain ⟨head, -, hx, ⟨rfl, -, -⟩ | ⟨l, hc, -, hl⟩ | ⟨l, content, closing, hc, -⟩⟩ :=
    Css.exists_run stop ds
  · refine ⟨before, ds.lexemes, behind, ?_, hx, hb.isEnd⟩
    rw [ht, lexemes_append, List.append_assoc]
  · refine ⟨before, head.lexemes, (leaf l (ds.run stop).after).lexemes ++ behind, ?_, hx,
      .inr ⟨l, _, rfl, .inl hl⟩⟩
    conv_lhs => rw [ht, hc]
    simp
  · rw [hc] at hd
    refine ⟨before, head.lexemes,
      (Components.block l .curly content closing (ds.run stop).after).lexemes ++ behind, ?_, hx,
      .inr ⟨l, _, rfl, .inr (.inl hd.right.token_eq)⟩⟩
    conv_lhs => rw [ht, hc]
    simp

/-! ## What nodes are made of -/

/-- What is read first from components: a comment, or an item that is not malformed. -/
def Level.first? (level : Level) : Components → Option Kind
  | .leaf ⟨.comment text, _, _⟩ _ => some (.comment (String.ofList text))
  | cs => if level.startsItem cs then (level.item cs).kind else none

theorem first?_item {level : Level} {cs : Components} (h : level.startsItem cs = true) :
    level.first? cs = (level.item cs).kind := by
  unfold Level.first?
  split
  · cases level <;> cases h
  · rw [if_pos h]

/-- A node is made of the tokens with which it starts, up to its name or the colon behind this, and
of a slice. -/
inductive MadeOf : List Lexeme → List Lexeme → Kind → Prop
  | rule (ms : List Lexeme) : MadeOf [] ms (rule (spelled ms))
  | atRule {l : Lexeme} {name : List Char} (h : l.token = .atKeyword name) (ms : List Lexeme)
      (hasBlock : Bool) : MadeOf [l] ms (atRule name (spelled ms) hasBlock)
  | declaration {l colon : Lexeme} {name : List Char} {gaps : List Lexeme}
      (h : l.token = .ident name) (hg : ∀ l ∈ gaps, l.token.isGap = true)
      (hc : colon.token = .colon) (ms : List Lexeme) :
      MadeOf (l :: gaps ++ [colon]) ms (declaration name (spelled ms))

/-- The tokens of a text make up a node, with a slice of them that ends where it should. -/
def Sourced (text : String) (kind : Kind) : Prop :=
  ∃ before head ms behind, Css.lexemes 1 text.toList = before ++ (head ++ (ms ++ behind)) ∧
    IsEnd behind ∧ MadeOf head ms kind

theorem Place.sourced {kind : Kind} (h : Place text level cs) (hs : level.startsItem cs = true)
    (hk : (level.item cs).kind = some kind) : Sourced text kind := by
  have hread := h.readOf
  rcases item_cases hs with ⟨name, spelling, line, rest, rfl, hi⟩ |
    ⟨name, spelling, line, rest, value, -, rfl, hv, hi⟩ | hi | hr
  · rw [hi] at hk
    cases hk
    obtain ⟨before, ms, behind, ht, hx, he⟩ :=
      @ReadOf.exists_run text (leaf ⟨.atKeyword name, spelling, line⟩ nil) rest hread nestedStop
    refine ⟨before, _, ms, behind, ht, he, ?_⟩
    rw [hx]
    exact .atRule rfl ms _
  · rw [hi] at hk
    cases hk
    obtain ⟨sep, gaps, colon, rfl, hh, hg, hc⟩ := afterColon?_part hv
    obtain ⟨before, ms, behind, ht, hx, he⟩ :=
      @ReadOf.exists_run text (leaf ⟨.ident name, spelling, line⟩ sep) value hread valueStop
    rw [Components.lexemes, hh] at ht
    refine ⟨before, _, ms, behind, ht, he, ?_⟩
    rw [hx]
    exact .declaration rfl hg hc ms
  · rw [hi] at hk
    cases hk
  · rw [item_of_startsRule hr] at hk
    obtain ⟨before, ms, behind, ht, hx, he⟩ := @ReadOf.exists_run text nil cs hread level.stop
    obtain ⟨-, -, rfl⟩ := Option.map_eq_some_iff.mp hk
    refine ⟨before, [], ms, behind, ht, he, ?_⟩
    rw [hx]
    exact .rule ms

/-- Each node but a comment is made of tokens of the text. -/
theorem Place.sourced_of_first? {kind : Kind} (h : Place text level cs)
    (hf : level.first? cs = some kind) : (∃ comment, kind = .comment comment) ∨ Sourced text kind := by
  unfold Level.first? at hf
  split at hf
  · cases hf
    exact .inl ⟨_, rfl⟩
  · split at hf
    case isTrue hs => exact .inr (h.sourced hs hf)
    case isFalse => cases hf

end ModularScale.Css
