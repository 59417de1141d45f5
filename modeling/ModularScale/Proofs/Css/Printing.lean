import ModularScale.Proofs.Css.Written

/-! # Printing what was read

The nodes that are read from a regular text are written as a text that reads as these nodes.
-/

namespace ModularScale

namespace Forest

theorem print_cons (depth : Nat) (node : Node) (children rest : Forest Node) :
    (cons node children rest).print depth =
      (single node children).print depth ++ rest.print depth := by
  rw [single, print, print, show print depth nil = [] from rfl, List.append_nil]

theorem block_eq (depth : Nat) (lines : List Char) : block depth lines =
    ' ' :: '\x7b' :: '\n' :: (lines ++ (indent depth ++ ['\x7d', '\n'])) := by
  rw [block, List.append_assoc, List.append_assoc]
  rfl

theorem print_rule (depth : Nat) (selector : String) (line : Option Nat) (children : Forest Node) :
    (single ⟨.rule selector, line⟩ children).print depth = indent depth ++
      (selector.toList ++ block depth (children.print (depth + 1))) := by
  show indent depth ++ _ ++ _ ++ [] = _
  rw [List.append_nil, List.append_assoc]

theorem print_atRule (depth : Nat) (name params afterName : String) (hasBlock : Bool)
    (line : Option Nat) (children : Forest Node) :
    (single ⟨.atRule name params afterName hasBlock, line⟩ children).print depth =
      indent depth ++ (atRuleHead name params afterName ++
        if hasBlock then block depth (children.print (depth + 1)) else [';', '\n']) := by
  cases hasBlock with
  | false =>
    show indent depth ++ _ ++ _ ++ [] = _
    rw [List.append_nil, List.append_assoc]
    rfl
  | true =>
    show indent depth ++ _ ++ _ ++ [] = _
    rw [List.append_nil, List.append_assoc]
    rfl

theorem print_declaration (depth : Nat) (property value : String) (important : Bool)
    (line : Option Nat) : (single ⟨.declaration property value important, line⟩ nil).print depth =
      indent depth ++ (property.toList ++ ([':', ' '] ++ (value.toList ++
        ((if important then " !important".toList else []) ++ [';', '\n'])))) := by
  show indent depth ++ _ ++ _ ++ _ ++ _ ++ _ ++ [] = _
  rw [List.append_nil]
  simp only [List.append_assoc]

theorem print_comment (depth : Nat) (text : String) (line : Option Nat) :
    (single ⟨.comment text, line⟩ nil).print depth =
      indent depth ++ (['/', '*'] ++ (text.toList ++ ['*', '/', '\n'])) := by
  show indent depth ++ _ ++ _ ++ _ ++ [] = _
  rw [List.append_nil]
  simp only [List.append_assoc]

/-- What is written does not depend on lines or on white space before no parameters. -/
theorem print_map_plain (depth : Nat) (f : Forest Node) :
    (f.map Node.plain).print depth = f.print depth := by
  induction f generalizing depth with
  | nil => rfl
  | cons node children rest ihc ihr =>
    obtain ⟨kind, line⟩ := node
    cases kind with
    | atRule name params afterName hasBlock =>
      have hh : atRuleHead name params (if params.isEmpty then "" else afterName) =
          atRuleHead name params afterName := by
        unfold atRuleHead
        split <;> rfl
      cases hasBlock <;> simp only [map, print, Node.plain, Node.made, Kind.plain, hh, ihc, ihr]
    | _ => simp only [map, print, Node.plain, Node.made, Kind.plain, ihc, ihr]

end Forest

namespace Css

open Components

variable {level : Level} {inside : Option Bracket} {stop : Stop} {bracket : Bracket}
  {closing : Option Lexeme} {l : Lexeme} {cs core rest value content : Components}
  {a b v w text name : List Char} {line : Nat} {f g : Forest Node}

/-! ### Parts of sound components -/

theorem Sound.nil (inside : Option Bracket) : Sound inside .nil :=
  ⟨rfl, [], tokens_nil, nofun, nofun, nofun⟩

theorem Sound.of_afterColon? (h : Sound inside cs) (hc : cs.afterColon? = some value) :
    Sound inside value := by
  induction cs with
  | nil => cases hc
  | block => cases hc
  | leaf l rest ih =>
    rw [afterColon?] at hc
    split at hc
    · exact ih h.tail hc
    · split at hc
      · cases hc
        exact h.tail
      · cases hc

/-- A run through sound components. -/
structure Ran (inside : Option Bracket) (stop : Stop) (cs head : Components) : Prop where
  sound : Sound inside head
  passes : head.passes stop = true
  text : (cs.run stop).text = head.text
  after : Sound inside (cs.run stop).after
  block : ∀ content, (cs.run stop).block = some content → Sound (some .curly) content
  prefix_eq : ∃ tail, cs = head ++ tail ∧
    ((cs.run stop).block.isSome = true → tail.afterColon? = none)

theorem Sound.exists_run (h : Sound inside cs) (stop : Stop) :
    ∃ head, Ran inside stop cs head := by
  obtain ⟨head, hp, ht, ⟨hc, hb, ha⟩ | ⟨l, hc, hb, -⟩ | ⟨l, content, closing, hc, hb⟩⟩ :=
    Css.exists_run stop cs
  · refine ⟨head, hc ▸ h, hp, ht, ha ▸ .nil inside, fun content hs => ?_, .nil, ?_, fun hs => ?_⟩
    · rw [hb] at hs
      cases hs
    · rw [append_nil, ← hc]
    · rw [hb] at hs
      cases hs
  · rw [hc] at h
    refine ⟨head, h.left, hp, ht, h.right.tail, fun content hs => ?_, _, hc, fun hs => ?_⟩
    · rw [hb] at hs
      cases hs
    · rw [hb] at hs
      cases hs
  · rw [hc] at h
    refine ⟨head, h.left, hp, ht, ?_, fun content hs => ?_, _, hc, fun _ => rfl⟩
    · exact h.right.behind
    · rw [hb] at hs
      cases hs
      have ho := h.right.balanced
      exact h.right.inner

/-! ### Single items -/

/-- Nodes are written so that they are read back. -/
def Reprints (level : Level) (f : Forest Node) : Prop :=
  ∀ depth, ReadsAs level (f.print depth) f

theorem spaces_indent (depth : Nat) : Spaces (indent depth) := by
  intro c hc
  rw [List.eq_of_mem_replicate hc]
  rfl

theorem Reprints.of_plain (h : Reprints level g) (he : f.map Node.plain = g.map Node.plain) :
    Reprints level f := by
  intro depth v r hv
  have hp : f.print depth = g.print depth := by
    rw [← Forest.print_map_plain, he, Forest.print_map_plain]
  obtain ⟨cs, w, hw, hb, ht, hr⟩ := h depth v r hv
  refine ⟨cs, w, hw, hb, ?_, fun ds => ?_⟩
  · rw [hp, ht]
  · rw [hr, he]

theorem Reprints.cons {node : Node} {children : Forest Node}
    (h : Reprints level (.single node children)) (hf : Reprints level f) :
    Reprints level (.cons node children f) := by
  intro depth
  rw [Forest.print_cons]
  exact (h depth).append (hf depth)

/-- What comes first in sound components. -/
theorem Sound.head (h : Sound inside (leaf l rest)) : l.line = 0 ∧ ∃ c a r,
    l.text = c :: a ∧ c ≠ '\\' ∧ '\\' ∉ a ++ (rest.text ++ r) ∧
      (nextToken c (a ++ (rest.text ++ r))).value = l.token ∧
      (nextToken c (a ++ (rest.text ++ r))).length - 1 = a.length := by
  obtain ⟨-, behind, hr⟩ := h
  simp only [Components.lexemes, List.cons_append] at hr
  obtain ⟨c, a, htext, hline, hv, hlen, -⟩ := hr.head
  have he := hr.no_escape
  rw [spelled_cons, htext, List.cons_append, spelled_append] at he
  rw [spelled_append] at hv hlen
  obtain ⟨hc, he⟩ := List.ne_and_not_mem_of_not_mem_cons he
  exact ⟨hline, c, a, spelled behind, htext, hc.symm, he, hv, hlen⟩

theorem atRuleHead_eq (h : Solid inside core) (n v : List Char) :
    atRuleHead (String.ofList n) (String.ofList core.text) (String.ofList v) =
      '@' :: (n ++ (parting v core ++ core.text)) := by
  unfold parting
  split
  case isTrue hn =>
    rw [hn]
    simp [atRuleHead, Components.text, Components.lexemes]
  case isFalse hn => simp [atRuleHead, h.text_ne_nil hn]

/-- An at-rule with a block is written with the parts that it is made of. -/
theorem reprints_heads {n : List Char} (hl : level.next = level) (h : Heads level n v core)
    (hf : Reprints .block f) (line : Option Nat) :
    Reprints level (.single ⟨.atRule (String.ofList n) (String.ofList core.text) (String.ofList v)
      true, line⟩ f) := by
  intro depth
  have hread := (readsAs_atRule (w := [' ']) hl h (ending_block (hf (depth + 1)) depth)
    (by simp [Spaces, isSpace]) (fun r => stops_cons rfl _) line).spaces_append
      (spaces_indent depth)
  rw [Forest.print_atRule, atRuleHead_eq h.solid, if_pos rfl, Forest.block_eq]
  simp only [List.append_assoc, List.cons_append, List.nil_append] at hread ⊢
  exact hread

theorem reprints_atRule (hl : level.next = level)
    (h : Sound level.inside (leaf ⟨.atKeyword name, text, line⟩ rest))
    (hf : Reprints .block (readBody false (atRuleItem name rest).content).items) (n : Option Nat) :
    Reprints level (.single ⟨atRule name (rest.run nestedStop).text
      (rest.run nestedStop).block.isSome, n⟩
        (readBody false (atRuleItem name rest).content).items) := by
  obtain ⟨head, hran⟩ := h.tail.exists_run nestedStop
  obtain ⟨v, core, w, ht⟩ := hran.sound.exists_trims
  obtain ⟨-, c, a, r, -, -, he, hv, hlen⟩ := h.head
  have hname := isName_of_atKeyword (fun hm => he (List.mem_of_mem_take hm)) hv
  have hstart := name_drop_atKeyword hv
  obtain ⟨tail, hrest, -⟩ := hran.prefix_eq
  have htext : rest.text = v.text ++ core.text ++ w.text ++ tail.text := by
    rw [hrest, text_append, ht.text_eq]
  have hheads : Heads level (Text.asciiLower name) v.text core := by
    refine ⟨hname.asciiLower, Text.asciiLower_asciiLower name, ht.spaces_before, ht.solid,
      ht.passes hran.passes, fun d hd => ?_⟩
    rw [hlen, List.drop_left, htext] at hstart
    rw [htext] at he
    cases hx : v.text ++ core.text with
    | nil =>
      rw [hx] at hd
      cases hd
    | cons e x =>
      rw [hx] at hd hstart he
      cases hd
      refine ⟨isNameChar_of_name_eq hstart, ?_⟩
      rintro rfl
      exact he (by simp)
  have hplain := plain_atRule ht.solid.trimmed ht.spaces_before ht.spaces_behind name
    (rest.run nestedStop).block.isSome
  rw [← ht.text_eq, ← hran.text] at hplain
  refine Reprints.of_plain (g := .single ⟨.atRule (String.ofList (Text.asciiLower name))
    (String.ofList core.text) (String.ofList v.text) (rest.run nestedStop).block.isSome, n⟩
      (readBody false (atRuleItem name rest).content).items) (fun depth => ?_) ?_
  · cases hb : (rest.run nestedStop).block with
    | none =>
      have hc : (atRuleItem name rest).content = .nil := by
        rw [atRuleItem, hb]
        rfl
      have hread := (readsAs_atRule (w := []) hl hheads ending_semicolon (List.forall_mem_nil _)
        (fun r => stops_cons rfl r) n).spaces_append (spaces_indent depth)
      rw [hc, readBody_nil, Forest.print_atRule, atRuleHead_eq ht.solid]
      simp only [List.append_assoc, List.cons_append, List.nil_append] at hread ⊢
      exact hread
    | some content => exact reprints_heads hl hheads hf n depth
  · simp only [Forest.single, Forest.map, Node.plain, hplain]

theorem reprints_comment {t : List Char}
    (h : Sound level.inside (leaf ⟨.comment t, text, line⟩ rest)) (n : Option Nat) :
    Reprints level (.single ⟨.comment (String.ofList t), n⟩ .nil) := by
  intro depth
  obtain ⟨hline, -⟩ := h.head
  have htext : text = '/' :: '*' :: t ++ ['*', '/'] := by
    obtain ⟨-, behind, hr⟩ := h
    exact beq_iff_eq.mp (hr.closed _ List.mem_cons_self)
  have hs : Sound level.inside (leaf ⟨.comment t, text, line⟩ .nil) := Sound.left h
  obtain rfl : line = 0 := hline
  subst htext
  have hsolid := hs.solid (by rintro l ⟨⟩ ⟨⟩) (by rintro l ⟨⟩ ⟨⟩)
  have hread := (readsAs_comment hsolid n).spaces_append (spaces_indent depth)
  rw [Forest.print_comment, String.toList_ofList]
  simp only [List.append_assoc, List.cons_append, List.nil_append] at hread ⊢
  exact hread

theorem afterColon?_gap (h : cs.isGap = true) (ds : Components) :
    (cs ++ ds).afterColon? = ds.afterColon? := by
  induction cs with
  | nil => rfl
  | block => cases h
  | leaf l rest ih =>
    simp only [isGap, Bool.and_eq_true, decide_eq_true_eq] at h
    rw [leaf_append, afterColon?, if_pos (by rw [h.1]; rfl), ih h.2]

/-- A rule does not start with white space. -/
theorem not_startsRule_gap {ds : Components} (h : cs.isGap = true)
    (hr : level.startsRule (cs ++ ds) = true) : cs = .nil := by
  cases cs with
  | nil => rfl
  | block => cases h
  | leaf l rest =>
    obtain ⟨token, text, line⟩ := l
    simp only [isGap, Bool.and_eq_true, decide_eq_true_eq] at h
    obtain rfl : token = .whiteSpace := h.1
    cases level <;> cases hr

theorem Solid.reprints_rule (h : Solid level.inside core) (hl : level.next = level)
    (hp : core.passes level.stop = true) (hr : level.startsRule core = true)
    (hf : Reprints .block f) (line : Option Nat) :
    Reprints level (.single ⟨.rule (String.ofList core.text), line⟩ f) := by
  intro depth
  have hread := (readsAs_rule hl h hp hr (hf (depth + 1)) depth line).spaces_append
    (spaces_indent depth)
  rw [Forest.print_rule, Forest.block_eq, String.toList_ofList]
  simp only [List.append_assoc, List.cons_append, List.nil_append] at hread ⊢
  exact hread

theorem reprints_rule (hl : level.next = level) (h : Sound level.inside cs)
    (hr : level.startsRule cs = true) (hc : (cs.run level.stop).block = some content)
    (hf : Reprints .block (readBody false content).items) (n : Option Nat) :
    Reprints level (.single ⟨rule (cs.run level.stop).text, n⟩ (readBody false content).items) := by
  obtain ⟨head, hran⟩ := h.exists_run level.stop
  obtain ⟨v, core, w, ht⟩ := hran.sound.exists_trims
  obtain ⟨tail, hcs, htail⟩ := hran.prefix_eq
  have htail := htail (by rw [hc]; rfl)
  have hstart : level.startsRule core = true := by
    rw [hcs, ht.eq, Components.append_assoc, Components.append_assoc] at hr
    have hv := not_startsRule_gap ht.before hr
    rw [hv, nil_append] at hr
    rcases Decidable.em (core = .nil) with rfl | hne
    · rfl
    · rwa [startsRule_append ((afterColon?_gap ht.behind tail).trans htail) hne] at hr
  rw [hran.text, rule, ht.trim_text]
  exact ht.solid.reprints_rule hl (ht.passes hran.passes) hstart hf n

theorem append_eq_append_cons {m : Char} {x r : List Char} (h : x ++ r = a ++ m :: b) :
    (∃ a', a = x ++ a' ∧ r = a' ++ m :: b) ∨ ∃ c, x = a ++ m :: c ∧ b = c ++ r := by
  rcases List.append_eq_append_iff.mp h with ⟨a', ha, hr⟩ | ⟨c, hx, hb⟩
  · exact .inl ⟨a', ha, hr⟩
  · cases c with
    | nil => exact .inl ⟨[], by rw [hx, List.append_nil, List.append_nil], hb.symm⟩
    | cons d c =>
      cases hb
      exact .inr ⟨c, hx, rfl⟩

/-- Nothing that is enclosed by marks holds a mark of importance that only spaces and letters
follow. -/
theorem not_enclosed {d : Char} {x r : List Char} (hx : x.getLast? = some d)
    (hw : isWordChar d = true) (ha : d.isAlpha = false)
    (hb : ∀ e ∈ b, isSpace e = true ∨ e.isAlpha = true) (he : x = a ++ '!' :: v) (hv : b = v ++ r) :
    False := by
  rw [he, List.getLast?_append_of_ne_nil _ (List.cons_ne_nil _ _)] at hx
  cases v with
  | nil =>
    cases hx
    cases hw
  | cons e v =>
    rw [List.getLast?_cons_cons] at hx
    rcases hb d (hv ▸ List.mem_append_left r (List.mem_of_getLast? hx)) with hs | hs
    · rw [isWordChar, hs] at hw
      cases hw
    · rw [hs] at ha
      cases ha

/-- Where a value is marked as important, this is a mark of its own between its components. -/
theorem Sound.exists_mark (h : Sound inside cs) (ht : cs.text = a ++ '!' :: b)
    (hb : ∀ e ∈ b, isSpace e = true ∨ e.isAlpha = true) :
    ∃ head tail, cs = head ++ tail ∧ head.text = a := by
  induction cs generalizing a with
  | nil => simp [Components.text, Components.lexemes] at ht
  | leaf l rest ih =>
    rw [text_leaf] at ht
    rcases append_eq_append_cons ht with ⟨a', rfl, hr⟩ | ⟨v, hx, hv⟩
    · obtain ⟨head, tail, rfl, rfl⟩ := ih h.tail hr
      exact ⟨.leaf l head, tail, rfl, text_leaf l head⟩
    · have hs := h.shape (l := l) List.mem_cons_self
      have hm : '!' ∈ l.text := by simp [hx]
      obtain ⟨token, text, line⟩ := l
      cases hs with
      | space hs => cases hs '!' hm
      | word _ _ _ hs => cases hs '!' hm
      | enclosed _ hd hw ha => exact (not_enclosed hd hw ha hb hx hv).elim
      | mark =>
        cases a with
        | nil => exact ⟨.nil, .leaf ⟨.delimiter '!', ['!'], line⟩ rest, rfl, rfl⟩
        | cons c a => simp at hx
  | block l bracket inner closing rest _ ih =>
    obtain ⟨c, rfl, hc⟩ := closing_of_balanced h.balanced
    rw [text_block] at ht
    rcases append_eq_append_cons ht with ⟨a', rfl, hr⟩ | ⟨v, hx, hv⟩
    · have hs : Sound inside rest := h.behind
      obtain ⟨head, tail, rfl, rfl⟩ := ih hs hr
      exact ⟨.block l bracket inner (some c) head, tail, rfl, text_block l bracket inner _ head⟩
    · have hs := h.shape (l := c) (by simp [Components.lexemes])
      obtain ⟨token, text, line⟩ := c
      cases hs with
      | space => cases hc
      | word _ ho =>
        rw [ho] at hc
        cases hc
      | mark => cases hc
      | enclosed _ hd hw ha =>
        refine (not_enclosed (d := _) ?_ hw ha hb hx hv).elim
        rw [List.getLast?_append]
        exact congrArg (Option.or · _) hd

theorem declaration_eq {u : List Char} {important : Bool} (hv : splitImportant v = (u, important))
    (name : List Char) : declaration name v =
      .declaration (String.ofList (propertyName name)) (String.ofList u) important := by
  rw [declaration, hv]

theorem Solid.reprints_declaration {n : List Char} (h : Solid (some .curly) core) (hn : IsName n)
    (hc : propertyName n = n) (hp : core.passes valueStop = true)
    (hi : splitImportant core.text = (core.text, false)) (line : Option Nat) :
    Reprints .block (.single ⟨.declaration (String.ofList n) (String.ofList core.text) false, line⟩
      .nil) := by
  intro depth
  have hread := (readsAs_declaration hn hc h hp hi line).spaces_append (spaces_indent depth)
  rw [Forest.print_declaration, String.toList_ofList, String.toList_ofList]
  simp only [List.append_assoc, List.cons_append, List.nil_append] at hread ⊢
  exact hread

theorem reprints_declaration (h : Sound (some .curly) (leaf ⟨.ident name, text, line⟩ rest))
    (hc : rest.afterColon? = some value) (n : Option Nat) :
    Reprints .block (.single ⟨declaration name (value.run valueStop).text, n⟩ .nil) := by
  intro depth
  obtain ⟨-, c, a, r, -, hb, he, hv, -⟩ := h.head
  have hname := isName_of_ident (fun hm =>
    List.not_mem_cons_of_ne_of_not_mem hb.symm he (List.mem_of_mem_take hm)) hv
  obtain ⟨head, hran⟩ := (h.tail.of_afterColon? hc).exists_run valueStop
  obtain ⟨v, core, w, ht⟩ := hran.sound.exists_trims
  have hprop : IsName (propertyName name) := by
    unfold propertyName
    split
    · exact hname
    · exact hname.asciiLower
  have hidem := propertyName_propertyName name
  rw [hran.text]
  rcases splitImportant_cases head.text with ⟨hi, hs⟩ | ⟨a, b, hs, hm, hi⟩
  · rw [ht.trim_text] at hs
    have hsplit : splitImportant head.text = (core.text, false) := Prod.ext hs hi
    have hcore : splitImportant core.text = (core.text, false) := by
      rw [← hsplit]
      refine splitImportant_congr ?_
      rw [ht.trim_text, ht.solid.trimmed.trim_eq]
    rw [declaration_eq hsplit]
    exact ht.solid.reprints_declaration hprop hidem (ht.passes hran.passes) hcore n depth
  · rw [ht.trim_text] at hs
    have hb : ∀ e ∈ b, isSpace e = true ∨ e.isAlpha = true := by
      intro e he
      rcases isAlpha_of_mem_important hm he with hb | ha
      · exact .inl (ht.core_sound.isSpace_of_isBlank (by simp [hs, he]) hb)
      · exact .inr ha
    obtain ⟨pre, tail, hpre, rfl⟩ := ht.core_sound.exists_mark hs hb
    have hsound : Sound (some .curly) pre := Sound.left (hpre ▸ ht.core_sound)
    have hpass := ht.passes hran.passes
    rw [hpre, passes_append, Bool.and_eq_true] at hpass
    obtain ⟨v', core', w', ht'⟩ := hsound.exists_trims
    have htrim : Text.trimEnd pre.text = core'.text := by
      rw [← ht'.trim_text, Text.trim, Text.trimStart_of_head]
      intro c hc
      refine ht.solid.trimmed.head c ?_
      rw [hs, List.head?_append, hc]
      rfl
    rw [htrim] at hi
    have hread := (readsAs_important hprop hidem ht'.solid (ht'.passes hpass.1)
      n).spaces_append (spaces_indent depth)
    rw [declaration_eq hi, Forest.print_declaration, String.toList_ofList,
      String.toList_ofList, if_pos rfl]
    simp only [List.append_assoc, List.cons_append, List.nil_append] at hread ⊢
    exact hread

/-! ### Whole texts -/

/-- What stands behind the first item of sound components and in its block. -/
theorem Sound.item (h : Sound level.inside cs) (hs : level.startsItem cs = true) :
    Sound level.inside (level.item cs).after ∧ Sound (some .curly) (level.item cs).content := by
  have hgetD : ∀ {block : Option Components},
      (∀ content, block = some content → Sound (some .curly) content) →
        Sound (some .curly) (block.getD .nil) := by
    intro block hb
    cases block with
    | none => exact .nil _
    | some content => exact hb content rfl
  rcases item_cases hs with ⟨name, text, line, rest, rfl, hi⟩ |
    ⟨name, text, line, rest, value, rfl, rfl, hc, hi⟩ | hi | hr
  · obtain ⟨head, hran⟩ := h.tail.exists_run nestedStop
    rw [hi]
    exact ⟨hran.after, hgetD hran.block⟩
  · obtain ⟨head, hran⟩ := (h.tail.of_afterColon? hc).exists_run valueStop
    rw [hi]
    exact ⟨hran.after, .nil _⟩
  · obtain ⟨head, hran⟩ := h.exists_run ruleStop
    rw [hi]
    exact ⟨hran.after, .nil _⟩
  · obtain ⟨head, hran⟩ := h.exists_run level.stop
    rw [item_of_startsRule hr]
    exact ⟨hran.after, hgetD hran.block⟩

theorem reprints_item {kind : Kind} (hl : level.next = level) (h : Sound level.inside cs)
    (hs : level.startsItem cs = true) (hk : (level.item cs).kind = some kind)
    (hf : Reprints .block (readBody false (level.item cs).content).items) (n : Option Nat) :
    Reprints level (.single ⟨kind, n⟩ (readBody false (level.item cs).content).items) := by
  rcases item_cases hs with ⟨name, text, line, rest, rfl, hi⟩ |
    ⟨name, text, line, rest, value, rfl, rfl, hc, hi⟩ | hi | hr
  · rw [hi] at hk hf ⊢
    cases hk
    exact reprints_atRule hl h hf n
  · rw [hi] at hk ⊢
    cases hk
    rw [declarationItem, readBody_nil]
    exact reprints_declaration h hc n
  · rw [hi] at hk
    cases hk
  · rw [item_of_startsRule hr] at hk hf ⊢
    obtain ⟨content, hb, rfl⟩ := Option.map_eq_some_iff.mp hk
    have hcontent : (ruleItem level.stop cs).content = content := by
      rw [ruleItem, hb]
      rfl
    rw [hcontent] at hf ⊢
    exact reprints_rule hl h hr hb hf n

/-- All items that are read from sound components are written so that they are read back. -/
theorem reprints_read (hl : level.next = level) (h : Sound level.inside cs) (stray : Bool) :
    Reprints level (level.read stray cs).items := by
  induction level, cs using Level.induction generalizing stray with
  | nil level =>
    have he : (level.read stray .nil).items = .nil := by
      cases level with
      | block => rw [Level.read, readBody_nil]; rfl
      | sheet first => rw [Level.read, readSheet]; rfl
    rw [he]
    exact fun depth => .nil level
  | gap level l rest hp ih =>
    obtain ⟨token, text, line⟩ := l
    rcases token_cases token with ht | ⟨comment, ht⟩ | ht
    · cases ht
      rw [read_space]
      exact ih hl h.tail stray
    · cases ht
      rw [read_comment]
      cases stray with
      | true => exact ih hl h.tail true
      | false => exact (reprints_comment h (some line)).cons (ih hl h.tail false)
    · rw [read_mark stray hp ht]
      exact ih hl h.tail true
  | item level cs hs ihc iha =>
    obtain ⟨ha, hc⟩ := h.item hs
    have hcontent : Reprints .block (readBody false (level.item cs).content).items :=
      ihc rfl hc false
    have hafter : Reprints level (level.read false (level.item cs).after).items := by
      have := iha (hl.symm ▸ hl) (hl.symm ▸ ha) false
      rwa [hl] at this
    rw [read_item hs (drops_of_next hl cs), hl]
    cases hk : (level.item cs).kind with
    | none => exact hafter
    | some kind => exact (reprints_item hl h hs hk hcontent (some cs.line)).cons hafter

end Css

end ModularScale
