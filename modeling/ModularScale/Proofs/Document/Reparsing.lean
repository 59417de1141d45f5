import Mathlib
import ModularScale.Proofs.Css.Printing
import ModularScale.Proofs.Document.OfSheet

/-! # Printed documents

A document that was read from a well-formed style sheet is printed as a text from which it is read
again.
-/

namespace ModularScale

def Kind.isCharset : Kind → Bool
  | .atRule name .. => name = "charset"
  | _ => false

namespace Forest

/-- No topmost node is a `@charset` rule. -/
def NoCharset (f : Forest Node) : Prop :=
  ∀ node ∈ f.tops, node.kind.isCharset = false

theorem isCharset_plain (kind : Kind) : kind.plain.isCharset = kind.isCharset := by
  cases kind <;> rfl

theorem NoCharset.of_plain {f g : Forest Node} (h : g.NoCharset)
    (he : f.map Node.plain = g.map Node.plain) : f.NoCharset := by
  intro node hn
  have ht := congrArg tops he
  rw [tops_map, tops_map] at ht
  obtain ⟨other, ho, hk⟩ := List.mem_map.mp (ht ▸ List.mem_map_of_mem hn)
  have hk : other.kind.plain = node.kind.plain := congrArg Node.kind hk
  rw [← isCharset_plain, ← hk, isCharset_plain]
  exact h other ho

end Forest

namespace Css

open Components

variable {level : Level} {cs : Components} {text : String}

theorem readSheet_item_of_noCharset {stray : Bool}
    (hs : (Level.sheet true).startsItem cs = true)
    (h : (readSheet false stray cs).items.NoCharset) :
    readSheet true stray cs = readSheet false stray cs := by
  have hs' : (Level.sheet false).startsItem cs = true := hs
  have hfalse : readSheet false stray cs = _ := read_item hs' rfl
  cases hd : (Level.sheet true).drops cs with
  | false =>
    rw [hfalse]
    exact read_item hs hd
  | true =>
    rw [hfalse] at h
    cases cs with
    | nil => cases hs
    | block => cases hd
    | leaf l rest =>
      obtain ⟨token, text, line⟩ := l
      change isCharset token = true at hd
      unfold isCharset at hd
      split at hd
      case h_1 name =>
        have hk : decide (String.ofList (Text.asciiLower name) = "charset") = false :=
          h _ (.head _)
        rw [beq_iff_eq.mp hd] at hk
        exact absurd hk (by decide)
      case h_2 => cases hd

/-- A sheet without a `@charset` rule is read alike from the start and from a later place. -/
theorem readSheet_of_noCharset (stray : Bool) (cs : Components)
    (h : (readSheet false stray cs).items.NoCharset) :
    readSheet true stray cs = readSheet false stray cs := by
  induction cs generalizing stray with
  | nil => rw [readSheet, readSheet]
  | block l bracket inner closing rest => exact readSheet_item_of_noCharset rfl h
  | leaf l rest ih =>
    cases hp : (Level.sheet true).passesOver l.token with
    | false => exact readSheet_item_of_noCharset (by rw [Level.startsItem, hp]; rfl) h
    | true =>
      obtain ⟨token, text, line⟩ := l
      have hread : ∀ first stray, readSheet first stray = (Level.sheet first).read stray :=
        fun _ _ => rfl
      rw [hread] at h
      rw [hread, hread]
      rcases token_cases token with ht | ⟨comment, ht⟩ | ht
      · cases ht
        rw [read_space] at h
        rw [read_space, read_space]
        exact ih stray h
      · cases ht
        rw [read_comment] at h
        rw [read_comment, read_comment]
        cases stray with
        | true => exact ih true h
        | false =>
          refine congrArg (Sheet.cons _ line .empty) (ih false ?_)
          exact fun node hn => h node (List.mem_cons_of_mem _ hn)
      · have hp' : (Level.sheet false).passesOver token = true := hp
        have hfalse : (Level.sheet false).read stray (leaf ⟨token, text, line⟩ rest) =
          (Level.sheet false).read true rest := read_mark stray hp' ht
        rw [hfalse] at h
        rw [hfalse, read_mark stray hp ht]
        exact ih true h

/-- Texts of style sheets without escapes, without white space but that of style sheets and without
`@charset` rules, in which all is closed that was opened. -/
structure WellFormed (text : String) : Prop where
  no_escape : '\\' ∉ text.toList
  blank : ∀ c ∈ text.toList, Text.isBlank c = true → isSpace c = true
  balanced : (Components.ofText text.toList).balanced none = true
  closed : ∀ l ∈ lexemes 1 text.toList, l.token.isClosed l.text = true
  no_charset : (readSheet false false (Components.ofText text.toList)).items.NoCharset

theorem spelled_tokens (text : List Char) : spelled (tokens text) = text :=
  flatMap_text_tokens text

theorem WellFormed.sound (h : WellFormed text) : Sound none (ofText text.toList).bare := by
  refine ⟨by rw [balanced_bare, h.balanced], [], ?_⟩
  rw [bare_ofText, lexemes_ofLexemes, List.append_nil]
  refine ⟨by rw [spelled_tokens], ?_, ?_, fun l hl => ?_⟩
  · rw [spelled_tokens]
    exact h.no_escape
  · rw [spelled_tokens]
    exact h.blank
  · rw [← map_bare_lexemes 1] at hl
    obtain ⟨m, hm, rfl⟩ := List.mem_map.mp hl
    exact h.closed m hm

/-- A sheet that is read from a printed text is the same but for lines. -/
theorem map_plain_print {f : Forest Node} (hf : Reprints (.sheet false) f) (hc : f.NoCharset) :
    (Sheet.ofText (String.ofList (f.print 0))).items.map Node.plain = f.map Node.plain := by
  obtain ⟨cs, w, hw, hb, ht, hr⟩ := hf 0 [] [] (List.forall_mem_nil _)
  change cs.balanced none = true at hb
  have htokens : tokens (f.print 0) = (cs ++ gap w).lexemes := by
    have hgap := tokens_gap hw (r := []) rfl
    rw [tokens_nil, List.append_nil, List.append_nil] at hgap
    rw [List.nil_append, List.append_nil, List.append_nil] at ht
    rw [ht, hgap, lexemes_append]
  have hbal : (cs ++ gap w).balanced none = true := by
    rw [balanced_append, hb, balanced_gap]
    rfl
  have hplain : (readSheet false false (cs ++ gap w)).items.map Node.plain = f.map Node.plain := by
    have hgap : (Level.sheet false).read false (gap w) = .empty := by
      rw [← append_nil (gap w), read_gap_append, Level.read, readSheet]
    have hread := hr (gap w)
    rw [hgap] at hread
    exact hread.trans (Forest.append_nil _)
  rw [Sheet.map_plain_ofText, String.toList_ofList, htokens, ofLexemes_lexemes hbal,
    readSheet_of_noCharset false _ (hc.of_plain hplain), hplain]

theorem WellFormed.map_plain_ofText (h : WellFormed text) :
    (Sheet.ofText (String.ofList ((Sheet.ofText text).items.print 0))).items.map Node.plain =
      (Sheet.ofText text).items.map Node.plain := by
  let f := (readSheet false false (ofText text.toList).bare).items
  have hs : Sound (Level.sheet false).inside (ofText text.toList).bare := h.sound
  have hf : Reprints (.sheet false) f := reprints_read rfl hs false
  have hc : f.NoCharset := h.no_charset.of_plain (read_bare (.sheet false) _ false)
  have hplain : (Sheet.ofText text).items.map Node.plain = f.map Node.plain := by
    rw [Sheet.map_plain_ofText, ← bare_ofText, readSheet_of_noCharset false _ hc]
  have hprint : (Sheet.ofText text).items.print 0 = f.print 0 := by
    rw [← Forest.print_map_plain, hplain, Forest.print_map_plain]
  rw [hprint, hplain]
  exact map_plain_print hf hc

end Css

namespace Document

theorem map_snd_attached (items : Forest Node) :
    (ofForest items).attached.map Prod.snd = .single (.made .root) items := by
  rw [(ofForest_whole items).attached_eq]
  exact Forest.map_snd_number root _

theorem print_ofForest (items : Forest Node) :
    (ofForest items).print = String.ofList (items.print 0) := by
  rw [print, map_snd_attached]
  show String.ofList (items.print 0 ++ []) = _
  rw [List.append_nil]

/-- A document that was read from a well-formed text is read again from what it is printed as: the
trees differ in nothing but lines and white space before parameters that are not there, and what is
printed stays the same. -/
theorem print_ofSheet_print {text : String} (h : Css.WellFormed text) :
    let parse (text : String) := ofSheet (Css.Sheet.ofText text)
    (parse (parse text).print).print = (parse text).print ∧
      ((parse (parse text).print).attached.map Prod.snd).map Node.plain =
        ((parse text).attached.map Prod.snd).map Node.plain := by
  intro parse
  have hprint : (parse text).print = String.ofList ((Css.Sheet.ofText text).items.print 0) :=
    print_ofForest _
  have hplain := h.map_plain_ofText
  rw [← hprint] at hplain
  constructor
  · show (ofForest _).print = (ofForest _).print
    rw [print_ofForest, print_ofForest, ← Forest.print_map_plain, hplain, Forest.print_map_plain]
  · show ((ofForest _).attached.map _).map _ = ((ofForest _).attached.map _).map _
    rw [map_snd_attached, map_snd_attached]
    show Forest.cons _ _ _ = Forest.cons _ _ _
    rw [hplain]

theorem print_ofSheet_print_nested :
    let text := "@m x\x7b/**/a\x7bB:c\x7d\x7d"
    let parse (text : String) := ofSheet (Css.Sheet.ofText text)
    Css.WellFormed text ∧ (parse (parse text).print).print = (parse text).print := by
  intro text parse
  have hc : (Css.readSheet false false (Css.Components.ofText text.toList)).items.tops.all
      (fun node : Node => !node.kind.isCharset) = true := by
    rw [Css.Components.ofText, Css.Components.ofLexemes_eq]
    cbv
  have hb : text.toList.all (fun c => !Text.isBlank c || Css.isSpace c) = true := by decide
  have hw : Css.WellFormed text := by
    refine ⟨by decide, fun c hm h => by simpa [h] using List.all_eq_true.mp hb c hm,
      ?_, List.all_eq_true.mp ?_, fun node hn => ?_⟩
    · rw [Css.Components.ofText, Css.Components.ofLexemes_eq]
      cbv
    · cbv
    · simpa using List.all_eq_true.mp hc node hn
  exact ⟨hw, (print_ofSheet_print hw).1⟩

end Document

end ModularScale
