import Mathlib
import ModularScale.Proofs.Css.Ending
import ModularScale.Proofs.Css.Tails
import ModularScale.Proofs.Document.Offsets

/-! # Trimmed slices

A node keeps the text of its slice without the white space at its ends, which is that of Unicode.
To a style sheet some of this is part of a name or a mark of its own, and a space can belong to an
escape. The tokens of the slice are those of the text that is kept if the white space cut off is
that of style sheets and a `;` behind the text is a token of its own.
-/

namespace ModularScale

/-- The text that a node keeps of its slice, and whether an `!important` was cut off from it. -/
def Kind.kept? : Kind → Option (String × Bool)
  | .rule selector => some (selector, false)
  | .atRule _ params _ _ => some (params, false)
  | .declaration _ value important => some (value, important)
  | _ => none

namespace Css

variable {p : Char → Bool} {kept slice v w x n r : List Char} {important : Bool}
  {ls ts head ms behind : List Lexeme} {kind : Kind}

/-! ## Tokens but for gaps -/

/-- Tokens without the white space and the comments at their ends. -/
def trimGaps (ts : List Token) : List Token :=
  (ts.dropWhile Token.isGap).rdropWhile Token.isGap

/-- The tokens before an `!important` at the end, which gaps may surround. -/
def beforeImportant? (ts : List Token) : Option (List Token) :=
  match ts.reverse.dropWhile Token.isGap with
  | .ident name :: ts =>
    match ts.dropWhile Token.isGap with
    | .delimiter '!' :: ts =>
      if Text.eqIgnoringCase name "important".toList then some ts.reverse else none
    | _ => none
  | _ => none

/-- The tokens that are kept of a slice but for gaps at their ends: all of them, or those before an
`!important` that should be there. -/
def keptTokens? (important : Bool) (ts : List Token) : Option (List Token) :=
  if important then (beforeImportant? ts).map trimGaps else some (trimGaps ts)

/-- Tokens that are white space and comments alone. -/
def Gaps (ls : List Lexeme) : Prop :=
  ∀ t ∈ ls.map Lexeme.token, t.isGap = true

theorem gaps_gap (w : List Char) : Gaps (gap w).lexemes := by
  unfold gap
  split
  · exact List.forall_mem_nil _
  · exact List.forall_mem_singleton.mpr rfl

theorem Gaps.reverse (h : Gaps ls) : ∀ t ∈ (ls.map Lexeme.token).reverse, t.isGap = true :=
  fun t ht => h t (List.mem_reverse.mp ht)

theorem rdropWhile_append_gaps (h : Gaps ls) (ts : List Token) :
    (ts ++ ls.map Lexeme.token).rdropWhile Token.isGap = ts.rdropWhile Token.isGap := by
  rw [List.rdropWhile, List.reverse_append, List.dropWhile_append_of_pos h.reverse,
    List.rdropWhile]

theorem trimGaps_append (hl : Gaps ls) (hm : Gaps ms) (ts : List Token) :
    trimGaps (ls.map Lexeme.token ++ (ts ++ ms.map Lexeme.token)) = trimGaps ts := by
  rw [trimGaps, List.dropWhile_append_of_pos hl, trimGaps, List.dropWhile_append]
  split
  case isTrue hts =>
    have hm : (ms.map Lexeme.token).dropWhile Token.isGap = [] := List.dropWhile_eq_nil_iff.mpr hm
    rw [hm, List.isEmpty_iff.mp hts]
  case isFalse => exact rdropWhile_append_gaps hm _

theorem beforeImportant?_append (hl : Gaps ls) (hm : Gaps ms)
    (hn : Text.eqIgnoringCase n "important".toList = true) (ts : List Token) :
    beforeImportant? (ts ++ .delimiter '!' :: (ls.map Lexeme.token ++
      .ident n :: ms.map Lexeme.token)) = some ts := by
  have hident : (ts ++ .delimiter '!' :: (ls.map Lexeme.token ++
      .ident n :: ms.map Lexeme.token)).reverse.dropWhile Token.isGap =
        .ident n :: ((ls.map Lexeme.token).reverse ++ .delimiter '!' :: ts.reverse) := by
    simp only [List.reverse_append, List.reverse_cons, List.append_assoc, List.cons_append,
      List.nil_append]
    rw [List.dropWhile_append_of_pos hm.reverse]
    exact List.dropWhile_cons_of_neg (by simp [Token.isGap])
  have hmark : ((ls.map Lexeme.token).reverse ++ .delimiter '!' :: ts.reverse).dropWhile
      Token.isGap = .delimiter '!' :: ts.reverse := by
    rw [List.dropWhile_append_of_pos hl.reverse]
    exact List.dropWhile_cons_of_neg (by simp [Token.isGap])
  simp only [beforeImportant?, hident, hmark, if_pos hn, List.reverse_reverse]

/-! ## What is cut off -/

/-- A text is kept of a slice that has white space of some kind around it, and maybe an `!important`
behind it. -/
inductive Cuts (p : Char → Bool) (kept : List Char) : List Char → Bool → Prop
  | ends {v w : List Char} (hv : ∀ c ∈ v, p c = true) (hw : ∀ c ∈ w, p c = true) :
    Cuts p kept (v ++ (kept ++ w)) false
  | important {v w x n y : List Char} (hv : ∀ c ∈ v, p c = true) (hw : ∀ c ∈ w, p c = true)
      (hx : ∀ c ∈ x, p c = true) (hy : ∀ c ∈ y, p c = true)
      (hn : Text.eqIgnoringCase n "important".toList = true) :
    Cuts p kept (v ++ (kept ++ (w ++ '!' :: (x ++ (n ++ y))))) true

/-- White space of some kind was cut off if the slice has no other. -/
theorem Cuts.of_forall {q : Char → Bool} (h : Cuts p kept slice important)
    (hq : ∀ c ∈ slice, p c = true → q c = true) : Cuts q kept slice important := by
  cases h with
  | ends hv hw =>
    simp only [List.forall_mem_append] at hq
    exact .ends (fun c hc => hq.1 c hc (hv c hc)) fun c hc => hq.2.2 c hc (hw c hc)
  | important hv hw hx hy hn =>
    simp only [List.forall_mem_append, List.forall_mem_cons] at hq
    obtain ⟨hqv, -, hqw, -, hqx, -, hqy⟩ := hq
    exact .important (fun c hc => hqv c hc (hv c hc)) (fun c hc => hqw c hc (hw c hc))
      (fun c hc => hqx c hc (hx c hc)) (fun c hc => hqy c hc (hy c hc)) hn

theorem Cuts.mem (h : Cuts p kept slice important) {c : Char} (hc : c ∈ kept) : c ∈ slice := by
  cases h <;> simp [hc]

theorem exists_trim_append (cs : List Char) : ∃ v w, (∀ c ∈ v, Text.isBlank c = true) ∧
    (∀ c ∈ w, Text.isBlank c = true) ∧ cs = v ++ (Text.trim cs ++ w) := by
  obtain ⟨w, hw, he⟩ := Text.exists_trimEnd_append (Text.trimStart cs)
  refine ⟨cs.takeWhile Text.isBlank, w, fun c => List.mem_takeWhile_imp, hw, ?_⟩
  rw [Text.trim, he, Text.takeWhile_append_trimStart]

theorem cuts_trim (cs : List Char) : Cuts Text.isBlank (Text.trim cs) cs false := by
  obtain ⟨v, w, hv, hw, he⟩ := exists_trim_append cs
  generalize Text.trim cs = kept at he ⊢
  rw [he]
  exact .ends hv hw

theorem cuts_splitImportant (value : List Char) :
    Cuts Text.isBlank (splitImportant value).1 value (splitImportant value).2 := by
  rcases splitImportant_cases value with ⟨hi, ht⟩ | ⟨a, b, ht, hb, hs⟩
  · rw [hi, ht]
    exact cuts_trim value
  · obtain ⟨v, y, hv, hy, he⟩ := exists_trim_append value
    obtain ⟨w, hw, hwa⟩ := Text.exists_trimEnd_append a
    have hslice : value = v ++ (Text.trimEnd a ++ (w ++ '!' :: (b.takeWhile Text.isBlank ++
        (Text.trimStart b ++ y)))) := by
      rw [he, ht]
      conv_lhs => rw [← hwa, ← Text.takeWhile_append_trimStart b]
      simp
    rw [hs, hslice]
    exact .important hv hw (fun c => List.mem_takeWhile_imp) hy (beq_iff_eq.mpr hb)

theorem trimmed_splitImportant (value : List Char) : Text.Trimmed (splitImportant value).1 := by
  rcases splitImportant_cases value with ⟨-, ht⟩ | ⟨a, b, ht, -, hs⟩
  · rw [ht]
    exact Text.trimmed_trim value
  · rw [hs]
    have hh : ∀ c, a.head? = some c → Text.isBlank c = false := by
      intro c hc
      refine (Text.trimmed_trim value).head c ?_
      rw [ht, List.head?_append, hc]
      rfl
    have htrim : Text.trim a = Text.trimEnd a := congrArg Text.trimEnd (Text.trimStart_of_head hh)
    exact htrim ▸ Text.trimmed_trim a

theorem MadeOf.cuts {kept : String} (h : MadeOf head ms kind)
    (hk : kind.kept? = some (kept, important)) :
    Cuts Text.isBlank kept.toList (spelled ms) important ∧ Text.Trimmed kept.toList := by
  cases h with
  | rule =>
    cases hk
    rw [String.toList_ofList]
    exact ⟨cuts_trim _, Text.trimmed_trim _⟩
  | atRule =>
    cases hk
    rw [String.toList_ofList]
    exact ⟨cuts_trim _, Text.trimmed_trim _⟩
  | declaration =>
    cases hk
    rw [String.toList_ofList]
    exact ⟨cuts_splitImportant _, trimmed_splitImportant _⟩

/-! ## The tokens of a slice -/

theorem isName_important (hn : Text.eqIgnoringCase n "important".toList = true) : IsName n := by
  have ha : Text.asciiLower n = "important".toList := beq_iff_eq.mp hn
  have hstart (c : Char) (hc : c ∈ n) : isNameStart c = true := by
    simp [isNameStart, isAlpha_of_asciiLower ha hc]
  constructor
  · cases n with
    | nil => cases ha
    | cons c n =>
      have hc := hstart c List.mem_cons_self
      rw [startsName_cons (isNameStart_ne hc rfl) (isNameStart_ne hc rfl)]
      exact hc
  · intro c hc
    refine ⟨isNameChar_of_isNameStart (hstart c hc), ?_⟩
    rintro rfl
    cases isAlpha_of_asciiLower ha hc

theorem startsMark_importance (hx : Spaces x) (hn : Text.eqIgnoringCase n "important".toList = true)
    (r : List Char) : StartsMark ('!' :: (x ++ (n ++ r))) := by
  have ha : Text.asciiLower n = "important".toList := beq_iff_eq.mp hn
  refine ⟨rfl, fun h => ?_⟩
  cases x with
  | nil =>
    cases n with
    | nil => cases ha
    | cons c n =>
      obtain rfl : c = '-' := (List.cons.inj (List.cons.inj h).2).1
      cases isAlpha_of_asciiLower ha List.mem_cons_self
  | cons c x =>
    obtain rfl : c = '-' := (List.cons.inj (List.cons.inj h).2).1
    cases hx _ List.mem_cons_self

/-- A text without white space of style sheets at its ends. -/
structure Tight (a : List Char) : Prop where
  head : startsWith isSpace a = false
  firm : Firm a

theorem isSpace_of_isBlank_eq_false {c : Char} (h : Text.isBlank c = false) :
    isSpace c = false := by
  rw [← Bool.not_eq_true] at h ⊢
  exact fun hs => h (isBlank_of_isSpace hs)

theorem tight_of_trimmed (h : Text.Trimmed kept) : Tight kept := by
  refine ⟨?_, fun c hc => isSpace_of_isBlank_eq_false (h.last c hc)⟩
  cases kept with
  | nil => rfl
  | cons c kept => exact isSpace_of_isBlank_eq_false (h.head c rfl)

theorem IsName.tight (hn : IsName n) : Tight n := by
  have hs (c : Char) (hc : c ∈ n) : isSpace c = false := by
    rw [← Bool.not_eq_true]
    intro hs
    have := isNameChar_of_isStop (c := c) (by simp [isStop, hs])
    rw [(hn.chars c hc).1] at this
    cases this
  refine ⟨?_, fun c hc => hs c (List.mem_of_getLast? hc)⟩
  cases n with
  | nil => rfl
  | cons c n => exact hs c List.mem_cons_self

/-- The tokens of a text with white space around it, as those before a `;`. -/
theorem exists_tokens_around (hk : Tight kept) (hv : Spaces v) (hw : Spaces w)
    (hr : StartsMark r) (ht : tokens (kept ++ [';']) = ts ++ [⟨.semicolon, [';'], 0⟩]) :
    ∃ ls us ms, Gaps ls ∧ us.map Lexeme.token = ts.map Lexeme.token ∧ Gaps ms ∧
      tokens (v ++ (kept ++ (w ++ r))) = ls ++ (us ++ (ms ++ tokens r)) := by
  cases kept with
  | nil =>
    rw [List.nil_append, tokens_semicolon, tokens_nil] at ht
    obtain rfl : ts = [] := (List.append_left_inj [_]).mp ht.symm
    refine ⟨_, [], [], gaps_gap (v ++ w), rfl, List.forall_mem_nil _, ?_⟩
    rw [List.nil_append, ← List.append_assoc, tokens_gap (hv.append hw) hr.isSpace]
    rfl
  | cons c kept =>
    obtain ⟨us, w', hus, hw', hall⟩ := tokens_tail hk.firm hw hr ht
    refine ⟨_, us, _, gaps_gap v, hus, gaps_gap w', ?_⟩
    rw [tokens_gap hv (show startsWith isSpace (c :: kept ++ (w ++ r)) = false from hk.head), hall]

theorem Cuts.tokens (h : Cuts isSpace kept slice important) (hk : Tight kept)
    (ht : tokens (kept ++ [';']) = ts ++ [⟨.semicolon, [';'], 0⟩]) (hr : StartsMark r) :
    ∃ us, Css.tokens (slice ++ r) = us ++ Css.tokens r ∧
      keptTokens? important (us.map Lexeme.token) = some (trimGaps (ts.map Lexeme.token)) := by
  cases h with
  | ends hv hw =>
    obtain ⟨ls, us, ms, hl, hus, hm, hall⟩ := exists_tokens_around hk hv hw hr ht
    refine ⟨ls ++ (us ++ ms), ?_, ?_⟩
    · simp only [List.append_assoc, hall]
    · rw [keptTokens?, List.map_append, List.map_append, hus]
      exact congrArg some (trimGaps_append hl hm _)
  | @important v w x n y hv hw hx hy hn =>
    have hname := isName_important hn
    have hmark := startsMark_importance hx hn (y ++ r)
    obtain ⟨ls, us, ms, hl, hus, hm, hall⟩ := exists_tokens_around hk hv hw hmark ht
    have hn' : Css.tokens (n ++ [';']) = [⟨.ident n, n, 0⟩] ++ [⟨.semicolon, [';'], 0⟩] := by
      rw [tokens_name hname (stops_cons rfl []), tokens_semicolon, tokens_nil]
      rfl
    obtain ⟨ls', us', ms', hl', hus', hm', hall'⟩ :=
      exists_tokens_around hname.tight hx hy hr hn'
    refine ⟨ls ++ (us ++ (ms ++ ⟨.delimiter '!', ['!'], 0⟩ :: (ls' ++ (us' ++ ms')))), ?_, ?_⟩
    · rw [tokens_importance, hall'] at hall
      simp only [List.append_assoc, List.cons_append, hall]
    · have hb := beforeImportant?_append hl' hm' hn
        (ls.map Lexeme.token ++ (us.map Lexeme.token ++ ms.map Lexeme.token))
      rw [hus] at hb
      simp only [List.append_assoc] at hb
      simp only [keptTokens?, ↓reduceIte, List.map_append, List.map_cons, hus, hus']
      exact (congrArg (Option.map trimGaps) hb).trans (congrArg some (trimGaps_append hl hm _))

/-! ## What nodes keep of their slices -/

/-- A `;` behind a text is a token of its own. -/
def EndsAlone (kept : List Char) : Prop :=
  ∃ ts, tokens (kept ++ [';']) = ts ++ [⟨.semicolon, [';'], 0⟩]

/-- A text without escapes in which all tokens are closed, and which no function ends. -/
structure Complete (a : List Char) : Prop where
  no_escape : '\\' ∉ a
  closed : ∀ l ∈ tokens a, l.token.isClosed l.text = true
  last : ∀ l, (tokens a).getLast? = some l → ∀ name, l.token ≠ .function name

theorem Complete.endsAlone (h : Complete kept) (hf : Firm kept)
    (hb : ∀ c ∈ kept, Text.isBlank c = true → isSpace c = true) : EndsAlone kept := by
  have hs : spelled (tokens kept) = kept := flatMap_text_tokens kept
  have hr : Regular (tokens kept ++ []) :=
    (List.append_nil _).symm ▸ regular_tokens h.no_escape hb h.closed
  have ht := hr.tokens_append (fun d hd => hf d (hs ▸ hd)) h.last (stops_cons (c := ';') rfl [])
  rw [hs, tokens_semicolon, tokens_nil] at ht
  exact ⟨_, ht⟩

/-- A text that was kept, with the `!important` put back that was cut off. -/
def withImportance (important : Bool) (kept : List Char) : List Char :=
  if important then kept ++ ' ' :: '!' :: "important".toList else kept

/-- The tokens of a text before a mark are those of its slice, but for gaps at the ends and around
an `!important` that was cut off. -/
def KeepsTokens (important : Bool) (ms : List Lexeme) (kept behind : List Char) (mark : Lexeme) :
    Prop :=
  ∃ ts cs, tokens (withImportance important kept ++ behind) = ts ++ [mark] ∧
    keptTokens? important (ts.map Lexeme.token) = some cs ∧
    keptTokens? important (ms.map Lexeme.token) = some cs

theorem spaces_singleton : Spaces [' '] :=
  List.forall_mem_singleton.mpr rfl

theorem cuts_withImportance (important : Bool) (kept : List Char) (hw : Spaces w) :
    Cuts isSpace kept (withImportance important kept ++ w) important := by
  cases important with
  | false => exact @Cuts.ends isSpace kept [] w (List.forall_mem_nil _) hw
  | true =>
    have h := @Cuts.important isSpace kept [] [' '] [] "important".toList w (List.forall_mem_nil _)
      spaces_singleton (List.forall_mem_nil _) hw rfl
    have he : withImportance true kept ++ w =
        [] ++ (kept ++ ([' '] ++ '!' :: ([] ++ ("important".toList ++ w)))) := by
      simp [withImportance]
    exact he ▸ h

/-- Tokens of a text from which a node was made, up to where the node, or its block, ends. -/
def SliceOf (text : String) (kind : Kind) (ms : List Lexeme) : Prop :=
  ∃ before head behind, lexemes 1 text.toList = before ++ (head ++ (ms ++ behind)) ∧
    IsEnd behind ∧ MadeOf head ms kind

theorem SliceOf.keepsTokens {text kept : String} (h : SliceOf text kind ms)
    (hk : kind.kept? = some (kept, important))
    (hc : Cuts isSpace kept.toList (spelled ms) important) (he : EndsAlone kept.toList)
    {mark : Lexeme} {z : Char} (hw : Spaces w) (hz : tokens [z] = [mark]) (hm : StartsMark [z]) :
    KeepsTokens important ms kept.toList (w ++ [z]) mark := by
  obtain ⟨before, head, behind, ht, hb, hmade⟩ := h
  obtain ⟨ts, hts⟩ := he
  have htight := tight_of_trimmed (hmade.cuts hk).2
  have hall : tokens text.toList = (before ++ head).map Lexeme.bare ++
      (ms.map Lexeme.bare ++ behind.map Lexeme.bare) := by
    rw [← map_bare_lexemes 1, ht]
    simp
  have hslice := tokens_spelled hall
  have hbehind := tokens_spelled ((List.append_assoc _ _ _).symm ▸ hall)
  have hmark := hb.bare.startsMark ((List.append_assoc _ _ _).symm ▸ hall)
  rw [spelled_append, spelled_bare, spelled_bare] at hslice
  rw [spelled_bare] at hbehind hmark
  obtain ⟨us, hus, hkept⟩ := hc.tokens htight hts hmark
  obtain ⟨vs, hvs, hwritten⟩ := (cuts_withImportance important kept.toList hw).tokens htight hts hm
  refine ⟨vs, _, ?_, hwritten, ?_⟩
  · rw [← hz, ← hvs, List.append_assoc]
  · rw [hslice, hbehind] at hus
    rw [← (List.append_left_inj _).mp hus, List.map_map] at hkept
    exact hkept

/-- The text that a node keeps of its slice has the tokens of the slice, before a `;` and before a
block, if only white space of style sheets was cut off and a `;` behind the text is a token of its
own. So it is where all white space of the slice is that of style sheets and the text is complete. -/
theorem Sheet.ofText_kept {text : String} {node : Node} {kept : String} {important : Bool}
    (hn : node ∈ (Sheet.ofText text).items.toList) (hk : node.kind.kept? = some (kept, important)) :
    (∃ ms, SliceOf text node.kind ms) ∧ ∀ ms, SliceOf text node.kind ms →
      Cuts Text.isBlank kept.toList (spelled ms) important ∧
      (Cuts isSpace kept.toList (spelled ms) important → EndsAlone kept.toList →
        KeepsTokens important ms kept.toList [';'] ⟨.semicolon, [';'], 0⟩ ∧
        KeepsTokens important ms kept.toList [' ', '\x7b'] ⟨.opening .curly, ['\x7b'], 0⟩) ∧
      ((∀ c ∈ spelled ms, Text.isBlank c = true → isSpace c = true) →
        Cuts isSpace kept.toList (spelled ms) important ∧
        (Complete kept.toList → EndsAlone kept.toList)) := by
  constructor
  · obtain ⟨level, cs, hp, hf⟩ := exists_place hn
    rcases hp.sourced_of_first? hf with ⟨comment, hc⟩ | ⟨before, head, ms, behind, ht, hb, hm⟩
    · rw [hc] at hk
      cases hk
    · exact ⟨ms, before, head, behind, ht, hb, hm⟩
  · intro ms hs
    obtain ⟨_, _, _, _, _, hmade⟩ := id hs
    obtain ⟨hcuts, htrimmed⟩ := hmade.cuts hk
    refine ⟨hcuts, fun hc he => ⟨?_, ?_⟩, fun hb => ⟨hcuts.of_forall hb, fun h => ?_⟩⟩
    · exact hs.keepsTokens hk hc he (List.forall_mem_nil _) (by rw [tokens_semicolon, tokens_nil])
        (startsMark_semicolon [])
    · exact hs.keepsTokens hk hc he spaces_singleton (by rw [tokens_opening, tokens_nil])
        (.cons rfl (by decide) [])
    · exact h.endsAlone (tight_of_trimmed htrimmed).firm fun c hc => hb c (hcuts.mem hc)

/-- A value loses its `!important`, which is put back behind it. -/
theorem Sheet.ofText_kept_important :
    ⟨.declaration "a" "b" true, some 1⟩ ∈
      (Sheet.ofText ".x\x7ba: b ! Important;\x7d").items.toList ∧
    ∃ ms, SliceOf ".x\x7ba: b ! Important;\x7d" (.declaration "a" "b" true) ms ∧
      spelled ms = " b ! Important".toList ∧
      KeepsTokens true ms "b".toList [';'] ⟨.semicolon, [';'], 0⟩ ∧
      KeepsTokens true ms "b".toList [' ', '\x7b'] ⟨.opening .curly, ['\x7b'], 0⟩ := by
  have hn : ⟨.declaration "a" "b" true, some 1⟩ ∈
      (Sheet.ofText ".x\x7ba: b ! Important;\x7d").items.toList := by
    have hs : (Sheet.ofText ".x\x7ba: b ! Important;\x7d").items.toList =
        [⟨.rule ".x", some 1⟩, ⟨.declaration "a" "b" true, some 1⟩] := by
      rw [Sheet.ofText, Components.ofText, Components.ofLexemes_eq]
      cbv
    rw [hs]
    exact List.mem_cons_of_mem _ List.mem_cons_self
  let ms : List Lexeme := [⟨.whiteSpace, [' '], 1⟩, ⟨.ident ['b'], ['b'], 1⟩,
    ⟨.whiteSpace, [' '], 1⟩, ⟨.delimiter '!', ['!'], 1⟩, ⟨.whiteSpace, [' '], 1⟩,
    ⟨.ident "Important".toList, "Important".toList, 1⟩]
  have hms : SliceOf ".x\x7ba: b ! Important;\x7d" (.declaration "a" "b" true) ms := by
    refine ⟨[⟨.delimiter '.', ['.'], 1⟩, ⟨.ident ['x'], ['x'], 1⟩, ⟨.opening .curly, ['\x7b'], 1⟩],
      [⟨.ident ['a'], ['a'], 1⟩, ⟨.colon, [':'], 1⟩],
      [⟨.semicolon, [';'], 1⟩, ⟨.closing .curly, ['\x7d'], 1⟩], ?_, .inr ⟨_, _, rfl, .inl rfl⟩, ?_⟩
    · cbv
    · exact @MadeOf.declaration ⟨.ident ['a'], ['a'], 1⟩ ⟨.colon, [':'], 1⟩ ['a'] [] rfl
        (List.forall_mem_nil _) rfl ms
  have hc : Cuts isSpace "b".toList (spelled ms) true :=
    @Cuts.important isSpace "b".toList [' '] [' '] [' '] "Important".toList []
      spaces_singleton spaces_singleton spaces_singleton (List.forall_mem_nil _) rfl
  have he : EndsAlone "b".toList := ⟨[⟨.ident ['b'], ['b'], 0⟩], by cbv⟩
  exact ⟨hn, ms, hms, rfl, ((Sheet.ofText_kept hn rfl).2 ms hms).2.1 hc he⟩

/-- The space that a backslash escapes is cut off from the end of a value. The backslash that is
kept then escapes the `;` behind the value. -/
theorem exists_lost_space : ∃ node ∈ (Sheet.ofText ".x \x7b a: b\\ ; \x7d").items.toList,
    node.kind.kept? = some ("b\\", false) ∧
    ∀ ms, ¬KeepsTokens false ms "b\\".toList [';'] ⟨.semicolon, [';'], 0⟩ := by
  have hs : (Sheet.ofText ".x \x7b a: b\\ ; \x7d").items.toList =
      [⟨.rule ".x", some 1⟩, ⟨.declaration "a" "b\\" false, some 1⟩] := by
    rw [Sheet.ofText, Components.ofText, Components.ofLexemes_eq]
    cbv
  rw [hs]
  refine ⟨_, List.mem_cons_of_mem _ List.mem_cons_self, rfl, ?_⟩
  rintro ms ⟨ts, cs, ht, -, -⟩
  have hident : tokens (withImportance false "b\\".toList ++ [';']) =
      [⟨.ident ['b', ';'], ['b', '\\', ';'], 0⟩] := by
    cbv
  rw [hident] at ht
  cases ts with
  | nil => cases ht
  | cons t ts => cases ts <;> cases ht

/-- A space without a break is part of a name to a style sheet, but not where a selector ends. -/
example : (Sheet.ofText ".x\xa0\x7b\x7d").items.toList = [⟨.rule ".x", some 1⟩] ∧
    tokens ".x\xa0".toList =
      [⟨.delimiter '.', ['.'], 0⟩, ⟨.ident ['x', '\xa0'], ['x', '\xa0'], 0⟩] := by
  rw [Sheet.ofText, Components.ofText, Components.ofLexemes_eq]
  cbv

end Css

end ModularScale
