import ModularScale.Proofs.Css.LengthText
import ModularScale.Proofs.Css.Printing

/-! # Lengths in queries

A length is pasted into the value of a declaration and into a query for the width of a viewport.
Both are read back if its comments are closed, and if not the query swallows what follows it.
-/

namespace ModularScale.Css

open Components

variable {z : Char} {a n r : List Char} {ls : List Lexeme} {f : Forest Node} {line : Option Nat}

theorem startsWith_isSpace (ht : Text.Trimmed a) (hz : isSpace z = false) (r : List Char) :
    startsWith isSpace (a ++ z :: r) = false := by
  cases a with
  | nil => exact hz
  | cons c a =>
    rw [← Bool.not_eq_true]
    intro hs
    have hb := isBlank_of_isSpace hs
    rw [ht.head c rfl] at hb
    cases hb

/-! ### Declarations -/

/-- A length is read back as the value of a declaration. -/
theorem IsLength.reprints_declaration (h : IsLength a) (hc : ClosesComments a)
    (ht : Text.Trimmed a) (hn : IsName n) (hp : propertyName n = n) (line : Option Nat) :
    Reprints .block
      (.single ⟨.declaration (String.ofList n) (String.ofList a) false, line⟩ .nil) := by
  intro depth
  let value := gap [' '] ++ row (tokens a)
  have hs : Spaces [' '] := by simp [Spaces, isSpace]
  have htext : value.text = ' ' :: a := by
    rw [text_append, text_gap, text_row_tokens]
    rfl
  have hdecl : declaration n (' ' :: a) =
      .declaration (String.ofList n) (String.ofList a) false := by
    have htrim := ht.trim_append hs.isBlank (w := []) (List.forall_mem_nil _)
    rw [List.append_nil] at htrim
    have hi : splitImportant (' ' :: a) = (a, false) := by
      rw [← h.splitImportant_eq hc ht]
      exact splitImportant_congr (htrim.trans ht.trim_eq.symm)
    rw [declaration, hi, hp]
  have hlexemes : value.lexemes = (gap [' ']).lexemes ++ tokens a := by
    rw [Components.lexemes_append, lexemes_row]
  have htokens : ∀ r, tokens (value.text ++ ';' :: r) = value.lexemes ++ tokens (';' :: r) := by
    intro r
    rw [htext, hlexemes, List.append_assoc, ← h.tokens_append hc rfl,
      ← tokens_gap hs (startsWith_isSpace ht rfl r)]
    rfl
  have hinline : ∀ l ∈ tokens a, l.token.isInline = true := fun l hl =>
    Token.isInline_of_isOfLength (h l hl)
  have hread := readsAs_value value hn
    (by rw [balanced_append, balanced_gap, balanced_row hinline]; rfl)
    (by rw [passes_append, passes_gap, passes_row hinline]; rfl) htokens line
  rw [htext, hdecl] at hread
  have hread := hread.spaces_append (spaces_indent depth)
  rw [Forest.print_declaration, String.toList_ofList, String.toList_ofList]
  simp only [List.append_assoc, List.cons_append, List.nil_append] at hread ⊢
  exact hread

/-! ### Queries -/

/-- What stands in the parentheses of a query for a width that is made up of some tokens. -/
def minWidth (ls : List Lexeme) : Components :=
  leaf ⟨.ident "min-width".toList, "min-width".toList, 0⟩
    (leaf ⟨.colon, [':'], 0⟩ (gap [' '] ++ row ls))

def query (ls : List Lexeme) : Components :=
  .block ⟨.opening .round, ['('], 0⟩ .round (minWidth ls) (some ⟨.closing .round, [')'], 0⟩) .nil

theorem text_minWidth (ls : List Lexeme) :
    (minWidth ls).text = "min-width: ".toList ++ spelled ls := by
  rw [minWidth, text_leaf, text_leaf, text_append, text_gap, text_row]
  rfl

theorem lexemes_minWidth (ls : List Lexeme) :
    (minWidth ls).lexemes = (minWidth []).lexemes ++ ls := by
  simp [minWidth, Components.lexemes]

theorem text_query (a : List Char) :
    (query (tokens a)).text = "(min-width: ".toList ++ a ++ [')'] := by
  have ha : spelled (tokens a) = a := flatMap_text_tokens a
  rw [query, text_block, text_minWidth, ha]
  simp [Components.text, Components.lexemes]

theorem balanced_minWidth (h : ∀ l ∈ ls, l.token.isInline = true) :
    (minWidth ls).balanced (some .round) = true := by
  simp [minWidth, balanced, closesInside, balanced_append, balanced_gap, balanced_row h,
    Token.opens?, Token.closes?]

/-- The start of a query is read on its own. -/
theorem tokens_minWidth (ht : Text.Trimmed a) (hz : isSpace z = false) (r : List Char) :
    tokens ("(min-width: ".toList ++ (a ++ z :: r)) =
      ⟨.opening .round, ['('], 0⟩ :: ((minWidth []).lexemes ++ tokens (a ++ z :: r)) := by
  have hn : IsName "min-width".toList := isName_of_all (by decide) (by decide)
  have hs : Spaces [' '] := by simp [Spaces, isSpace]
  have hgap := tokens_gap hs (startsWith_isSpace ht hz r)
  have hname := tokens_name hn (r := ':' :: ' ' :: (a ++ z :: r)) (stops_cons rfl _)
  rw [tokens_colon] at hname
  have hopen : ∀ r, tokens ('(' :: r) = ⟨.opening .round, ['('], 0⟩ :: tokens r := fun r =>
    tokens_mark rfl
  have htext : "(min-width: ".toList ++ (a ++ z :: r) =
      '(' :: ("min-width".toList ++ ':' :: ' ' :: (a ++ z :: r)) := rfl
  rw [htext, hopen, hname]
  exact congrArg (_ :: _ :: _ :: ·) hgap

theorem IsLength.tokens_query (h : IsLength a) (hc : ClosesComments a) (ht : Text.Trimmed a)
    (r : List Char) :
    tokens ((query (tokens a)).text ++ r) = (query (tokens a)).lexemes ++ tokens r := by
  have hclose : ∀ r, tokens (')' :: r) = ⟨.closing .round, [')'], 0⟩ :: tokens r := fun r =>
    tokens_mark rfl
  rw [text_query, List.append_assoc, List.append_assoc, List.singleton_append,
    tokens_minWidth ht rfl, h.tokens_append hc rfl, hclose]
  simp [query, minWidth, Components.lexemes]

theorem IsLength.solid_query (h : IsLength a) (hc : ClosesComments a) (ht : Text.Trimmed a) :
    Solid none (query (tokens a)) where
  balanced := by
    have hinline : ∀ l ∈ tokens a, l.token.isInline = true := fun l hl =>
      Token.isInline_of_isOfLength (h l hl)
    simp [query, balanced, balanced_minWidth hinline, Token.opens?, Token.closes?]
  trimmed := by
    rw [text_query]
    constructor
    · rintro c ⟨⟩
      rfl
    · intro c hc
      rw [List.getLast?_concat] at hc
      cases hc
      rfl
  tokens_append r _ := h.tokens_query hc ht r

/-- A block for viewports from some width on is read back. -/
theorem IsLength.reprints_query (h : IsLength a) (hc : ClosesComments a) (ht : Text.Trimmed a)
    (hf : Reprints .block f) (line : Option Nat) :
    Reprints (.sheet false) (.single ⟨.atRule "media"
      ("(min-width: " ++ String.ofList a ++ ")") " " true, line⟩ f) := by
  have hheads : Heads (.sheet false) "media".toList [' '] (query (tokens a)) := by
    refine ⟨isName_of_all (by decide) (by decide), rfl, by simp [Spaces, isSpace],
      h.solid_query hc ht, rfl, ?_⟩
    rintro c ⟨⟩
    exact ⟨rfl, by decide⟩
  have hparams : String.ofList (query (tokens a)).text =
      "(min-width: " ++ String.ofList a ++ ")" := by
    rw [text_query, String.ofList_append, String.ofList_append]
    rfl
  have hread := reprints_heads rfl hheads hf line
  rwa [hparams] at hread

/-! ### Queries with comments that are not closed -/

/-- An at-keyword, white space and the start of a query, whatever else is in its parentheses. -/
theorem exists_ofLexemes_query (h : ∀ l ∈ ls, l.token.isInline = true) (n w : List Char)
    (ms : List Lexeme) : ∃ more closing rest,
      ofLexemes (⟨.atKeyword n, '@' :: n, 0⟩ :: ⟨.whiteSpace, w, 0⟩ ::
          ⟨.opening .round, ['('], 0⟩ :: ((minWidth ls).lexemes ++ ms)) =
        .leaf ⟨.atKeyword n, '@' :: n, 0⟩ (.leaf ⟨.whiteSpace, w, 0⟩
          (.block ⟨.opening .round, ['('], 0⟩ .round (minWidth ls ++ more) closing rest)) := by
  obtain ⟨hname, -, -⟩ := @read_leaf ⟨.atKeyword n, '@' :: n, 0⟩ none (⟨.whiteSpace, w, 0⟩ ::
    ⟨.opening .round, ['('], 0⟩ :: ((minWidth ls).lexemes ++ ms)) rfl (closesInside_none _)
  obtain ⟨hspace, -, -⟩ := @read_leaf ⟨.whiteSpace, w, 0⟩ none
    (⟨.opening .round, ['('], 0⟩ :: ((minWidth ls).lexemes ++ ms)) rfl (closesInside_none _)
  obtain ⟨hopen, -, -⟩ := @read_opening ⟨.opening .round, ['('], 0⟩ .round none
    ((minWidth ls).lexemes ++ ms) rfl
  obtain ⟨hinner, -, -⟩ := read_lexemes_append (balanced_minWidth h) ms
  rw [ofLexemes, hname, hspace, hopen, hinner]
  exact ⟨_, _, _, rfl⟩

/-- If a comment in the length of a query is not closed, the first item that is read has the
bracket behind the query in its own head. -/
theorem IsLength.exists_head (h : IsLength a) (ht : Text.Trimmed a) (hc : ¬ClosesComments a)
    (r : List Char) : ∃ m hasBlock content rest,
      ((Level.sheet false).read false (ofLexemes
        (tokens ("@media (min-width: ".toList ++ (a ++ (") \x7b".toList ++ r)))))).items.map
          Node.plain =
        .cons (.made (atRule "media".toList (" (min-width: ".toList ++ (a ++ (") \x7b".toList ++ m)))
          hasBlock).plain) content rest := by
  obtain ⟨ls, s, t, -, hls, hall, htokens⟩ :=
    h.exists_tokens_append (z := ')') (u := [' ', '\x7b']) hc rfl (by decide) r
  have hn : IsName "media".toList := isName_of_all (by decide) (by decide)
  have hs : Spaces [' '] := by simp [Spaces, isSpace]
  have hquery : tokens ("(min-width: ".toList ++ (a ++ (") \x7b".toList ++ r))) =
      ⟨.opening .round, ['('], 0⟩ :: ((minWidth ls).lexemes ++ tokens t) := by
    rw [lexemes_minWidth ls, List.append_assoc, ← htokens]
    exact tokens_minWidth ht rfl _
  have hgap := tokens_gap hs (r := "(min-width: ".toList ++ (a ++ (") \x7b".toList ++ r))) rfl
  have hat := tokens_at hn (name_stop (c := ' ') rfl (by decide)
    ("(min-width: ".toList ++ (a ++ (") \x7b".toList ++ r))))
  obtain ⟨more, closing, rest, hof⟩ := exists_ofLexemes_query
    (fun l hl => Token.isInline_of_isOfLength (hall l hl)) "media".toList [' '] (tokens t)
  let head := leaf ⟨.whiteSpace, [' '], 0⟩
    (.block ⟨.opening .round, ['('], 0⟩ .round (minWidth ls ++ more) closing rest)
  have hrun : (head.run nestedStop).text =
      " (min-width: ".toList ++ (a ++ (") \x7b".toList ++ (s ++ (more.text ++
        ((closing.map Lexeme.text).getD [] ++ (rest.run nestedStop).text))))) := by
    simp only [head, run, nestedStop, Run.cons]
    rw [text_append, text_minWidth, hls]
    simp
  have hitems : ofLexemes (tokens ("@media (min-width: ".toList ++ (a ++ (") \x7b".toList ++ r)))) =
      leaf ⟨.atKeyword "media".toList, "@media".toList, 0⟩ head := by
    rw [← hquery] at hof
    exact (congrArg ofLexemes (hat.trans (congrArg (_ :: ·) hgap))).trans hof
  have hitem : (Level.sheet false).item
      (leaf ⟨.atKeyword "media".toList, "@media".toList, 0⟩ head) =
      ⟨some (atRule "media".toList (head.run nestedStop).text (head.run nestedStop).block.isSome),
        (head.run nestedStop).block.getD .nil, (head.run nestedStop).after⟩ := rfl
  rw [hitems, read_item rfl rfl, hitem, plain_consItem, hrun]
  exact ⟨_, _, _, _, rfl⟩

/-- A query with a comment that is not closed is not read back. -/
theorem IsLength.read_ne (h : IsLength a) (ht : Text.Trimmed a) (hc : ¬ClosesComments a)
    (r : List Char) (afterName : String) (hasBlock : Bool) (content rest : Forest Node) :
    ((Level.sheet false).read false (ofLexemes
        (tokens ("@media (min-width: ".toList ++ (a ++ (") \x7b".toList ++ r)))))).items.map
          Node.plain ≠
      .cons (.made (.atRule "media" ("(min-width: " ++ String.ofList a ++ ")") afterName hasBlock))
        content rest := by
  obtain ⟨m, hasBlock', content', rest', hread⟩ := h.exists_head ht hc r
  rw [hread]
  intro he
  simp only [Forest.cons.injEq, Node.made, Node.mk.injEq, atRule, Kind.plain,
    Kind.atRule.injEq] at he
  have htrim := congrArg String.toList he.1.1.2.1
  rw [String.toList_ofList, Text.trim] at htrim
  have hstart : Text.trimStart (" (min-width: ".toList ++ (a ++ (") \x7b".toList ++ m))) =
      "(min-width: ".toList ++ (a ++ (") \x7b".toList ++ m)) := rfl
  obtain ⟨w, hw, happ⟩ := Text.exists_trimEnd_append
    ("(min-width: ".toList ++ (a ++ (") \x7b".toList ++ m)))
  rw [hstart] at htrim
  rw [htrim] at happ
  have hbrace : w = " \x7b".toList ++ m := by
    simpa using happ
  exact absurd (hw '\x7b' (by simp [hbrace])) (by decide)

end ModularScale.Css
