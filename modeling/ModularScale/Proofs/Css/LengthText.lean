import ModularScale.Css.Length
import ModularScale.Proofs.Css.Ending

/-! # Lengths within a text

A text that is a length is read as the same tokens where a mark follows that can be no part of them.
A comment in it that is not closed goes on into what follows.
-/

namespace ModularScale.Css

open Components

variable {c z : Char} {a cs r u : List Char} {l : Lexeme} {ls ms : List Lexeme}

/-! ### Single tokens -/

namespace Token

def isNumeric : Token → Bool
  | number _ => true
  | percentage _ => true
  | dimension _ _ => true
  | _ => false

/-- Whether a token with this text is read in the same way before a barrier: white space, a closed
comment, or a number whose unit does not end within an escape. -/
def isSteady (text : List Char) : Token → Bool
  | whiteSpace => true
  | comment content => (comment content).isClosed text
  | dimension _ unit => !unit.contains replacement
  | token => token.isNumeric

end Token

theorem nextToken_of_startsNumber (h : startsNumber (c :: cs) = true) :
    nextToken c cs = numericToken (c :: cs) := by
  have hs : isSpace c = false := by
    rw [← Bool.not_eq_true]
    intro hs
    rcases isStop_iff.mp (show isStop c = true by simp [isStop, hs]) with
      rfl | rfl | rfl | rfl | rfl | rfl | rfl <;> cases h
  have hq : (c = '"' || c = '\'') = false := by
    rw [← Bool.not_eq_true, Bool.or_eq_true, decide_eq_true_eq, decide_eq_true_eq]
    rintro (rfl | rfl) <;> cases h
  rw [nextToken, hs, hq, h]
  rfl

/-- White space, numbers and comments by how they start. -/
theorem nextToken_gap_or_numeric (c : Char) (cs : List Char) :
    (isSpace c = true ∧ (nextToken c cs).value = .whiteSpace) ∨ startsNumber (c :: cs) = true ∨
    (c = '/' ∧ startsWith (· == '*') cs = true) ∨
    (nextToken c cs).value.isGap = false ∧ (nextToken c cs).value.isNumeric = false := by
  have hname : (nameToken (c :: cs)).value.isGap = false ∧
      (nameToken (c :: cs)).value.isNumeric = false :=
    value_nameToken (P := fun t => t.isGap = false ∧ t.isNumeric = false) (fun _ => ⟨rfl, rfl⟩)
      (fun _ => ⟨rfl, rfl⟩) ⟨rfl, rfl⟩ (fun _ => ⟨rfl, rfl⟩) _
  have hsign : (c = '/' ∧ startsWith (· == '*') cs = true) ∨
      (signToken c cs).value.isGap = false ∧ (signToken c cs).value.isNumeric = false := by
    fun_cases signToken c cs with
    | case1 | case2 | case3 | case5 => exact .inr ⟨rfl, rfl⟩
    | case4 _ _ _ hc => exact .inl (by simpa using hc)
    | case6 =>
      right
      dsimp only
      split <;> exact ⟨rfl, rfl⟩
  fun_cases nextToken c cs with
  | case1 hs => exact .inl ⟨hs, rfl⟩
  | case2 =>
    refine .inr (.inr (.inr ?_))
    dsimp only
    split <;> exact ⟨rfl, rfl⟩
  | case3 _ _ hn => exact .inr (.inl hn)
  | case4 => exact .inr (.inr (.inr ⟨rfl, rfl⟩))
  | case5 => exact .inr (.inr (.inr hname))
  | case6 => exact .inr (.inr hsign)

/-- A number stays the same before a barrier. -/
theorem numericToken_append (hz : isBarrier z = true)
    (h : ∀ x unit, (numericToken a).value = .dimension x unit → replacement ∉ unit)
    (r : List Char) : numericToken (a ++ z :: r) = numericToken a := by
  unfold numericToken at h ⊢
  dsimp only at h ⊢
  rw [numeral_edge (isEdge_of_isBarrier hz), List.drop_append_of_le_length (length_numeral_le a),
    startsWith_append_barrier (eq_false_of_isBarrier hz rfl), startsName_barrier hz]
  split
  · rfl
  case isFalse hp =>
    rw [if_neg hp] at h
    split
    case isTrue hs =>
      rw [if_pos hs] at h
      rw [name_append_barrier hz (h _ _ rfl)]
    case isFalse => rfl

/-- A steady token stays the same before a barrier. -/
theorem nextToken_append (hz : isBarrier z = true) (h : (nextToken c cs).value.isSteady
    (c :: cs.take ((nextToken c cs).length - 1)) = true) (r : List Char) :
    nextToken c (cs ++ z :: r) = nextToken c cs := by
  rcases nextToken_gap_or_numeric c cs with ⟨hs, -⟩ | hn | ⟨rfl, hs⟩ | ⟨hg, hn⟩
  · have hz : isSpace z = false := eq_false_of_isBarrier hz (by decide)
    rw [nextToken, nextToken, if_pos hs, if_pos hs, takeWhile_barrier hz]
  · have hn' : startsNumber (c :: (cs ++ z :: r)) = true := by
      rw [← List.cons_append, startsNumber_edge (isEdge_of_isBarrier hz), hn]
    rw [nextToken_of_startsNumber hn] at h ⊢
    rw [nextToken_of_startsNumber hn', ← List.cons_append]
    refine numericToken_append hz (fun x unit hv => ?_) r
    rw [hv] at h
    simpa [Token.isSteady] using h
  · obtain ⟨d, x, rfl⟩ := List.exists_cons_of_ne_nil (show cs ≠ [] by rintro rfl; cases hs)
    obtain rfl : d = '*' := beq_iff_eq.mp hs
    have hlen : 2 + (comment x).length - 1 = (comment x).length + 1 := by omega
    rw [nextToken_comment, hlen, Token.isSteady, Token.isClosed, List.take_succ_cons,
      beq_iff_eq, List.cons_append, List.cons_append, List.cons.injEq, List.cons.injEq] at h
    have hcongr : comment (x ++ z :: r) = comment (x ++ []) := by
      apply comment_congr
      rw [List.append_nil, h.2.2]
    rw [List.cons_append, nextToken_comment, nextToken_comment, hcongr, List.append_nil]
  · revert h hg hn
    cases (nextToken c cs).value <;> simp [Token.isSteady, Token.isGap, Token.isNumeric]

/-- The first tokens of a text stay the same before a barrier if they are steady. -/
theorem tokens_append_barrier (hz : isBarrier z = true) (h : tokens a = ls ++ ms)
    (hs : ∀ l ∈ ls, l.token.isSteady l.text = true) (r : List Char) :
    tokens (a ++ z :: r) = ls ++ tokens (spelled ms ++ z :: r) := by
  induction ls generalizing a with
  | nil =>
    have ha := flatMap_text_tokens a
    rw [h, List.nil_append] at ha
    rw [List.nil_append, ← ha]
    rfl
  | cons l ls ih =>
    cases a with
    | nil => cases (tokens_nil ▸ h : [] = l :: (ls ++ ms))
    | cons c cs =>
      rw [tokens_cons, List.cons_append, List.cons.injEq] at h
      obtain ⟨rfl, h⟩ := h
      have hsteady := hs _ List.mem_cons_self
      have hlen : (nextToken c cs).length - 1 ≤ cs.length := by
        have := length_nextToken_le c cs
        omega
      rw [List.cons_append, tokens_cons, nextToken_append hz hsteady,
        List.drop_append_of_le_length hlen, List.take_append_of_le_length hlen,
        ih h fun l hl => hs l (List.mem_cons_of_mem _ hl), List.cons_append]

/-! ### Characters of numbers -/

theorem isNameChar_of_isHexDigit (h : isHexDigit c = true) : isNameChar c = true := by
  simp only [isHexDigit, Bool.or_eq_true, Bool.and_eq_true, decide_eq_true_eq] at h
  rw [isNameChar, isNameStart]
  delta Char.isAlpha Char.isUpper Char.isLower
  simp only [Char.le_def, UInt32.le_iff_toNat_le, Bool.or_eq_true, Bool.and_eq_true,
    decide_eq_true_eq] at h ⊢
  rcases h with (h | ⟨hl, hu⟩) | ⟨hl, hu⟩
  · exact .inl (.inr h)
  · exact .inl (.inl (.inl (.inl (.inl (.inr ⟨hl, hu.trans (by decide)⟩)))))
  · exact .inl (.inl (.inl (.inl (.inl (.inl ⟨hl, hu.trans (by decide)⟩)))))

/-- A character of an escape that is no part of the code of another one is what this stands for. -/
theorem value_escape_of_mem (h : c ∈ cs.take (escape cs).length) (hn : isNameChar c = false)
    (hs : isSpace c = false) : (escape cs).value = c := by
  have hhex : isHexDigit c = false := by
    rw [← Bool.not_eq_true]
    intro hx
    rw [isNameChar_of_isHexDigit hx] at hn
    cases hn
  cases cs with
  | nil => simp at h
  | cons d cs =>
    rw [escape] at h ⊢
    split
    case isTrue hd =>
      rw [if_pos hd, List.take_add, List.mem_append] at h
      rcases h with h | h
      · have hp : ((d :: cs).take 6).takeWhile isHexDigit <+: d :: cs :=
          (List.takeWhile_prefix _).trans (List.take_prefix _ _)
        rw [← List.prefix_iff_eq_take.mp hp] at h
        rw [List.mem_takeWhile_imp h] at hhex
        cases hhex
      · rw [isSpace_of_mem_take_spaceLength h] at hs
        cases hs
    case isFalse hd =>
      rw [if_neg hd, List.take_succ_cons, List.take_zero, List.mem_singleton] at h
      subst h
      refine if_neg ?_
      rintro rfl
      cases hn

/-- A character that only an escape can bring into a name belongs to the name itself. -/
theorem mem_value_of_mem_name (h : c ∈ cs.take (name cs).length) (hn : isNameChar c = false)
    (hs : isSpace c = false) (hb : c ≠ '\\') : c ∈ (name cs).value := by
  fun_induction name cs with
  | case1 => simp at h
  | case2 d cs hd ih =>
    rw [Scan.cons, Nat.add_comm 1, List.take_succ_cons] at h
    rcases List.mem_cons.mp h with rfl | h
    · rw [hd] at hn
      cases hn
    · exact List.mem_cons_of_mem _ (ih h)
  | case3 d cs hd hesc escaped ih =>
    have hd : d = '\\' := of_decide_eq_true (Bool.and_eq_true_iff.mp hesc).1
    rw [Scan.cons, Nat.add_assoc, Nat.add_comm 1, List.take_succ_cons, List.take_add] at h
    rcases List.mem_cons.mp h with h | h
    · exact absurd (h.trans hd) hb
    rcases List.mem_append.mp h with h | h
    · rw [Scan.cons, ← value_escape_of_mem h hn hs]
      exact List.mem_cons_self
    · exact List.mem_cons_of_mem _ (ih h)
  | case4 => cases h

theorem mem_unit_of_mem_numericToken (h : '!' ∈ cs.take (numericToken cs).length) :
    ∃ x unit, (numericToken cs).value = .dimension x unit ∧ '!' ∈ unit := by
  have hnumeral : '!' ∉ cs.take (numeral cs).length := by
    intro hm
    cases isWordChar_of_mem_numeral hm
  unfold numericToken at h ⊢
  dsimp only at h ⊢
  split
  case isTrue hp =>
    rw [if_pos hp, List.take_add, List.mem_append] at h
    rcases h with h | h
    · exact absurd h hnumeral
    · cases hd : cs.drop (numeral cs).length with
      | nil => simp [hd] at h
      | cons d ds =>
        rw [hd] at hp h
        obtain rfl : d = '%' := beq_iff_eq.mp hp
        simp at h
  case isFalse hp =>
    rw [if_neg hp] at h
    split
    case isTrue hs =>
      rw [if_pos hs, List.take_add, List.mem_append] at h
      rcases h with h | h
      · exact absurd h hnumeral
      · exact ⟨_, _, rfl, mem_value_of_mem_name h rfl rfl (by decide)⟩
    case isFalse hs =>
      rw [if_neg hs] at h
      exact absurd h hnumeral

/-! ### Texts of lengths -/

/-- Whether a token can stand in a length: white space, a comment or the length itself. -/
def Token.isOfLength (token : Token) : Bool :=
  token.isGap || (Length.ofToken? token).isSome

/-- A text with nothing in it but tokens of a length. -/
def IsLength (a : List Char) : Prop :=
  ∀ l ∈ tokens a, l.token.isOfLength = true

/-- A text in which all comments are closed. -/
def ClosesComments (a : List Char) : Prop :=
  ∀ l ∈ tokens a, l.token.isClosed l.text = true

instance (a : List Char) : Decidable (ClosesComments a) :=
  inferInstanceAs (Decidable (∀ l ∈ tokens a, l.token.isClosed l.text = true))

theorem lexemes_dropGaps (cs : Components) :
    ∃ gs, cs.lexemes = gs ++ cs.dropGaps.lexemes ∧ ∀ l ∈ gs, l.token.isGap = true := by
  induction cs with
  | nil => exact ⟨[], rfl, List.forall_mem_nil _⟩
  | leaf l rest ih =>
    rw [dropGaps]
    split
    case isTrue hg =>
      obtain ⟨gs, he, hgs⟩ := ih
      exact ⟨l :: gs, congrArg (l :: ·) he, List.forall_mem_cons.mpr ⟨hg, hgs⟩⟩
    case isFalse => exact ⟨[], rfl, List.forall_mem_nil _⟩
  | block => exact ⟨[], rfl, List.forall_mem_nil _⟩

theorem isLength_of_ofText {text : String} {x : Length} (h : Length.ofText text = .ok x) :
    IsLength text.toList := by
  obtain ⟨l, rest, hd, hl, hrest⟩ : ∃ l rest, (ofText text.toList).dropGaps = .leaf l rest ∧
      (Length.ofToken? l.token).isSome = true ∧ rest.dropGaps = .nil := by
    unfold Length.ofText Length.read at h
    split at h
    case h_1 y rest hr =>
      split at h
      case isTrue hg =>
        split at hr
        case h_1 l rest' hd =>
          obtain ⟨hy, rfl⟩ := Prod.mk.inj hr
          refine ⟨l, rest', hd, ?_, hg⟩
          split at hy
          case h_1 hx => rw [hx]; rfl
          case h_2 => cases hy
        case h_2 => cases (Prod.mk.inj hr).1
        case h_3 => cases (Prod.mk.inj hr).1
      case isFalse => cases h
    case h_2 => cases h
  obtain ⟨gs, hgs, hg⟩ := lexemes_dropGaps (ofText text.toList)
  obtain ⟨hs, hhs, hh⟩ := lexemes_dropGaps rest
  have hlex : (ofText text.toList).lexemes = lexemes 1 text.toList := lexemes_ofLexemes _
  rw [hrest] at hhs
  rw [hd, Components.lexemes, hhs, hlex] at hgs
  intro m hm
  rw [← map_bare_lexemes 1, hgs, List.mem_map] at hm
  obtain ⟨m, hm, rfl⟩ := hm
  rw [Lexeme.bare, Token.isOfLength, Bool.or_eq_true]
  simp only [List.mem_append, List.mem_cons, Components.lexemes, List.not_mem_nil, or_false] at hm
  rcases hm with hm | rfl | hm
  · exact .inl (hg m hm)
  · exact .inr hl
  · exact .inl (hh m hm)

/-- The name of a unit has no letters outside ASCII and none that an escape is needed for. -/
theorem isAlpha_of_ofName? {unit : List Char} (h : (LengthUnit.ofName? unit).isSome = true)
    (hc : c ∈ unit) : c.isAlpha = true := by
  have hlower : ∀ {s : String}, (s.toList.all fun d => d.isLower) = true →
      String.ofList (Text.asciiLower unit) = s → c.isAlpha = true := by
    intro s hs he
    have hm : c.toLower ∈ s.toList := by
      rw [← he, String.toList_ofList]
      exact List.mem_map_of_mem hc
    have hl := List.all_eq_true.mp hs _ hm
    rcases Text.toLower_cases c with hc | ⟨hc, -⟩
    · rw [hc] at hl
      exact Text.isAlpha_of_isLower hl
    · exact hc
  unfold LengthUnit.ofName? at h
  split at h
  case h_1 he => exact hlower (by decide) he
  case h_2 he => exact hlower (by decide) he
  case h_3 he => exact hlower (by decide) he
  case h_4 => cases h

namespace Token

variable {token : Token} {text : List Char}

theorem isOfLength_cases (h : token.isOfLength = true) :
    token = .whiteSpace ∨ (∃ content, token = .comment content) ∨ (∃ x, token = .number x) ∨
      ∃ x unit, token = .dimension x unit ∧ ∀ c ∈ unit, c.isAlpha = true := by
  cases token with
  | whiteSpace => exact .inl rfl
  | comment content => exact .inr (.inl ⟨content, rfl⟩)
  | number x => exact .inr (.inr (.inl ⟨x, rfl⟩))
  | dimension x unit =>
    refine .inr (.inr (.inr ⟨x, unit, rfl, fun c hc => isAlpha_of_ofName? ?_ hc⟩))
    simpa [isOfLength, isGap, Length.ofToken?] using h
  | _ => cases h

theorem isSteady_of_isOfLength (h : token.isOfLength = true) (hc : token.isClosed text = true) :
    token.isSteady text = true := by
  rcases isOfLength_cases h with rfl | ⟨content, rfl⟩ | ⟨x, rfl⟩ | ⟨x, unit, rfl, hu⟩
  · rfl
  · exact hc
  · rfl
  · rw [isSteady, Bool.not_eq_true', ← Bool.not_eq_true, List.contains_iff_mem]
    intro hm
    exact absurd (hu _ hm) (by decide)

theorem isInline_of_isOfLength (h : token.isOfLength = true) : token.isInline = true := by
  rcases isOfLength_cases h with rfl | ⟨content, rfl⟩ | ⟨x, rfl⟩ | ⟨x, unit, rfl, -⟩ <;> rfl

end Token

/-- A length stays the same before a barrier if its comments are closed. -/
theorem IsLength.tokens_append (h : IsLength a) (hc : ClosesComments a) (hz : isBarrier z = true)
    (r : List Char) : tokens (a ++ z :: r) = tokens a ++ tokens (z :: r) :=
  tokens_append_barrier hz (List.append_nil _).symm
    (fun l hl => Token.isSteady_of_isOfLength (h l hl) (hc l hl)) r

/-! ### Marks of importance -/

/-- A mark of importance can only stand in a comment, whose own mark comes behind it. -/
theorem slash_mem_of_nextToken {x v : List Char}
    (h : (nextToken c cs).value.isOfLength = true)
    (hc : (nextToken c cs).value.isClosed (c :: cs.take ((nextToken c cs).length - 1)) = true)
    (hx : c :: cs.take ((nextToken c cs).length - 1) = x ++ '!' :: v) : '/' ∈ v := by
  have hm : '!' ∈ c :: cs.take ((nextToken c cs).length - 1) := by simp [hx]
  rcases nextToken_gap_or_numeric c cs with ⟨hs, -⟩ | hn | ⟨rfl, hs⟩ | ⟨hg, hn⟩
  · rw [nextToken, if_pos hs, Nat.add_sub_cancel_left, take_length_takeWhile] at hm
    rcases List.mem_cons.mp hm with rfl | hm
    · cases hs
    · cases List.mem_takeWhile_imp hm
  · have hpos := Nat.lt_of_lt_of_le (length_numeral_pos hn) (length_numeral_le_numericToken _)
    rw [nextToken_of_startsNumber hn] at h hm
    rw [← List.take_cons hpos] at hm
    obtain ⟨x, unit, hv, hu⟩ := mem_unit_of_mem_numericToken hm
    rw [hv] at h
    rcases Token.isOfLength_cases h with h | ⟨_, h⟩ | ⟨_, h⟩ | ⟨_, _, h, ha⟩
    · cases h
    · cases h
    · cases h
    · cases h
      exact absurd (ha _ hu) (by decide)
  · obtain ⟨d, y, rfl⟩ := List.exists_cons_of_ne_nil (show cs ≠ [] by rintro rfl; cases hs)
    obtain rfl : d = '*' := beq_iff_eq.mp hs
    rw [nextToken_comment] at hc hx
    rw [Token.isClosed, beq_iff_eq, hx] at hc
    have hl := congrArg List.getLast? hc
    rw [List.getLast?_append_of_ne_nil _ (List.cons_ne_nil _ _),
      List.getLast?_append_of_ne_nil _ (List.cons_ne_nil _ _)] at hl
    cases v with
    | nil => cases hl
    | cons e v =>
      rw [List.getLast?_cons_cons] at hl
      exact List.mem_of_getLast? hl
  · have hgap := Token.isOfLength_cases h
    rcases hgap with hv | ⟨_, hv⟩ | ⟨_, hv⟩ | ⟨_, _, hv, -⟩ <;> rw [hv] at hg hn
    · cases hg
    · cases hg
    · cases hn
    · cases hn

theorem IsLength.slash_mem (h : IsLength a) (hc : ClosesComments a) {x b : List Char}
    (ha : a = x ++ '!' :: b) : '/' ∈ b := by
  unfold IsLength at h
  unfold ClosesComments at hc
  generalize hls : tokens a = ls at h hc
  induction ls generalizing a x with
  | nil =>
    cases a with
    | nil => cases x <;> cases ha
    | cons c cs => rw [tokens_cons] at hls; cases hls
  | cons l ls ih =>
    cases a with
    | nil => rw [tokens_nil] at hls; cases hls
    | cons c cs =>
      rw [tokens_cons, List.cons.injEq] at hls
      obtain ⟨rfl, hls⟩ := hls
      obtain ⟨hl, h⟩ := List.forall_mem_cons.mp h
      obtain ⟨hlc, hc⟩ := List.forall_mem_cons.mp hc
      rw [← List.take_append_drop ((nextToken c cs).length - 1) cs, ← List.cons_append] at ha
      rcases List.append_eq_append_iff.mp ha with ⟨x', -, hd⟩ | ⟨v, hx, hb⟩
      · exact ih hd hls h hc
      · cases v with
        | nil => exact ih (x := []) hb.symm hls h hc
        | cons d v =>
          obtain ⟨rfl, rfl⟩ := List.cons.inj hb
          exact List.mem_append_left _ (slash_mem_of_nextToken hl hlc hx)

/-- A length is not marked as important. -/
theorem IsLength.splitImportant_eq (h : IsLength a) (hc : ClosesComments a)
    (ht : Text.Trimmed a) : splitImportant a = (a, false) := by
  rcases splitImportant_cases a with ⟨hf, ha⟩ | ⟨x, b, ha, hi, -⟩
  · rw [ht.trim_eq] at ha
    exact Prod.ext ha hf
  · rw [ht.trim_eq] at ha
    rcases isAlpha_of_mem_important hi (h.slash_mem hc ha) with hb | hb <;> cases hb

/-! ### Comments that are not closed -/

/-- A comment is closed or takes all that is left of the text. -/
theorem comment_cases (cs : List Char) :
    cs.take (comment cs).length = (comment cs).value ++ ['*', '/'] ∨
      comment cs = ⟨cs, cs.length⟩ := by
  fun_induction comment cs with
  | case1 => exact .inr rfl
  | case2 => exact .inl rfl
  | case3 c cs _ ih =>
    rcases ih with h | h
    · left
      rw [Scan.cons, Nat.add_comm 1, List.take_succ_cons, h, List.cons_append]
    · right
      rw [h, Scan.cons, Nat.add_comm 1]
      rfl

theorem comment_append (h : comment cs = ⟨cs, cs.length⟩) (hz : z ≠ '/') (r : List Char) :
    comment (cs ++ z :: r) =
      ⟨cs ++ (comment (z :: r)).value, cs.length + (comment (z :: r)).length⟩ := by
  induction cs with
  | nil => simp
  | cons c cs ih =>
    have hc : c = '*' → startsWith (· == '/') cs = false := by
      rintro rfl
      cases cs with
      | nil => rfl
      | cons d cs =>
        refine beq_eq_false_iff_ne.mpr ?_
        rintro rfl
        cases h
    have hc' : c = '*' → startsWith (· == '/') (cs ++ z :: r) = false := by
      intro he
      rw [startsWith_append_barrier (p := (· == '/')) (beq_eq_false_iff_ne.mpr hz), hc he]
    rw [comment_cons hc, Scan.cons, Scan.mk.injEq, List.cons.injEq, List.length_cons,
      Nat.add_comm 1, Nat.succ_inj] at h
    have hcs : (⟨(comment cs).value, (comment cs).length⟩ : Scan (List Char)) =
        ⟨cs, cs.length⟩ := by
      rw [Scan.mk.injEq]
      exact ⟨h.1.2, h.2⟩
    rw [List.cons_append, comment_cons hc', ih hcs, Scan.cons, List.length_cons]
    simp only [List.cons_append, Scan.mk.injEq, true_and]
    omega

theorem length_le_comment (h : '/' ∉ u) (r : List Char) : u.length ≤ (comment (u ++ r)).length := by
  induction u with
  | nil => exact Nat.zero_le _
  | cons c u ih =>
    have hu : '/' ∉ u := fun hm => h (List.mem_cons_of_mem _ hm)
    by_cases hc : c = '*' ∧ startsWith (· == '/') (u ++ r) = true
    · obtain ⟨rfl, hs⟩ := hc
      cases u with
      | nil =>
        cases r with
        | nil => cases hs
        | cons d r =>
          obtain rfl : d = '/' := beq_iff_eq.mp hs
          exact Nat.le_succ 1
      | cons d u =>
        obtain rfl : d = '/' := beq_iff_eq.mp hs
        exact absurd List.mem_cons_self hu
    · have hc' : c = '*' → startsWith (· == '/') (u ++ r) = false := fun he =>
        (Bool.not_eq_true _).mp fun hs => hc ⟨he, hs⟩
      have := ih hu
      rw [List.cons_append, comment_cons hc', Scan.cons, List.length_cons]
      dsimp only
      omega

theorem exists_of_comment {content : List Char} (h : (nextToken c cs).value = .comment content) :
    c = '/' ∧ ∃ x, cs = '*' :: x := by
  rcases nextToken_gap_or_numeric c cs with ⟨-, hv⟩ | hn | ⟨rfl, hs⟩ | ⟨hg, -⟩
  · rw [hv] at h
    cases h
  · rw [nextToken_of_startsNumber hn] at h
    exact value_numericToken (P := fun t => t ≠ .comment content) nofun nofun nofun _ h |>.elim
  · obtain ⟨d, x, rfl⟩ := List.exists_cons_of_ne_nil (show cs ≠ [] by rintro rfl; cases hs)
    obtain rfl : d = '*' := beq_iff_eq.mp hs
    exact ⟨rfl, x, rfl⟩
  · rw [h] at hg
    cases hg

/-- A comment that is not closed is all that is left of the text. -/
theorem eq_nil_of_not_isClosed {content : List Char} {text : List Char} {line : Nat}
    (h : tokens a = ⟨.comment content, text, line⟩ :: ms)
    (hc : (Token.comment content).isClosed text = false) :
    ms = [] ∧ ∃ x, a = '/' :: '*' :: x ∧ comment x = ⟨x, x.length⟩ := by
  cases a with
  | nil => rw [tokens_nil] at h; cases h
  | cons c cs =>
    rw [tokens_cons, List.cons.injEq, Lexeme.mk.injEq] at h
    obtain ⟨rfl, x, rfl⟩ := exists_of_comment h.1.1
    have hlen : 2 + (comment x).length - 1 = (comment x).length + 1 := by omega
    rw [nextToken_comment, hlen, List.take_succ_cons, List.drop_succ_cons] at h
    obtain ⟨⟨hv, rfl, -⟩, hms⟩ := h
    rcases comment_cases x with hx | hx
    · rw [Token.isClosed, hx, Token.comment.inj hv, List.cons_append, List.cons_append,
        beq_self_eq_true] at hc
      cases hc
    · rw [hx, List.drop_length, tokens_nil] at hms
      exact ⟨hms.symm, x, rfl, hx⟩

/-- A comment of a length that is not closed goes on into what follows, up to a `/` at least. -/
theorem IsLength.exists_tokens_append (h : IsLength a) (hc : ¬ClosesComments a)
    (hz : isBarrier z = true) (hu : '/' ∉ z :: u) (r : List Char) :
    ∃ ls s t, r = s ++ t ∧ spelled ls = a ++ (z :: u ++ s) ∧
      (∀ l ∈ ls, l.token.isOfLength = true) ∧ tokens (a ++ (z :: u ++ r)) = ls ++ tokens t := by
  obtain ⟨as, l, bs, ha, has, hl⟩ : ∃ as l bs, tokens a = as ++ l :: bs ∧
      (∀ l ∈ as, l.token.isClosed l.text = true) ∧ l.token.isClosed l.text = false := by
    have hfind : ((tokens a).find? fun l => !l.token.isClosed l.text) ≠ none := by
      intro hn
      rw [List.find?_eq_none] at hn
      exact hc fun l hl => by simpa using hn l hl
    obtain ⟨l, hf⟩ := Option.ne_none_iff_exists'.mp hfind
    obtain ⟨hl, as, bs, he, has⟩ := List.find?_eq_some_iff_append.mp hf
    exact ⟨as, l, bs, he, by simpa using has, by simpa using hl⟩
  unfold IsLength at h
  rw [ha, List.forall_mem_append, List.forall_mem_cons] at h
  obtain ⟨hals, hll, -⟩ := h
  have hspelled : spelled (as ++ l :: bs) = a := by
    rw [← ha]
    exact flatMap_text_tokens a
  obtain ⟨content, hcomment⟩ : ∃ content, l.token = .comment content := by
    rcases Token.isOfLength_cases hll with ht | ⟨content, ht⟩ | ⟨_, ht⟩ | ⟨_, _, ht, -⟩
    · rw [ht] at hl
      cases hl
    · exact ⟨content, ht⟩
    · rw [ht] at hl
      cases hl
    · rw [ht] at hl
      cases hl
  obtain ⟨token, text, line⟩ := l
  obtain rfl : token = .comment content := hcomment
  obtain ⟨rfl, x, hx, hcx⟩ := eq_nil_of_not_isClosed (tokens_spelled ha) hl
  have hsteady : ∀ l ∈ as, l.token.isSteady l.text = true := fun l hl =>
    Token.isSteady_of_isOfLength (hals l hl) (has l hl)
  have hcomment := comment_append hcx (fun he => hu (he ▸ List.mem_cons_self)) (u ++ r)
  obtain ⟨k, hk⟩ := Nat.exists_eq_add_of_le (length_le_comment hu r)
  have htake : (x ++ (z :: u ++ r)).take (x.length + (comment (z :: u ++ r)).length) =
      x ++ (z :: u ++ r.take k) := by
    rw [List.take_length_add_append, hk, List.take_length_add_append]
  have hdrop : (x ++ (z :: u ++ r)).drop (x.length + (comment (z :: u ++ r)).length) =
      r.drop k := by
    rw [List.drop_length_add_append, hk, List.drop_length_add_append]
  rw [spelled_append, hx] at hspelled
  refine ⟨as ++ [⟨.comment (x ++ (comment (z :: u ++ r)).value),
    '/' :: '*' :: (x ++ (z :: u ++ r.take k)), 0⟩], r.take k, r.drop k,
    (List.take_append_drop k r).symm, ?_, ?_, ?_⟩
  · rw [spelled_append, spelled_cons, spelled_nil, List.append_nil, ← hspelled, List.append_assoc]
    rfl
  · rw [List.forall_mem_append, List.forall_mem_singleton]
    exact ⟨hals, rfl⟩
  · rw [List.cons_append, tokens_append_barrier hz ha hsteady, hx, List.cons_append,
      List.cons_append, tokens_comment, hcomment, ← List.cons_append, htake, hdrop,
      List.append_assoc, List.singleton_append]

end ModularScale.Css
