import ModularScale.Proofs.Css.LengthText

/-! # Gaps

White space and comments, as they are written and as they are read. What comes first in a text
apart from them does not depend on them.
-/

namespace ModularScale.Css

variable {c : Char} {cs r w content before : List Char} {l : Lexeme} {ls : List Lexeme}

/-- What may stand in a comment. -/
def IsContent (content : List Char) : Prop :=
  ¬['*', '/'] <:+: content

/-- White space and comments, all of which are closed. -/
inductive WritesGaps : List Char → Prop
  | nil : WritesGaps []
  | space {c : Char} {cs : List Char} : isSpace c = true → WritesGaps cs → WritesGaps (c :: cs)
  | comment {content cs : List Char} : IsContent content → WritesGaps cs →
    WritesGaps ('/' :: '*' :: (content ++ '*' :: '/' :: cs))

/-- White space and comments at the end of a text, where the last comment may be open. -/
inductive WritesLastGaps : List Char → Prop
  | closed {cs : List Char} : WritesGaps cs → WritesLastGaps cs
  | opened {cs content : List Char} : WritesGaps cs → IsContent content →
    WritesLastGaps (cs ++ '/' :: '*' :: content)

/-! ### Comments -/

theorem IsContent.tail (h : IsContent (c :: content)) : IsContent content :=
  fun hi => h (List.infix_cons hi)

theorem IsContent.not_closing (h : IsContent (c :: content)) (hc : c = '*')
    (hr : startsWith (· == '/') r = false) : startsWith (· == '/') (content ++ r) = false := by
  subst hc
  cases content with
  | nil => exact hr
  | cons d content =>
    refine beq_eq_false_iff_ne.mpr ?_
    rintro rfl
    exact h ⟨[], content, rfl⟩

/-- A comment is read up to the first place where its closing mark stands. -/
theorem comment_of_isContent (h : IsContent content) (r : List Char) :
    comment (content ++ '*' :: '/' :: r) = ⟨content, content.length + 2⟩ := by
  induction content with
  | nil => rfl
  | cons c content ih =>
    have hc : c = '*' → startsWith (· == '/') (content ++ '*' :: '/' :: r) = false :=
      fun hc => h.not_closing hc rfl
    rw [List.cons_append, comment_cons hc, ih h.tail, Scan.cons, Nat.add_comm 1, List.length_cons,
      Nat.add_right_comm]

theorem comment_of_open (h : IsContent content) : comment content = ⟨content, content.length⟩ := by
  induction content with
  | nil => rfl
  | cons c content ih =>
    have hc : c = '*' → startsWith (· == '/') content = false := fun hc => by
      rw [← List.append_nil content]
      exact h.not_closing hc rfl
    rw [comment_cons hc, ih h.tail, Scan.cons, Nat.add_comm 1, List.length_cons]

theorem prefix_comment (cs : List Char) : (comment cs).value <+: cs := by
  rcases comment_cases cs with h | h
  · have hp : (comment cs).value ++ ['*', '/'] <+: cs := h ▸ List.take_prefix _ cs
    exact (List.prefix_append _ _).trans hp
  · rw [h]

theorem isContent_comment (cs : List Char) : IsContent (comment cs).value := by
  have hnil : IsContent [] := fun h => by cases List.eq_nil_of_infix_nil h
  fun_induction comment cs with
  | case1 => exact hnil
  | case2 => exact hnil
  | case3 c cs hc ih =>
    rw [Scan.cons]
    intro hi
    rcases List.infix_cons_iff.mp hi with hp | hi
    · obtain ⟨hstar, hp⟩ := List.cons_prefix_cons.mp hp
      obtain ⟨tail, ht⟩ := hp.trans (prefix_comment cs)
      exact hc tail hstar.symm ht.symm
    · exact ih hi

/-- A comment either ends with its mark or takes all that is left. -/
theorem exists_content (cs : List Char) : (∃ content r, IsContent content ∧
    cs = content ++ '*' :: '/' :: r) ∨ IsContent cs := by
  rcases comment_cases cs with h | h
  · refine .inl ⟨_, cs.drop (comment cs).length, isContent_comment cs, ?_⟩
    have hcs := List.take_append_drop (comment cs).length cs
    rw [h, List.append_assoc] at hcs
    exact hcs.symm
  · have hc := isContent_comment cs
    rw [h] at hc
    exact .inr hc

/-! ### What follows gaps -/

/-- The tokens of a text behind the white space and the comments at its start. -/
def afterGaps (cs : List Char) : List Lexeme :=
  (tokens cs).dropWhile fun l => l.token.isGap

@[simp] theorem afterGaps_nil : afterGaps [] = [] := by
  rw [afterGaps, tokens_nil, List.dropWhile_nil]

theorem afterGaps_cons (c : Char) (cs : List Char) : afterGaps (c :: cs) =
    if (nextToken c cs).value.isGap then afterGaps (cs.drop ((nextToken c cs).length - 1))
    else tokens (c :: cs) := by
  rw [afterGaps, tokens_cons, List.dropWhile_cons, ← afterGaps]

theorem afterGaps_dropWhile (cs : List Char) : afterGaps (cs.dropWhile isSpace) = afterGaps cs := by
  cases cs with
  | nil => rfl
  | cons c cs =>
    rw [List.dropWhile_cons]
    split
    case isFalse => rfl
    case isTrue hc =>
      have ht : nextToken c cs = ⟨.whiteSpace, 1 + (cs.takeWhile isSpace).length⟩ := if_pos hc
      have hd : cs.drop (cs.takeWhile isSpace).length = cs.dropWhile isSpace := by
        conv_lhs => enter [2]; rw [← List.takeWhile_append_dropWhile (p := isSpace) (l := cs)]
        exact List.drop_left
      rw [afterGaps_cons, ht, Nat.add_sub_cancel_left, hd]
      rfl

theorem afterGaps_space (h : isSpace c = true) (cs : List Char) :
    afterGaps (c :: cs) = afterGaps cs := by
  rw [← afterGaps_dropWhile, List.dropWhile_cons_of_pos h, afterGaps_dropWhile]

theorem afterGaps_comment (cs : List Char) :
    afterGaps ('/' :: '*' :: cs) = afterGaps (cs.drop (comment cs).length) := by
  have hl : 2 + (comment cs).length - 1 = (comment cs).length + 1 := by omega
  rw [afterGaps_cons, nextToken_comment, hl, List.drop_succ_cons]
  rfl

theorem WritesGaps.afterGaps_append (h : WritesGaps before) (r : List Char) :
    afterGaps (before ++ r) = afterGaps r := by
  induction h with
  | nil => rfl
  | space hc _ ih => rw [List.cons_append, afterGaps_space hc, ih]
  | @comment content cs hc _ ih =>
    have hd : (content ++ '*' :: '/' :: (cs ++ r)).drop (content.length + 2) = cs ++ r := by
      rw [← List.drop_drop, List.drop_left]
      rfl
    rw [List.cons_append, List.cons_append, List.append_assoc, List.cons_append, List.cons_append,
      afterGaps_comment, comment_of_isContent hc, hd, ih]

theorem WritesGaps.append (h : WritesGaps before) (hr : WritesGaps r) :
    WritesGaps (before ++ r) := by
  induction h with
  | nil => exact hr
  | space hc _ ih => exact ih.space hc
  | comment hc _ ih =>
    rw [List.cons_append, List.cons_append, List.append_assoc]
    exact ih.comment hc

theorem WritesGaps.append_last (h : WritesGaps before) (hr : WritesLastGaps r) :
    WritesLastGaps (before ++ r) := by
  cases hr with
  | closed hr => exact .closed (h.append hr)
  | opened hr hc =>
    rw [← List.append_assoc]
    exact .opened (h.append hr) hc

/-- The first gap of a text is written there. -/
theorem exists_gap (h : (nextToken c cs).value.isGap = true) :
    (∃ before r, c :: cs = before ++ r ∧ before ≠ [] ∧ WritesGaps before) ∨
      WritesLastGaps (c :: cs) := by
  rcases isSpace_or_comment_of_isGap h with hc | ⟨rfl, hc⟩
  · exact .inl ⟨[c], cs, rfl, List.cons_ne_nil _ _, .space hc .nil⟩
  · cases cs with
    | nil => cases hc
    | cons d cs =>
      obtain rfl : d = '*' := beq_iff_eq.mp hc
      rcases exists_content cs with ⟨content, r, hcontent, rfl⟩ | hcontent
      · exact .inl ⟨'/' :: '*' :: (content ++ ['*', '/']), r, by simp, List.cons_ne_nil _ _,
          .comment hcontent .nil⟩
      · exact .inr (.opened .nil hcontent)

/-- Every text is made of gaps and of what comes first apart from them, if there is anything. -/
theorem exists_gaps_append (cs : List Char) : WritesLastGaps cs ∨
    ∃ before c r, cs = before ++ c :: r ∧ WritesGaps before ∧
      (nextToken c r).value.isGap = false := by
  induction hn : cs.length using Nat.strongRecOn generalizing cs with
  | _ n ih =>
    cases cs with
    | nil => exact .inl (.closed .nil)
    | cons c cs =>
      cases hg : (nextToken c cs).value.isGap with
      | false => exact .inr ⟨[], c, cs, rfl, .nil, hg⟩
      | true =>
        rcases exists_gap hg with ⟨gap, r, hr, hne, hw⟩ | hl
        · have hlt : r.length < n := by
            rw [← hn, hr, List.length_append]
            have := List.length_pos_of_ne_nil hne
            omega
          rw [hr]
          rcases ih _ hlt r rfl with hl | ⟨before, d, s, rfl, hb, hd⟩
          · exact .inl (hw.append_last hl)
          · exact .inr ⟨gap ++ before, d, s, (List.append_assoc _ _ _).symm, hw.append hb, hd⟩
        · exact .inl hl

theorem afterGaps_of_not_isGap (h : (nextToken c cs).value.isGap = false) :
    afterGaps (c :: cs) = tokens (c :: cs) := by
  rw [afterGaps_cons, h, if_neg Bool.false_ne_true]

theorem afterGaps_eq_nil_iff : afterGaps cs = [] ↔ WritesLastGaps cs := by
  constructor
  · intro h
    rcases exists_gaps_append cs with hl | ⟨before, c, r, rfl, hb, hc⟩
    · exact hl
    · rw [hb.afterGaps_append, afterGaps_of_not_isGap hc, tokens_cons] at h
      cases h
  · rintro (h | ⟨h, hc⟩)
    · rw [← List.append_nil cs, h.afterGaps_append, afterGaps_nil]
    · rw [h.afterGaps_append, afterGaps_comment, comment_of_open hc, List.drop_length,
        afterGaps_nil]

/-- What comes first in a text apart from gaps stands behind gaps that are written before it. -/
theorem exists_of_afterGaps (h : afterGaps cs = l :: ls) :
    ∃ before r, cs = before ++ r ∧ WritesGaps before ∧ tokens r = l :: ls := by
  rcases exists_gaps_append cs with hl | ⟨before, c, r, rfl, hb, hc⟩
  · rw [afterGaps_eq_nil_iff.mpr hl] at h
    cases h
  · rw [hb.afterGaps_append, afterGaps_of_not_isGap hc] at h
    exact ⟨before, c :: r, rfl, hb, h⟩

end ModularScale.Css
