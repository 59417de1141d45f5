import Mathlib.Data.List.TakeDrop
import ModularScale.Proofs.Css.Borders
import ModularScale.Proofs.Css.Written

/-! # Tokens that end a text

A token that ends by its own mark keeps apart what follows it: a semicolon, a closing bracket of a
block or a closed comment.
-/

namespace ModularScale.Css

open Components

variable {c z : Char} {cs x : List Char} {l : Lexeme} {ls : List Lexeme}

/-- The barrier with which a token starts that ends by its own mark. -/
def Token.barrier? : Token → Option Char
  | semicolon => some ';'
  | closing .curly => some '\x7d'
  | comment _ => some '/'
  | _ => none

theorem isBarrier_of_barrier? {token : Token} (h : token.barrier? = some z) :
    isBarrier z = true := by
  unfold Token.barrier? at h
  split at h <;> cases h <;> rfl

/-- The character with which a barrier or a curly bracket starts. -/
def Token.sign? : Token → Option Char
  | opening .curly => some '\x7b'
  | token => token.barrier?

theorem eq_of_sign?_signToken (h : (signToken c cs).value.sign? = some z) : c = z := by
  revert h
  fun_cases signToken c cs with
  | case1 | case2 | case3 | case5 => rintro ⟨⟩
  | case4 _ _ _ hc =>
    intro h
    rw [← Option.some.inj h]
    exact of_decide_eq_true (Bool.and_eq_true_iff.mp hc).1
  | case6 =>
    dsimp only
    split <;> rintro ⟨⟩ <;> rfl

theorem eq_of_sign? (h : (nextToken c cs).value.sign? = some z) : c = z := by
  revert h
  fun_cases nextToken c cs with
  | case1 | case4 => rintro ⟨⟩
  | case2 =>
    dsimp only
    split <;> rintro ⟨⟩
  | case3 =>
    refine value_numericToken (P := fun t => t.sign? = some z → c = z) ?_ ?_ ?_ _
    all_goals
      intros
      contradiction
  | case5 =>
    refine value_nameToken (P := fun t => t.sign? = some z → c = z) ?_ ?_ ?_ ?_ _
    all_goals
      intros
      contradiction
  | case6 => exact eq_of_sign?_signToken

theorem sign?_of_barrier? {token : Token} (h : token.barrier? = some z) : token.sign? = some z := by
  unfold Token.sign?
  split
  · cases h
  · exact h

theorem eq_of_barrier? (h : (nextToken c cs).value.barrier? = some z) : c = z :=
  eq_of_sign? (sign?_of_barrier? h)

theorem startsWith_of_isGap_signToken (h : (signToken c cs).value.isGap = true) :
    c = '/' ∧ startsWith (· == '*') cs = true := by
  revert h
  fun_cases signToken c cs with
  | case1 | case2 | case3 | case5 => rintro ⟨⟩
  | case4 _ _ _ hc => exact fun _ => by simpa only [Bool.and_eq_true, decide_eq_true_eq] using hc
  | case6 =>
    dsimp only
    split <;> rintro ⟨⟩

/-- White space and the opening mark of a comment alone start a gap. -/
theorem isSpace_or_comment_of_isGap (h : (nextToken c cs).value.isGap = true) :
    isSpace c = true ∨ c = '/' ∧ startsWith (· == '*') cs = true := by
  revert h
  fun_cases nextToken c cs with
  | case1 hc => exact fun _ => .inl hc
  | case2 =>
    dsimp only
    split <;> rintro ⟨⟩
  | case3 =>
    refine value_numericToken (P := fun t => t.isGap = true → _) ?_ ?_ ?_ _
    all_goals
      intros
      contradiction
  | case4 => rintro ⟨⟩
  | case5 =>
    refine value_nameToken (P := fun t => t.isGap = true → _) ?_ ?_ ?_ ?_ _
    all_goals
      intros
      contradiction
  | case6 => exact fun h => .inr (startsWith_of_isGap_signToken h)

/-- The tokens at the end of a text are those of their own text. -/
theorem tokens_spelled {ms : List Lexeme} (h : tokens x = ls ++ ms) : tokens (spelled ms) = ms := by
  induction ls generalizing x with
  | nil =>
    have hx : spelled ms = x := by
      rw [List.nil_append] at h
      rw [← h]
      exact flatMap_text_tokens x
    rw [hx, h, List.nil_append]
  | cons l ls ih =>
    cases x with
    | nil =>
      rw [tokens_nil] at h
      cases h
    | cons c cs =>
      rw [tokens_cons, List.cons_append] at h
      exact ih (List.cons.inj h).2

/-- A token that makes up its whole text by itself. -/
theorem eq_of_tokens (h : tokens x = [l]) :
    ∃ c cs, x = c :: cs ∧ l = ⟨(nextToken c cs).value, x, 0⟩ := by
  cases x with
  | nil =>
    rw [tokens_nil] at h
    cases h
  | cons c cs =>
    have hx := flatMap_text_tokens (c :: cs)
    rw [h, List.flatMap_singleton] at hx
    rw [tokens_cons] at h
    refine ⟨c, cs, rfl, ?_⟩
    rw [← hx, ← (List.cons.inj h).1]

theorem nextToken_comment (r : List Char) :
    nextToken '/' ('*' :: r) = ⟨.comment (comment r).value, 2 + (comment r).length⟩ := rfl

theorem tokens_comment (r : List Char) : tokens ('/' :: '*' :: r) =
    ⟨.comment (comment r).value, '/' :: '*' :: r.take (comment r).length, 0⟩ ::
      tokens (r.drop (comment r).length) := by
  have hn : 2 + (comment r).length - 1 = (comment r).length + 1 := by omega
  rw [tokens_cons, nextToken_comment, hn, List.take_succ_cons, List.drop_succ_cons]

theorem tokens_comment_append {content a : List Char} (ha : a = content ++ ['*', '/'])
    (h : tokens ('/' :: '*' :: a) = [⟨.comment content, '/' :: '*' :: a, 0⟩]) (y : List Char) :
    tokens ('/' :: '*' :: (a ++ y)) = ⟨.comment content, '/' :: '*' :: a, 0⟩ :: tokens y := by
  rw [tokens_comment] at h
  obtain ⟨hl, -⟩ := List.cons.inj h
  simp only [Lexeme.mk.injEq, Token.comment.injEq, List.cons.injEq, true_and, and_true] at hl
  obtain ⟨hv, ht⟩ := hl
  have hlen : (comment a).length = a.length :=
    Nat.le_antisymm (length_comment_le a) ((List.take_eq_self_iff a).mp ht)
  have hcongr : comment (a ++ y) = comment (a ++ []) := by
    apply comment_congr
    rw [List.append_nil, ht, hv, ha]
  rw [List.append_nil] at hcongr
  rw [tokens_comment, hcongr, hlen, hv, List.take_left, List.drop_left]

/-- What follows a token does not change it if it ends by its own mark. -/
theorem tokens_text_append (h : tokens l.text = [l]) (hz : l.token.barrier? = some z)
    (hc : l.token.isClosed l.text = true) (y : List Char) :
    tokens (l.text ++ y) = l :: tokens y := by
  have hmark : ∀ {c token}, (∀ r, nextToken c r = ⟨token, 1⟩) → (∃ cs, l.text = c :: cs) →
      tokens (l.text ++ y) = l :: tokens y := by
    rintro c token hn ⟨cs, hx⟩
    rw [hx, tokens_mark (hn cs), List.cons.injEq] at h
    have hcs : cs = [] := by
      have ht := flatMap_text_tokens cs
      rwa [h.2, List.flatMap_nil, eq_comm] at ht
    rw [hx, hcs, List.singleton_append, tokens_mark (hn y), h.1]
  obtain ⟨c, cs, hx, hl⟩ := eq_of_tokens h
  have hcz : c = z := by
    rw [hl] at hz
    exact eq_of_barrier? hz
  subst hcz
  unfold Token.barrier? at hz
  split at hz
  case h_1 ht =>
    cases hz
    exact hmark (fun _ => rfl) ⟨cs, hx⟩
  case h_2 ht =>
    cases hz
    exact hmark (fun _ => rfl) ⟨cs, hx⟩
  case h_3 content ht =>
    cases hz
    rw [ht, Token.isClosed, beq_iff_eq] at hc
    have hl' : l = ⟨.comment content, l.text, 0⟩ := by rw [hl, ← ht, hl]
    rw [hl', hc] at h
    rw [hl', hc]
    exact tokens_comment_append rfl h y
  case h_4 => cases hz

theorem tokens_append (hx : tokens x = ls ++ [l]) (hz : l.token.barrier? = some z)
    (hc : l.token.isClosed l.text = true) (y : List Char) :
    tokens (x ++ y) = tokens x ++ tokens y := by
  have hl : tokens l.text = [l] := by
    have hs := tokens_spelled hx
    rwa [spelled_cons, spelled_nil, List.append_nil] at hs
  have htext : x = spelled ls ++ l.text := by
    have hs := flatMap_text_tokens x
    rw [hx, List.flatMap_append, List.flatMap_singleton] at hs
    exact hs.symm
  obtain ⟨c, cs, ht, hn⟩ := eq_of_tokens hl
  have hcz : c = z := by
    rw [hn] at hz
    exact eq_of_barrier? hz
  subst hcz
  have hlex : tokens (spelled ls ++ c :: cs) = ls ++ tokens (c :: cs) := by
    rw [← ht, ← htext, hl, hx]
  have hb := tokens_barrier (isBarrier_of_barrier? hz) hlex rfl (cs ++ y)
  rw [hx, htext, List.append_assoc, ht, List.cons_append, hb, ← List.cons_append, ← ht,
    tokens_text_append hl hz hc, List.append_assoc, List.singleton_append]

end ModularScale.Css
