import Mathlib
import ModularScale.Proofs.Css.Bare
import ModularScale.Proofs.Css.Content

/-! # Lines of joined texts

A return and a line feed behind it end one line, and no token ends between the two. So the tokens of
a text end as many lines as the text itself, and what follows the text starts that much further
down.
-/

namespace ModularScale.Css

variable {c quote : Char} {cs ds : List Char} {m n : Nat} {p : Char → Bool}

/-! ## Cuts between a return and a line feed -/

/-- A cut after some characters does not part a return from its line feed. -/
def KeepsBreaks (cs : List Char) (n : Nat) : Prop :=
  ∀ a b, cs = a ++ '\r' :: '\n' :: b → n ≠ a.length + 1

namespace KeepsBreaks

theorem zero (cs : List Char) : KeepsBreaks cs 0 :=
  fun _ _ _ => Nat.zero_ne_add_one _

theorem add (h : KeepsBreaks cs m) (h' : KeepsBreaks (cs.drop m) n) : KeepsBreaks cs (m + n) := by
  rintro a b rfl he
  rcases Nat.lt_or_ge a.length m with hlt | hge
  · exact h a b rfl (by omega)
  · refine h' (a.drop m) b (List.drop_append_of_le_length hge) ?_
    rw [List.length_drop]
    omega

theorem one (h : c ≠ '\r') : KeepsBreaks (c :: cs) 1 := by
  intro a b he hn
  have ha : a = [] := List.length_eq_zero_iff.mp (by omega)
  subst ha
  exact h (List.cons.inj he).1

theorem of_startsWith (h : startsWith p cs = true) (hp : p '\r' = false) : KeepsBreaks cs 1 := by
  cases cs with
  | nil => cases h
  | cons c cs =>
    refine one ?_
    rintro rfl
    cases hp.symm.trans h

theorem cons (h : c ≠ '\r' ∨ 0 < n ∨ cs = []) (h' : KeepsBreaks cs n) :
    KeepsBreaks (c :: cs) (1 + n) := by
  intro a b he hn
  cases a with
  | nil =>
    obtain ⟨rfl, rfl⟩ := List.cons.inj he
    simp at h hn
    omega
  | cons d a =>
    refine h' a b (List.cons.inj he).2 ?_
    rw [List.length_cons] at hn
    omega

theorem tail (h : KeepsBreaks (c :: cs) (n + 1)) : KeepsBreaks cs n := by
  rintro a b rfl hn
  refine h (c :: a) b rfl ?_
  rw [List.length_cons, hn]

theorem of_notMem (h : '\r' ∉ cs.take n) : KeepsBreaks cs n := by
  rintro a b rfl rfl
  apply h
  rw [List.take_append]
  simp

/-- A run of characters that either holds both or none of the two is not parted. -/
theorem takeWhile (h : p '\r' = p '\n') (cs : List Char) :
    KeepsBreaks cs (cs.takeWhile p).length := by
  intro a b he
  induction a generalizing cs with
  | nil =>
    subst he
    rw [List.nil_append, List.takeWhile_cons, List.takeWhile_cons, h]
    split <;> simp
  | cons d a ih =>
    subst he
    rw [List.cons_append, List.takeWhile_cons]
    split
    · simpa using ih _ rfl
    · simp

end KeepsBreaks

theorem newlines_cons (h : c = '\r' → startsWith (· == '\n') cs = false) :
    newlines (c :: cs) = newlines cs + if isNewline c then 1 else 0 := by
  rw [newlines]
  · split <;> rfl
  · rintro ds rfl rfl
    cases h rfl

theorem newlines_take_drop (h : KeepsBreaks cs n) :
    newlines (cs.take n) + newlines (cs.drop n) = newlines cs := by
  induction hl : cs.length using Nat.strongRecOn generalizing cs n with
  | _ l ih =>
    cases n with
    | zero => exact Nat.zero_add _
    | succ n =>
      cases cs with
      | nil => rfl
      | cons c cs =>
        rcases Decidable.em (c = '\r' ∧ startsWith (· == '\n') cs = true) with ⟨rfl, hs⟩ | hc
        · cases cs with
          | nil => cases hs
          | cons d ds =>
            obtain rfl : d = '\n' := beq_iff_eq.mp hs
            cases n with
            | zero => exact absurd rfl (h [] ds rfl)
            | succ n =>
              have hds := ih ds.length (by rw [← hl]; simp only [List.length_cons]; omega) h.tail.tail rfl
              show newlines (ds.take n) + 1 + newlines (ds.drop n) = newlines ds + 1
              omega
        · have hn : c = '\r' → startsWith (· == '\n') cs = false := fun hr =>
            Bool.eq_false_iff.mpr fun hs => hc ⟨hr, hs⟩
          have ht : c = '\r' → startsWith (· == '\n') (cs.take n) = false := by
            intro hr
            cases cs with
            | nil => simp [startsWith]
            | cons d ds =>
              cases n with
              | zero => rfl
              | succ n => exact hn hr
          rw [List.take_succ_cons, List.drop_succ_cons, newlines_cons ht, newlines_cons hn,
            ← ih cs.length (by rw [← hl]; exact Nat.lt_succ_self _) h.tail rfl]
          omega

/-! ## The ends of tokens -/

theorem keepsBreaks_spaceLength (cs : List Char) : KeepsBreaks cs (spaceLength cs) := by
  unfold spaceLength
  split
  case h_1 ds =>
    intro a b he hn
    rcases a with _ | ⟨d, a⟩
    · simp at hn
    · obtain ⟨-, he⟩ := List.cons.inj he
      rcases a with _ | ⟨e, a⟩
      · cases (List.cons.inj he).1
      · simp at hn
  case h_2 c ds hne =>
    split
    · intro a b he hn
      have ha : a = [] := List.length_eq_zero_iff.mp (by omega)
      subst ha
      obtain ⟨rfl, rfl⟩ := List.cons.inj he
      exact hne b rfl rfl
    · exact .zero _
  case h_3 => exact .zero _

theorem keepsBreaks_escape (h : startsWith isNewline cs = false) :
    KeepsBreaks cs (escape cs).length := by
  cases cs with
  | nil => exact .zero _
  | cons c cs =>
    rw [escape]
    split
    case isTrue =>
      have hp : ((c :: cs).take 6).takeWhile isHexDigit <+: c :: cs :=
        (List.takeWhile_prefix _).trans (List.take_prefix _ _)
      refine .add (.of_notMem fun hm => ?_) (keepsBreaks_spaceLength _)
      rw [← List.prefix_iff_eq_take.mp hp] at hm
      exact absurd (List.mem_takeWhile_imp hm) (by decide)
    case isFalse =>
      refine .one ?_
      rintro rfl
      cases h

theorem keepsBreaks_name (cs : List Char) : KeepsBreaks cs (name cs).length := by
  fun_induction name cs with
  | case1 => exact .zero _
  | case2 c cs hc ih =>
    refine .cons (.inl ?_) ih
    rintro rfl
    cases hc
  | case3 c cs hc hb escaped ih =>
    simp only [Bool.and_eq_true, decide_eq_true_eq, Bool.not_eq_true'] at hb
    obtain ⟨rfl, hs⟩ := hb
    refine .add (.cons (.inl (by decide)) (keepsBreaks_escape hs)) ?_
    rwa [Nat.add_comm, List.drop_succ_cons]
  | case4 => exact .zero _

theorem keepsBreaks_comment (cs : List Char) : KeepsBreaks cs (comment cs).length := by
  have hpos : ∀ cs : List Char, cs ≠ [] → 0 < (comment cs).length := by
    intro cs
    fun_cases comment cs with
    | case1 => exact fun h => absurd rfl h
    | case2 => exact fun _ => Nat.two_pos
    | case3 => exact fun _ => Nat.add_pos_left Nat.one_pos _
  fun_induction comment cs with
  | case1 => exact .zero _
  | case2 cs => exact .add (.one (by decide)) (.one (by decide))
  | case3 c cs h ih => exact .cons (.inr (Decidable.or_iff_not_imp_right.mpr (hpos cs))) ih

theorem keepsBreaks_quoted (hq : quote ≠ '\r') (cs : List Char) :
    KeepsBreaks cs (quoted quote cs).length := by
  fun_induction quoted quote cs with
  | case1 => exact .zero _
  | case2 cs => exact .one hq
  | case3 => exact .zero _
  | case4 cs hc hn hs ih =>
    refine .add (.cons (.inl (by decide)) (keepsBreaks_spaceLength cs)) ?_
    rwa [Nat.add_comm, List.drop_succ_cons]
  | case5 => exact .one (by decide)
  | case6 cs hs he escaped _ _ ih =>
    refine .add (.cons (.inl (by decide)) (keepsBreaks_escape ((Bool.not_eq_true _).mp hs))) ?_
    rwa [Nat.add_comm, List.drop_succ_cons]
  | case7 c cs hc hn hb ih =>
    refine .cons (.inl ?_) ih
    rintro rfl
    exact hn rfl

theorem keepsBreaks_brokenLength (cs : List Char) : KeepsBreaks cs (brokenLength cs) := by
  have hpos : ∀ cs : List Char, cs ≠ [] → 0 < brokenLength cs := by
    intro cs
    fun_cases brokenLength cs with
    | case1 => exact fun h => absurd rfl h
    | _ => exact fun _ => by omega
  fun_induction brokenLength cs with
  | case1 => exact .zero _
  | case2 => exact .one (by decide)
  | case3 cs ih => exact .add (.add (.one (by decide)) (.one (by decide))) ih
  | case4 cs ih => exact .add (.add (.one (by decide)) (.one (by decide))) ih
  | case5 c cs _ _ _ ih => exact .cons (.inr (Decidable.or_iff_not_imp_right.mpr (hpos cs))) ih

theorem keepsBreaks_addressEnd (cs : List Char) : KeepsBreaks cs (addressEnd cs).length := by
  have hw : KeepsBreaks cs (cs.takeWhile isSpace).length := .takeWhile (by decide) cs
  have hne : ∀ {c ds}, cs.drop (cs.takeWhile isSpace).length = c :: ds → c ≠ '\r' := by
    rintro c ds hd rfl
    have hcs := List.take_append_drop (cs.takeWhile isSpace).length cs
    rw [take_length_takeWhile, hd] at hcs
    have hdrop := List.append_cancel_left (hcs.trans List.takeWhile_append_dropWhile.symm)
    have hspace := List.head?_dropWhile_not isSpace cs
    rw [← hdrop] at hspace
    cases hspace
  unfold addressEnd
  dsimp only
  split
  case h_1 => exact hw
  case h_2 c ds hd =>
    have hc : KeepsBreaks (cs.drop (cs.takeWhile isSpace).length) 1 := by
      rw [hd]
      exact .one (hne hd)
    split
    case isTrue => exact .add hw hc
    case isFalse =>
      refine .add (.add hw hc) ?_
      rw [← List.drop_drop, hd]
      exact keepsBreaks_brokenLength ds

theorem keepsBreaks_address (cs : List Char) : KeepsBreaks cs (address cs).length := by
  fun_induction address cs with
  | case1 => exact .zero _
  | case2 => exact .one (by decide)
  | case3 c cs hc hs => exact keepsBreaks_addressEnd _
  | case4 c cs hc hs hb =>
    refine .add (.one ?_) (keepsBreaks_brokenLength cs)
    rintro rfl
    exact hs rfl
  | case5 cs => exact .add (.one (by decide)) (keepsBreaks_brokenLength cs)
  | case6 cs hn escaped hc hs hb ih =>
    refine .add (.cons (.inl (by decide)) (keepsBreaks_escape ((Bool.not_eq_true _).mp hn))) ?_
    rwa [Nat.add_comm, List.drop_succ_cons]
  | case7 c cs hc hs hb hne ih =>
    refine .cons (.inl ?_) ih
    rintro rfl
    exact hs rfl

theorem keepsBreaks_numericToken (cs : List Char) : KeepsBreaks cs (numericToken cs).length := by
  have hn : KeepsBreaks cs (numeral cs).length :=
    .of_notMem fun hm => absurd (isWordChar_of_mem_numeral hm) (by decide)
  fun_cases numericToken cs with
  | case1 _ _ hp => exact .add hn (.of_startsWith hp rfl)
  | case2 => exact .add hn (keepsBreaks_name _)
  | case3 => exact hn

theorem keepsBreaks_nameToken (cs : List Char) : KeepsBreaks cs (nameToken cs).length := by
  have hn := keepsBreaks_name cs
  rw [nameToken_eq]
  split
  case isTrue hp =>
    obtain ⟨ds, hd⟩ : ∃ ds, cs.drop (name cs).length = '(' :: ds := by
      cases hd : cs.drop (name cs).length with
      | nil => rw [hd] at hp; cases hp
      | cons c ds =>
        rw [hd] at hp
        exact ⟨ds, by rw [show c = '(' from beq_iff_eq.mp hp]⟩
    unfold bracketToken
    dsimp only
    rw [hd, List.tail_cons]
    split
    case isTrue =>
      refine .add (.add hn ?_) ?_
      · rw [hd]
        exact .cons (.inl (by decide)) (.takeWhile (by decide) ds)
      · rw [← List.drop_drop, hd]
        exact keepsBreaks_address _
    case isFalse =>
      refine .add hn ?_
      rw [hd]
      exact .one (by decide)
  case isFalse => exact hn

theorem keepsBreaks_signToken (hc : c ≠ '\r') (cs : List Char) :
    KeepsBreaks (c :: cs) (signToken c cs).length := by
  have hone : KeepsBreaks (c :: cs) 1 := .one hc
  fun_cases signToken c cs with
  | case1 h => exact .cons (.inl hc) (.of_startsWith (Bool.and_eq_true_iff.mp h).2 rfl)
  | case2 | case3 => exact .cons (.inl hc) (keepsBreaks_name cs)
  | case4 _ _ _ h =>
    have hs := KeepsBreaks.cons (.inl hc) (.of_startsWith (Bool.and_eq_true_iff.mp h).2 rfl)
    refine .add hs ?_
    rw [List.drop_succ_cons, List.drop_one]
    exact keepsBreaks_comment _
  | case5 _ _ _ _ h =>
    have hm := of_decide_eq_true (Bool.and_eq_true_iff.mp h).2
    exact .cons (.inl hc) (.of_notMem (by rw [hm]; decide))
  | case6 => exact hone

/-- No token ends between a return and its line feed. -/
theorem keepsBreaks_nextToken (c : Char) (cs : List Char) :
    KeepsBreaks (c :: cs) (nextToken c cs).length := by
  have hc (hs : ¬isSpace c = true) : c ≠ '\r' := by
    rintro rfl
    exact hs rfl
  fun_cases nextToken c cs with
  | case1 hs =>
    have hw := KeepsBreaks.takeWhile (p := isSpace) (by decide) (c :: cs)
    rwa [List.takeWhile_cons_of_pos hs, List.length_cons, Nat.add_comm] at hw
  | case2 hs => exact .cons (.inl (hc hs)) (keepsBreaks_quoted (hc hs) cs)
  | case3 => exact keepsBreaks_numericToken _
  | case4 hs _ _ h =>
    have hm := of_decide_eq_true (Bool.and_eq_true_iff.mp h).2
    exact .cons (.inl (hc hs)) (.of_notMem (by rw [hm]; decide))
  | case5 => exact keepsBreaks_nameToken _
  | case6 hs => exact keepsBreaks_signToken (hc hs) cs

/-- Every token takes its first character, so the cut behind it is behind that at least. -/
theorem keepsBreaks_token (c : Char) (cs : List Char) :
    KeepsBreaks (c :: cs) ((nextToken c cs).length - 1 + 1) := by
  rcases Nat.eq_zero_or_pos (nextToken c cs).length with h0 | hpos
  · rw [h0]
    refine .one ?_
    rintro rfl
    simp [nextToken, isSpace, isNewline] at h0
  · rw [Nat.sub_add_cancel hpos]
    exact keepsBreaks_nextToken c cs

/-! ## The lines of tokens -/

/-- Tokens with the lines on which they start, if the first one starts on a given line. -/
def onLines (line : Nat) : List Lexeme → List Lexeme
  | [] => []
  | l :: ls => { l with line := line } :: onLines (line + newlines l.text) ls

theorem lexemes_eq_onLines (line : Nat) (cs : List Char) :
    lexemes line cs = onLines line (tokens cs) := by
  fun_induction lexemes line cs with
  | case1 => simp [onLines]
  | case2 line c cs next text ih =>
    rw [tokens_cons, onLines, ih]

theorem onLines_append (line : Nat) (ls ms : List Lexeme) :
    onLines line (ls ++ ms) =
      onLines line ls ++ onLines (line + (ls.map fun l => newlines l.text).sum) ms := by
  induction ls generalizing line with
  | nil => rfl
  | cons l ls ih =>
    simp only [List.cons_append, onLines, ih, List.map_cons, List.sum_cons, Nat.add_assoc]

theorem onLines_add (line n : Nat) (ls : List Lexeme) :
    onLines (line + n) ls = (onLines line ls).map (Lexeme.relined (· + n)) := by
  induction ls generalizing line with
  | nil => rfl
  | cons l ls ih =>
    rw [onLines, onLines, List.map_cons, ← ih, Nat.add_right_comm]
    rfl

/-- The tokens of a text end as many lines as the text. -/
theorem sum_newlines_tokens (cs : List Char) :
    ((tokens cs).map fun l => newlines l.text).sum = newlines cs := by
  induction hn : cs.length using Nat.strongRecOn generalizing cs with
  | _ n ih =>
    cases cs with
    | nil => simp [newlines]
    | cons c cs =>
      have hlt : (cs.drop ((nextToken c cs).length - 1)).length < n := by
        rw [← hn, List.length_drop, List.length_cons]
        omega
      rw [tokens_cons, List.map_cons, List.sum_cons, ih _ hlt _ rfl]
      exact newlines_take_drop (keepsBreaks_token c cs)

/-- What follows a text that its tokens end with is read as on its own, further down. -/
theorem lexemes_append_of_tokens (h : tokens (cs ++ ds) = tokens cs ++ tokens ds) (line : Nat) :
    lexemes line (cs ++ ds) =
      lexemes line cs ++ (lexemes line ds).map (Lexeme.relined (· + newlines cs)) := by
  rw [lexemes_eq_onLines, h, onLines_append, sum_newlines_tokens, onLines_add,
    ← lexemes_eq_onLines, ← lexemes_eq_onLines]

end ModularScale.Css
