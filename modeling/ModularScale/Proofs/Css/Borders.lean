import ModularScale.Proofs.Css.Bare
import ModularScale.Proofs.Css.Barrier

/-! # Borders

A token that ends before a barrier ends before each other text that starts with an edge, too, and is
the same there. But the code of an escaped character takes one white space behind it.
-/

namespace ModularScale.Css

variable {α β : Type} {p : Char → Bool} {c z : Char} {a q s cs : List Char}

/-! ### Texts and their borders -/

/-- A text at which no name and no number goes on, also behind its first white space. A `!` is no
part of `<!--`. -/
structure IsBorder (q : List Char) : Prop where
  edge : startsWith (!isEdge ·) q = false
  edge_drop : startsWith (!isEdge ·) (q.drop (spaceLength q)) = false
  take_ne : q.take 3 ≠ ['!', '-', '-']

/-- A text that does not end with white space. -/
def Firm (a : List Char) : Prop :=
  ∀ c, a.getLast? = some c → isSpace c = false

/-- Two texts of which white space at the end of the first does not go on in the second. -/
def Apart (a q : List Char) : Prop :=
  Firm a ∨ startsWith isSpace q = false

theorem startsWith_eq_false_of_edge (h : startsWith (!isEdge ·) q = false)
    (hp : ∀ c, isEdge c = true → p c = false) : startsWith p q = false := by
  cases q with
  | nil => rfl
  | cons c q => exact hp c (by simpa [startsWith] using h)

theorem name_eq_of_edge (h : startsWith (!isEdge ·) q = false) : name q = ⟨[], 0⟩ := by
  cases q with
  | nil => exact name_nil
  | cons c q =>
    have hc : isEdge c = true := by simpa [startsWith] using h
    exact name_stop (eq_false_of_isEdge hc (by decide)) (ne_of_isEdge hc rfl) q

theorem isBorder_barrier (hz : isBarrier z = true) (s : List Char) : IsBorder (z :: s) := by
  have hedge : startsWith (!isEdge ·) (z :: s) = false := by
    simp [startsWith, isEdge_of_isBarrier hz]
  have hl : spaceLength (z :: s) = 0 := spaceLength_barrier hz [] s
  refine ⟨hedge, by rwa [hl], fun h => ?_⟩
  exact ne_of_isBarrier hz rfl (List.cons.inj h).1

theorem IsBorder.cases (h : IsBorder q) : q = [] ∨ ∃ z r, q = z :: r ∧ isEdge z = true := by
  cases q with
  | nil => exact .inl rfl
  | cons c q => exact .inr ⟨c, q, rfl, by simpa [startsWith] using h.edge⟩

theorem Firm.tail (h : Firm (c :: a)) : Firm a := by
  cases a with
  | nil => nofun
  | cons d a =>
    intro e he
    exact h e (by rw [List.getLast?_cons_cons, he])

theorem Firm.drop (h : Firm a) (n : Nat) : Firm (a.drop n) := by
  induction n generalizing a with
  | zero => exact h
  | succ n ih =>
    cases a with
    | nil => exact h
    | cons c a => exact ih h.tail

/-- White space that comes first in a firm text ends in it. -/
theorem Firm.exists_not (h : Firm (c :: a)) : ∃ d ∈ c :: a, isSpace d = false := by
  have hne : c :: a ≠ [] := List.cons_ne_nil c a
  exact ⟨_, List.getLast_mem hne, h _ (List.getLast?_eq_getLast_of_ne_nil hne)⟩

theorem apart_barrier (hz : isBarrier z = true) (a s : List Char) : Apart a (z :: s) :=
  .inr (eq_false_of_isBarrier (p := isSpace) hz (by decide))

namespace Apart

theorem drop (h : Apart a q) (n : Nat) : Apart (a.drop n) q :=
  h.imp (·.drop n) id

theorem tail (h : Apart (c :: a) q) : Apart a q :=
  h.drop 1

theorem takeWhile_isSpace (h : Apart (c :: a) q) :
    (c :: a ++ q).takeWhile isSpace = (c :: a).takeWhile isSpace := by
  rcases h with h | h
  · exact takeWhile_append_of_exists h.exists_not q
  · exact takeWhile_append_stop h (c :: a)

theorem spaceLength (h : Apart (c :: a) q) : spaceLength (c :: a ++ q) = spaceLength (c :: a) := by
  cases a with
  | nil =>
    rcases h with h | h
    · have hc : isSpace c = false := h c rfl
      have hr : c ≠ '\r' := by
        rintro rfl
        cases hc
      simp [Css.spaceLength, hc, hr]
    · cases q with
      | nil => rfl
      | cons d q =>
        have hd : d ≠ '\n' := by
          rintro rfl
          cases h
        unfold Css.spaceLength
        simp [hd]
  | cons d a =>
    rcases Decidable.em (c = '\r' ∧ d = '\n') with ⟨rfl, rfl⟩ | hn
    · rfl
    · unfold Css.spaceLength
      grind

end Apart

/-! ### Readings that meet -/

/-- What was read before a border, compared to what was read before a barrier behind the same `n`
characters: it takes one more white space at most, and only behind all of these. -/
structure Meets (n : Nat) (q : List Char) (x y : Scan α) : Prop where
  value : y.value = x.value
  length : y.length = x.length ∨ x.length = n ∧ y.length = n + spaceLength q

namespace Meets

theorem of_eq {n : Nat} {x y : Scan α} (h : y = x) : Meets n q x y :=
  ⟨congrArg Scan.value h, .inl (congrArg Scan.length h)⟩

theorem eq {n : Nat} {x y : Scan α} (h : Meets n q x y) (hx : x.length = n → spaceLength q = 0) :
    y = x := by
  have hl : y.length = x.length := by
    rcases h.length with hl | ⟨hn, hl⟩
    · exact hl
    · rw [hl, hx hn, hn, Nat.add_zero]
  cases x
  cases y
  cases h.value
  cases hl
  rfl

theorem cons {n : Nat} {x y : Scan (List Char)} (h : Meets n q x y) (c : Char) (k : Nat) :
    Meets (k + n) q (x.cons c k) (y.cons c k) := by
  obtain ⟨hv, hl⟩ := h
  refine ⟨congrArg (c :: ·) hv, ?_⟩
  simp only [Scan.cons]
  omega

/-- What follows `k` characters, with what is made of its value. -/
theorem map {n k : Nat} {x y : Scan α} {b : List Char} (h : Meets n q x y) (f : α → β)
    (hn : k + n = b.length) :
    Meets b.length q ⟨f x.value, k + x.length⟩ ⟨f y.value, k + y.length⟩ := by
  obtain ⟨hv, hl⟩ := h
  refine ⟨congrArg f hv, ?_⟩
  dsimp only
  omega

/-- The texts that are left behind what was read. -/
theorem drop {x y : Scan α} (h : Meets a.length q x y) (hx : x.length ≤ a.length) :
    (a ++ q).drop y.length = a.drop x.length ++ q ∨
      x.length = a.length ∧ (a ++ q).drop y.length = q.drop (spaceLength q) := by
  rcases h.length with h | ⟨h, h'⟩
  · exact .inl (by rw [h, List.drop_append_of_le_length hx])
  · refine .inr ⟨h, ?_⟩
    rw [h', ← List.drop_drop, List.drop_left]

end Meets

/-- Two choices by one condition are related if the two that are taken are, when the first of them
is short. -/
theorem ite_of_le {P : Prop} [Decidable P] {f : α → Nat} {R : α → α → Prop} {n : Nat}
    {x₁ x₂ y₁ y₂ : α} (h₁ : P → f x₁ ≤ n → R x₁ y₁) (h₂ : ¬P → f x₂ ≤ n → R x₂ y₂) :
    f (if P then x₁ else x₂) ≤ n → R (if P then x₁ else x₂) (if P then y₁ else y₂) := by
  split
  case isTrue hp => exact h₁ hp
  case isFalse hp => exact h₂ hp

/-! ### Runs and names -/

theorem startsWith_border (hq : IsBorder q) (hp : ∀ c, isEdge c = true → p c = false)
    (a : List Char) : startsWith p (a ++ q) = startsWith p a := by
  cases a with
  | nil => exact startsWith_eq_false_of_edge hq.edge hp
  | cons => rfl

theorem length_escape_barrier (hz : isBarrier z = true) (s : List Char) :
    (escape (z :: s)).length = 1 := by
  have hhex : isHexDigit z = false := eq_false_of_isBarrier hz (by decide)
  rw [escape, hhex, if_neg Bool.false_ne_true]

theorem escape_border (hz : isBarrier z = true) (hq : IsBorder q) (ha : Apart (c :: a) q)
    (s : List Char) :
    Meets (c :: a).length q (escape (c :: (a ++ z :: s))) (escape (c :: (a ++ q))) := by
  have hhex : startsWith isHexDigit q = false :=
    startsWith_eq_false_of_edge hq.edge fun c hc => eq_false_of_isEdge hc (by decide)
  have hd : ((c :: (a ++ q)).take 6).takeWhile isHexDigit =
      ((c :: a).take 6).takeWhile isHexDigit := by
    rw [← List.take_takeWhile, ← List.take_takeWhile, ← List.cons_append,
      takeWhile_append_stop hhex]
  have hl : (((c :: a).take 6).takeWhile isHexDigit).length ≤ (c :: a).length :=
    Nat.le_trans (List.takeWhile_prefix _).length_le (List.take_prefix _ _).length_le
  rw [escape_cons_barrier hz]
  simp only [escape, hd]
  rw [← List.cons_append, List.drop_append_of_le_length hl]
  split
  case isFalse => exact .of_eq rfl
  case isTrue =>
    have hb := ha.drop (((c :: a).take 6).takeWhile isHexDigit).length
    have hlen := @List.length_drop _ (((c :: a).take 6).takeWhile isHexDigit).length (c :: a)
    generalize (c :: a).drop _ = b at *
    refine ⟨rfl, ?_⟩
    cases b with
    | nil =>
      rw [List.length_nil] at hlen
      refine .inr ⟨?_, ?_⟩
      · show _ + 0 = _
        omega
      · show _ + spaceLength q = _
        omega
    | cons d b => exact .inl (by rw [hb.spaceLength])

/-- An escape that ends before the last character is the same before each border. -/
theorem escape_eq (hz : isBarrier z = true) (hq : IsBorder q) (ha : Apart (c :: a) q)
    (h : (escape (c :: a ++ z :: s)).length < (c :: a).length) :
    escape (c :: a ++ q) = escape (c :: a ++ z :: s) ∧
      ∃ b, Apart b q ∧ b.length + (escape (c :: a ++ z :: s)).length = (c :: a).length ∧
        ∀ r, (c :: a ++ r).drop (escape (c :: a ++ z :: s)).length = b ++ r := by
  refine ⟨(escape_border hz hq ha s).eq fun hl => absurd hl (Nat.ne_of_lt h), _, ha.drop _, ?_,
    fun r => List.drop_append_of_le_length (Nat.le_of_lt h)⟩
  rw [List.length_drop, Nat.sub_add_cancel (Nat.le_of_lt h)]

/-- What is read behind `k` characters, and takes the barrier if no others are left, is read before
it if they are read before it. -/
theorem lt_length_of_rest {f : List Char → Nat} {k : Nat} (hf : 0 < f (z :: s))
    (h : k + f ((a ++ z :: s).drop k) ≤ a.length) : k < a.length := by
  refine Nat.lt_of_le_of_ne (by omega) ?_
  rintro rfl
  rw [List.drop_left] at h
  omega

theorem name_escape (h : startsWith isNewline cs = false) : name ('\\' :: cs) =
    (name (cs.drop (escape cs).length)).cons (escape cs).value (1 + (escape cs).length) := by
  rw [name, if_neg (by decide), h]
  rfl

theorem name_newline (h : startsWith isNewline cs = true) : name ('\\' :: cs) = ⟨[], 0⟩ := by
  rw [name, if_neg (by decide), h]
  rfl

/-- A backslash before a barrier takes this. -/
theorem length_name_backslash (hz : isBarrier z = true) (s : List Char) :
    1 < (name ('\\' :: z :: s)).length := by
  have hn : startsWith isNewline (z :: s) = false :=
    eq_false_of_isBarrier (p := isNewline) hz (by decide)
  rw [name_escape hn, length_escape_barrier hz]
  simp only [Scan.cons]
  omega

theorem name_border (hz : isBarrier z = true) (hq : IsBorder q) (ha : Apart a q)
    (h : (name (a ++ z :: s)).length ≤ a.length) :
    Meets a.length q (name (a ++ z :: s)) (name (a ++ q)) := by
  have hstop : name (z :: s) = ⟨[], 0⟩ := name_eq_of_edge (isBorder_barrier hz s).edge
  induction hn : a.length using Nat.strongRecOn generalizing a with
  | _ n ih =>
    subst hn
    cases a with
    | nil =>
      rw [List.nil_append, List.nil_append, name_eq_of_edge hq.edge, hstop]
      exact .of_eq rfl
    | cons c a =>
      rw [List.cons_append] at h ⊢
      rw [List.cons_append]
      rcases Bool.eq_false_or_eq_true (isNameChar c) with hc | hc
      · rw [name_cons hc] at h ⊢
        rw [name_cons hc]
        simp only [Scan.cons, List.length_cons] at h
        have hm := (ih a.length (Nat.lt_succ_self _) ha.tail (by omega) rfl).cons (replaceNul c) 1
        rwa [Nat.add_comm] at hm
      rcases Decidable.em (c = '\\') with rfl | hb
      · cases a with
        | nil => exact absurd (length_name_backslash hz s) (Nat.not_lt.mpr h)
        | cons d a =>
          have hcs (cs : List Char) : startsWith isNewline (d :: a ++ cs) = isNewline d := rfl
          rcases Bool.eq_false_or_eq_true (isNewline d) with hd | hd
          · rw [name_newline ((hcs _).trans hd), name_newline ((hcs _).trans hd)]
            exact .of_eq rfl
          rw [name_escape ((hcs _).trans hd)] at h ⊢
          rw [name_escape ((hcs _).trans hd)]
          obtain ⟨hv, hl⟩ := escape_border hz hq ha.tail s
          rw [← List.cons_append, ← List.cons_append] at hv hl
          generalize escape (d :: a ++ z :: s) = x at *
          generalize escape (d :: a ++ q) = y at *
          simp only [Scan.cons, List.length_cons] at h hl
          have hle : x.length ≤ (d :: a).length := by
            rw [List.length_cons]
            omega
          rw [List.drop_append_of_le_length hle] at h ⊢
          rw [hv]
          have hlen := List.length_drop (i := x.length) (l := d :: a)
          rw [List.length_cons] at hlen
          rcases hl with hl | ⟨hx, hy⟩
          · rw [hl, List.drop_append_of_le_length hle]
            have hm := (ih _ (by simp only [List.length_cons]; omega) (ha.tail.drop x.length)
              (by omega) rfl).cons x.value (1 + x.length)
            have hn : 1 + x.length + ((d :: a).drop x.length).length = a.length + 1 + 1 := by omega
            rw [hn] at hm
            exact hm
          · -- The code takes all the rest and one more white space, and there the name ends.
            have hb : (d :: a).drop x.length = [] := List.drop_eq_nil_of_le (by simp [hx])
            have hr : (d :: a ++ q).drop y.length = q.drop (spaceLength q) := by
              rw [hy, ← List.drop_drop]
              exact congrArg (List.drop _) List.drop_left
            rw [hb, hr, List.nil_append, hstop, name_eq_of_edge hq.edge_drop]
            refine ⟨rfl, .inr ?_⟩
            simp only [Scan.cons, List.length_cons]
            omega
      · rw [name_stop hc hb, name_stop hc hb]
        exact .of_eq rfl

theorem startsName_border (hq : IsBorder q) (ha : a ≠ ['\\']) :
    startsName (a ++ q) = startsName a := by
  cases a with
  | nil =>
    rcases hq.cases with rfl | ⟨z, r, rfl, hz⟩
    · rfl
    · rw [List.nil_append, startsName_cons (ne_of_isEdge hz rfl) (ne_of_isEdge hz rfl)]
      exact eq_false_of_isEdge hz (by decide)
  | cons c a =>
    rcases Decidable.em (c = '-') with rfl | hd
    · exact startsWith_border (p := fun c => isNameStart c || c == '-' || c == '\\') hq
        (fun c hc => eq_false_of_isEdge (p := fun c => isNameStart c || c == '-' || c == '\\') hc
          (by decide)) a
    rcases Decidable.em (c = '\\') with rfl | hb
    · cases a with
      | nil => exact absurd rfl ha
      | cons => rfl
    · rw [List.cons_append, startsName_cons hd hb, startsName_cons hd hb]

theorem numeral_border (hq : IsBorder q) (a : List Char) : numeral (a ++ q) = numeral a := by
  rcases hq.cases with rfl | ⟨z, r, rfl, hz⟩
  · rw [List.append_nil]
  · exact numeral_edge hz a r

theorem startsNumber_border (hq : IsBorder q) (a : List Char) :
    startsNumber (a ++ q) = startsNumber a := by
  rw [Bool.eq_iff_iff, startsNumber_iff, startsNumber_iff, numeral_border hq]

/-! ### Enclosed texts -/

theorem length_quoted_pos (hz : isBarrier z = true) (quote : Char) (s : List Char) :
    0 < (quoted quote (z :: s)).length := by
  have hn : isNewline z = false := eq_false_of_isBarrier hz (by decide)
  have hb : z ≠ '\\' := ne_of_isBarrier hz rfl
  rw [quoted, hn, if_neg Bool.false_ne_true, if_neg hb]
  split
  · exact Nat.one_pos
  · simp only [Quoted.cons]
    omega

theorem quoted_newline {quote : Char} (hc : quote ≠ '\\') (h : startsWith isNewline cs = true) :
    quoted quote ('\\' :: cs) = (quoted quote (cs.drop (spaceLength cs))).skip
      (1 + spaceLength cs) := by
  rw [quoted, if_neg hc.symm, if_neg (by decide), if_pos rfl, if_pos h]

theorem quoted_escape {quote : Char} (hc : quote ≠ '\\')
    (h : startsWith isNewline (c :: cs) = false) :
    quoted quote ('\\' :: c :: cs) = (quoted quote ((c :: cs).drop (escape (c :: cs)).length)).cons
      (escape (c :: cs)).value (1 + (escape (c :: cs)).length) := by
  rw [quoted, if_neg hc.symm, if_neg (by decide), if_pos rfl, if_neg (by simp [h])]
  rfl

theorem quoted_border {quote : Char} (hz : isBarrier z = true) (hc : quote ≠ '\\')
    (hq : IsBorder q) (ha : Apart a q) (h : (quoted quote (a ++ z :: s)).length ≤ a.length) :
    quoted quote (a ++ z :: s) = quoted quote (a ++ q) := by
  induction hn : a.length using Nat.strongRecOn generalizing a with
  | _ n ih =>
    subst hn
    cases a with
    | nil => exact absurd (length_quoted_pos hz quote s) (Nat.not_lt.mpr h)
    | cons c a =>
      rw [List.cons_append] at h ⊢
      rw [List.cons_append]
      rcases Decidable.em (c = '\\') with rfl | hb
      · cases a with
        | nil =>
          have hl : startsWith isNewline (z :: s) = false :=
            eq_false_of_isBarrier (p := isNewline) hz (by decide)
          rw [List.nil_append, quoted_escape hc hl, length_escape_barrier hz] at h
          simp only [Quoted.cons, List.length_cons, List.length_nil] at h
          omega
        | cons d a =>
          have hcs (cs : List Char) : startsWith isNewline (d :: (a ++ cs)) = isNewline d := rfl
          have hs := (apart_barrier hz (d :: a) s).spaceLength
          rw [List.cons_append] at h ⊢
          rw [List.cons_append]
          rcases Bool.eq_false_or_eq_true (isNewline d) with hd | hd
          · rw [quoted_newline hc ((hcs _).trans hd)] at h ⊢
            rw [quoted_newline hc ((hcs _).trans hd)]
            have hle := length_spaceLength_le (d :: a)
            rw [← List.cons_append, hs, List.drop_append_of_le_length hle] at h ⊢
            rw [← List.cons_append, ha.tail.spaceLength, List.drop_append_of_le_length hle]
            have hlen := List.length_drop (i := spaceLength (d :: a)) (l := d :: a)
            simp only [Quoted.skip, List.length_cons] at h hlen
            rw [ih _ (by simp only [List.length_cons]; omega) (ha.tail.drop _) (by omega) rfl]
          · rw [quoted_escape hc ((hcs _).trans hd)] at h ⊢
            rw [quoted_escape hc ((hcs _).trans hd)]
            rw [← List.cons_append] at h ⊢
            simp only [Quoted.cons, List.length_cons] at h
            have hlt : (escape (d :: a ++ z :: s)).length < (d :: a).length := by
              refine lt_length_of_rest (f := fun cs => (quoted quote cs).length)
                (length_quoted_pos hz quote s) ?_
              rw [List.length_cons]
              omega
            obtain ⟨he, b, hb, hlen, hdrop⟩ := escape_eq hz hq ha.tail hlt
            rw [List.length_cons] at hlen
            rw [hdrop] at h
            rw [← List.cons_append, he, hdrop, hdrop,
              ih b.length (by simp only [List.length_cons]; omega) hb (by omega) rfl]
      · rw [quoted, if_neg hb] at h ⊢
        rw [quoted, if_neg hb]
        refine ite_of_le (fun _ _ => rfl) (fun _ => ite_of_le (fun _ _ => rfl) fun _ h => ?_) h
        simp only [Quoted.cons, List.length_cons] at h
        rw [ih a.length (Nat.lt_succ_self _) ha.tail (by omega) rfl]

/-- A comment takes a barrier that comes first in it, and one behind its first character. -/
theorem lt_length_comment (hz : isBarrier z = true) (ha : a.length ≤ 1) (s : List Char) :
    a.length < (comment (a ++ z :: s)).length := by
  have hstar : z ≠ '*' := ne_of_isBarrier hz rfl
  have hpos : 0 < (comment (z :: s)).length := by
    rw [comment_cons fun he => absurd he hstar]
    exact Nat.lt_of_lt_of_le Nat.one_pos (Nat.le_add_right _ _)
  match a with
  | [] => exact hpos
  | [c] =>
    rcases Decidable.em (c = '*' ∧ z = '/') with ⟨rfl, rfl⟩ | hc
    · exact Nat.lt_succ_self 1
    · have hcons : comment (c :: z :: s) = (comment (z :: s)).cons c 1 :=
        comment_cons fun he => beq_eq_false_iff_ne.mpr fun hd => hc ⟨he, hd⟩
      rw [List.cons_append, List.nil_append, hcons]
      simp only [Scan.cons, List.length_singleton]
      omega

theorem comment_border (hz : isBarrier z = true) (h : (comment (a ++ z :: s)).length ≤ a.length)
    (q : List Char) : comment (a ++ z :: s) = comment (a ++ q) := by
  induction a with
  | nil => exact absurd (lt_length_comment (a := []) hz (Nat.zero_le 1) s) (Nat.not_lt.mpr h)
  | cons c a ih =>
    cases a with
    | nil => exact absurd (lt_length_comment (a := [c]) hz (Nat.le_refl 1) s) (Nat.not_lt.mpr h)
    | cons d a =>
      rcases Decidable.em (c = '*' ∧ d = '/') with ⟨rfl, rfl⟩ | hc
      · rfl
      · have hcons (r : List Char) :
            comment (c :: d :: (a ++ r)) = (comment (d :: (a ++ r))).cons c 1 :=
          comment_cons fun he => beq_eq_false_iff_ne.mpr fun hd => hc ⟨he, hd⟩
        simp only [List.cons_append, hcons, Scan.cons, List.length_cons] at h ih ⊢
        rw [ih (by omega)]

theorem brokenLength_cons (c : Char) (cs : List Char) : brokenLength (c :: cs) =
    if c = ')' then 1
    else if c = '\\' && startsWith (fun d => d == ')' || d == '\\') cs then
      2 + brokenLength cs.tail
    else 1 + brokenLength cs := by
  rw [brokenLength.eq_def]
  split
  case h_1 h => cases h
  case h_2 h => cases h; rfl
  case h_3 h => cases h; rfl
  case h_4 h => cases h; rfl
  case h_5 d tail h₁ h₂ h₃ h =>
    cases h
    rw [if_neg h₁, if_neg]
    rw [Bool.and_eq_true, decide_eq_true_eq]
    rintro ⟨rfl, hs⟩
    cases cs with
    | nil => cases hs
    | cons d cs =>
      change (d == ')' || d == '\\') = true at hs
      rw [Bool.or_eq_true, beq_iff_eq, beq_iff_eq] at hs
      rcases hs with rfl | rfl
      · exact h₂ _ rfl rfl
      · exact h₃ _ rfl rfl

theorem brokenLength_pos (c : Char) (cs : List Char) : 0 < brokenLength (c :: cs) := by
  rw [brokenLength_cons]
  split
  · exact Nat.one_pos
  · split <;> omega

theorem brokenLength_border (h : brokenLength (a ++ z :: s) ≤ a.length) (q : List Char) :
    brokenLength (a ++ z :: s) = brokenLength (a ++ q) := by
  induction hn : a.length using Nat.strongRecOn generalizing a with
  | _ n ih =>
    subst hn
    cases a with
    | nil => exact absurd (brokenLength_pos z s) (Nat.not_lt.mpr h)
    | cons c a =>
      rw [List.cons_append, brokenLength_cons] at h ⊢
      rw [List.cons_append, brokenLength_cons]
      refine ite_of_le (f := id) (fun _ _ => rfl) (fun _ h => ?_) h
      rw [id] at h
      cases a with
      | nil =>
        have := brokenLength_pos z s
        rw [List.nil_append, List.length_singleton] at h
        split at h <;> omega
      | cons d a =>
        have hs (r : List Char) : startsWith (fun d => d == ')' || d == '\\') (d :: a ++ r) =
          (d == ')' || d == '\\') := rfl
        rw [hs] at h ⊢
        rw [hs]
        refine ite_of_le (f := id) (fun _ h => ?_) (fun _ h => ?_) h
        all_goals simp only [id, List.cons_append, List.tail_cons, List.length_cons] at h ⊢
        · rw [ih a.length (by simp only [List.length_cons]; omega) (by omega) rfl]
        · rw [← List.cons_append] at h ⊢
          rw [ih (d :: a).length (Nat.lt_succ_self _) (by rw [List.length_cons]; omega) rfl]
          rfl

theorem addressEnd_border (hz : isBarrier z = true) (ha : Apart (c :: a) q)
    (h : (addressEnd (c :: a ++ z :: s)).length ≤ (c :: a).length) :
    addressEnd (c :: a ++ z :: s) = addressEnd (c :: a ++ q) := by
  have hw : ((c :: a).takeWhile isSpace).length ≤ (c :: a).length :=
    (List.takeWhile_prefix _).length_le
  have hd := List.length_drop (i := ((c :: a).takeWhile isSpace).length) (l := c :: a)
  have hs := (apart_barrier hz (c :: a) s).takeWhile_isSpace
  unfold addressEnd at h ⊢
  dsimp only at h ⊢
  rw [hs, List.drop_append_of_le_length hw] at h ⊢
  rw [ha.takeWhile_isSpace, List.drop_append_of_le_length hw]
  generalize (c :: a).drop ((c :: a).takeWhile isSpace).length = b at *
  cases b with
  | nil =>
    rw [List.length_nil] at hd
    rw [List.nil_append] at h
    dsimp only at h
    split at h <;> simp only [Address.broken] at h <;> omega
  | cons d b =>
    simp only [List.cons_append] at h ⊢
    refine ite_of_le (fun _ _ => rfl) (fun _ h => ?_) h
    simp only [Address.broken, List.length_cons] at h hd
    rw [Address.broken, Address.broken, brokenLength_border (s := s) (by omega) q]

theorem address_border (hz : isBarrier z = true) (hq : IsBorder q) (ha : Apart a q)
    (h : (address (a ++ z :: s)).length ≤ a.length) :
    address (a ++ z :: s) = address (a ++ q) := by
  have hpos : 0 < (address (z :: s)).length :=
    length_address_pos (eq_false_of_isBarrier (p := isSpace) hz (by decide)) s
  induction hn : a.length using Nat.strongRecOn generalizing a with
  | _ n ih =>
    subst hn
    cases a with
    | nil => exact absurd hpos (Nat.not_lt.mpr h)
    | cons c a =>
      have hend := addressEnd_border (s := s) hz ha
      -- What breaks an address breaks it on both sides.
      have hbroken : (Address.broken 1 (a ++ z :: s)).length ≤ (c :: a).length →
          Address.broken 1 (a ++ z :: s) = Address.broken 1 (a ++ q) := by
        intro h
        simp only [Address.broken, List.length_cons] at h ⊢
        rw [brokenLength_border (s := s) (by omega) q]
      rw [List.cons_append, address] at h ⊢
      rw [List.cons_append, address]
      refine ite_of_le (fun _ _ => rfl) (fun _ => ite_of_le (fun _ => hend) fun _ =>
        ite_of_le (fun _ => hbroken) fun _ => ite_of_le (fun _ h => ?_) fun _ h => ?_) h
      · cases a with
        | nil =>
          have hl : startsWith isNewline (z :: s) = false :=
            eq_false_of_isBarrier (p := isNewline) hz (by decide)
          rw [List.nil_append, hl, if_neg Bool.false_ne_true] at h
          simp only [Address.cons, length_escape_barrier hz, List.length_cons, List.length_nil] at h
          omega
        | cons d a =>
          have hcs (r : List Char) : startsWith isNewline (d :: a ++ r) = isNewline d := rfl
          rw [hcs] at h ⊢
          rw [hcs]
          refine ite_of_le (fun _ => hbroken) (fun _ h => ?_) h
          simp only [Address.cons, List.length_cons] at h
          have hlt : (escape (d :: a ++ z :: s)).length < (d :: a).length := by
            refine lt_length_of_rest (f := fun cs => (address cs).length) hpos ?_
            rw [List.length_cons]
            omega
          obtain ⟨he, b, hb, hlen, hdrop⟩ := escape_eq hz hq ha.tail hlt
          rw [List.length_cons] at hlen
          rw [hdrop] at h
          dsimp only
          rw [he, hdrop, hdrop,
            ih b.length (by simp only [List.length_cons]; omega) hb (by omega) rfl]
      · simp only [Address.cons, List.length_cons] at h
        rw [ih a.length (Nat.lt_succ_self _) ha.tail (by omega) rfl]

/-! ### Tokens -/

theorem numericToken_border (hz : isBarrier z = true) (hq : IsBorder q) (ha : Apart a q)
    (h : (numericToken (a ++ z :: s)).length ≤ a.length) :
    Meets a.length q (numericToken (a ++ z :: s)) (numericToken (a ++ q)) := by
  have hs := isBorder_barrier hz s
  have hn := Nat.le_trans (length_numeral_le_numericToken (a ++ z :: s)) h
  have hlen := List.length_drop (i := (numeral a).length) (l := a)
  have hpercent (b : List Char) {r : List Char} (hr : IsBorder r) :=
    startsWith_border (p := (· == '%')) (a := b) hr
      fun c hc => eq_false_of_isEdge (p := (· == '%')) hc (by decide)
  unfold numericToken at h ⊢
  dsimp only at h ⊢
  rw [numeral_border hs] at h hn ⊢
  rw [numeral_border hq]
  rw [List.drop_append_of_le_length hn, hpercent _ hs] at h ⊢
  rw [List.drop_append_of_le_length hn, hpercent _ hq]
  have hb := ha.drop (numeral a).length
  generalize a.drop (numeral a).length = b at *
  refine ite_of_le (fun _ _ => .of_eq rfl) (fun _ h => ?_) h
  have hne : b ≠ ['\\'] := by
    rintro rfl
    have := length_name_backslash hz s
    rw [if_pos (show startsName (['\\'] ++ z :: s) = true from
      congrArg not (eq_false_of_isBarrier (p := isNewline) hz (by decide)))] at h
    simp only [List.length_cons, List.length_nil, List.cons_append, List.nil_append] at h hlen
    omega
  rw [startsName_border hs hne] at h ⊢
  rw [startsName_border hq hne]
  refine ite_of_le (fun _ h => ?_) (fun _ _ => .of_eq rfl) h
  dsimp only at h
  exact (name_border hz hq hb (s := s) (by omega)).map (Token.dimension _) (by omega)

theorem bracketToken_border {name : Scan (List Char)} (hz : isBarrier z = true) (hq : IsBorder q)
    (ha : Apart (c :: a) q)
    (h : (bracketToken name (c :: a ++ z :: s)).length ≤ name.length + (c :: a).length) :
    bracketToken name (c :: a ++ z :: s) = bracketToken name (c :: a ++ q) := by
  have hs := isBorder_barrier hz s
  have hquote (b : List Char) {r : List Char} (hr : IsBorder r) :=
    startsWith_border (p := fun c => c == '"' || c == '\'') (a := b) hr
      fun c hc => eq_false_of_isEdge (p := fun c => c == '"' || c == '\'') hc (by decide)
  unfold bracketToken at h ⊢
  dsimp only at h ⊢
  rw [List.cons_append, List.tail_cons, Nat.add_comm 1, List.drop_succ_cons] at h ⊢
  rw [List.cons_append, List.tail_cons, Nat.add_comm 1, List.drop_succ_cons]
  cases a with
  | nil =>
    -- Only an address reads on behind the bracket, and it would take the barrier.
    have hspace : isSpace z = false := eq_false_of_isBarrier hz (by decide)
    have hw : (z :: s).takeWhile isSpace = [] :=
      List.takeWhile_cons_of_neg (Bool.eq_false_iff.mp hspace)
    have hu : Text.asciiLower name.value ≠ ['u', 'r', 'l'] := by
      intro hu
      have := length_address_pos hspace s
      rw [List.nil_append, hw, List.length_nil, List.drop_zero, hu, ← List.nil_append (z :: s),
        hquote [] hs] at h
      simp only [List.nil_append, startsWith, decide_true, Bool.not_false, Bool.and_self, if_true,
        List.length_singleton] at h
      omega
    simp only [hu, decide_false, Bool.false_and, Bool.false_eq_true, if_false]
  | cons d a =>
    have hw : ((d :: a).takeWhile isSpace).length ≤ (d :: a).length :=
      (List.takeWhile_prefix _).length_le
    have hb := ha.tail.drop ((d :: a).takeWhile isSpace).length
    have hlen := List.length_drop (i := ((d :: a).takeWhile isSpace).length) (l := d :: a)
    rw [(apart_barrier hz (d :: a) s).takeWhile_isSpace, List.drop_append_of_le_length hw] at h ⊢
    rw [ha.tail.takeWhile_isSpace, List.drop_append_of_le_length hw]
    generalize (d :: a).drop ((d :: a).takeWhile isSpace).length = b at *
    rw [hquote b hs] at h ⊢
    rw [hquote b hq]
    refine ite_of_le (fun _ h => ?_) (fun _ _ => rfl) h
    simp only [List.length_cons] at h hlen hw
    rw [address_border hz hq hb (show (address (b ++ z :: s)).length ≤ b.length by omega)]

theorem nameToken_border (hz : isBarrier z = true) (hq : IsBorder q) (ha : Apart a q)
    (h : (nameToken (a ++ z :: s)).length ≤ a.length) :
    Meets a.length q (nameToken (a ++ z :: s)) (nameToken (a ++ q)) := by
  have hn := Nat.le_trans (length_name_le_nameToken (a ++ z :: s)) h
  have hround {r : List Char} (hr : startsWith (!isEdge ·) r = false) :
      startsWith (· == '(') r = false :=
    startsWith_eq_false_of_edge hr fun c hc =>
      eq_false_of_isEdge (p := (· == '(')) hc (by decide)
  have hm := name_border hz hq ha hn
  have hlen := List.length_drop (i := (name (a ++ z :: s)).length) (l := a)
  have hb := ha.drop (name (a ++ z :: s)).length
  rw [nameToken_eq] at h ⊢
  rw [nameToken_eq]
  rcases Decidable.em ((name (a ++ z :: s)).length = a.length) with hx | hx
  · have hr : startsWith (· == '(') ((a ++ q).drop (name (a ++ q)).length) = false := by
      rcases hm.drop hn with hd | ⟨-, hd⟩
      · rw [hd, hx, List.drop_length]
        exact hround hq.edge
      · rw [hd]
        exact hround hq.edge_drop
    rw [hr, hx, List.drop_left, hround (isBorder_barrier hz s).edge]
    obtain ⟨hv, hl⟩ := hm
    rw [hx] at hl
    exact ⟨congrArg Token.ident hv, hl⟩
  · rw [List.drop_append_of_le_length hn] at h
    rw [hm.eq fun hl => absurd hl hx, List.drop_append_of_le_length hn,
      List.drop_append_of_le_length hn]
    generalize a.drop (name (a ++ z :: s)).length = b at *
    cases b with
    | nil =>
      rw [List.length_nil] at hlen
      omega
    | cons c b =>
      have hs (r : List Char) : startsWith (· == '(') (c :: b ++ r) = (c == '(') := rfl
      rw [hs] at h ⊢
      rw [hs]
      refine ite_of_le (fun _ h => ?_) (fun _ _ => .of_eq rfl) h
      exact .of_eq (bracketToken_border hz hq hb (by omega)).symm

theorem take_border {mark : List Char} (hm : mark.all (!isEdge ·) = true) (hq : IsBorder q)
    (a : List Char) : (a ++ q).take mark.length = mark ↔ a.take mark.length = mark := by
  induction mark generalizing a with
  | nil => simp
  | cons m mark ih =>
    rw [List.all_cons, Bool.and_eq_true, Bool.not_eq_true'] at hm
    obtain ⟨hne, hm⟩ := hm
    cases a with
    | cons c a => simp [ih hm a]
    | nil =>
      rcases hq.cases with rfl | ⟨z, r, rfl, hz⟩
      · rfl
      · simp [ne_of_isEdge hz hne]

theorem take_markOpening (hq : IsBorder q) (a : List Char) :
    (a ++ q).take 3 = ['!', '-', '-'] ↔ a.take 3 = ['!', '-', '-'] := by
  cases a with
  | nil => simp [hq.take_ne]
  | cons c a =>
    rw [List.cons_append, List.take_succ_cons, List.take_succ_cons, List.cons.injEq,
      List.cons.injEq]
    exact and_congr_right' (@take_border q ['-', '-'] rfl hq a)

theorem signToken_border (hz : isBarrier z = true) (hq : IsBorder q) (ha : Apart a q)
    (h : (signToken c (a ++ z :: s)).length ≤ (c :: a).length) :
    Meets (c :: a).length q (signToken c (a ++ z :: s)) (signToken c (a ++ q)) := by
  have hs := isBorder_barrier hz s
  have hstart (p : Char → Bool) (hp : ∀ c, isEdge c = true → p c = false) :
      startsWith p (a ++ q) = startsWith p (a ++ z :: s) :=
    (startsWith_border hq hp a).trans (startsWith_border hs hp a).symm
  have hmark : decide ((a ++ q).take 3 = ['!', '-', '-']) =
      decide ((a ++ z :: s).take 3 = ['!', '-', '-']) :=
    decide_eq_decide.mpr ((take_markOpening hq a).trans (take_markOpening hs a).symm)
  have hname (hc : c = '#' ∨ c = '@') : startsName (a ++ q) = startsName (a ++ z :: s) := by
    have hne : a ≠ ['\\'] := by
      rintro rfl
      have hl := length_name_backslash hz s
      have hb : startsName ('\\' :: z :: s) = true :=
        congrArg not (eq_false_of_isBarrier (p := isNewline) hz (by decide))
      have h : 1 + (name ('\\' :: z :: s)).length ≤ 2 := by
        rcases hc with rfl | rfl
        all_goals simpa [signToken, hb] using h
      omega
    rw [startsName_border hq hne, startsName_border hs hne]
  have hhash : (decide (c = '#') &&
      (startsName (a ++ q) || startsWith (fun c => c.isDigit || c == '-') (a ++ q))) =
        (decide (c = '#') && (startsName (a ++ z :: s) ||
          startsWith (fun c => c.isDigit || c == '-') (a ++ z :: s))) :=
    and_congr_of fun hc => by
      rw [hname (.inl (of_decide_eq_true hc)), hstart (fun c => c.isDigit || c == '-') fun c hc =>
        eq_false_of_isEdge (p := fun c => c.isDigit || c == '-') hc (by decide)]
  have hat : (decide (c = '@') && startsName (a ++ q)) =
      (decide (c = '@') && startsName (a ++ z :: s)) :=
    and_congr_of fun hc => hname (.inr (of_decide_eq_true hc))
  unfold signToken at h ⊢
  dsimp only at h ⊢
  rw [hstart (· == '=') fun c hc => eq_false_of_isEdge (p := (· == '=')) hc (by decide), hhash, hat,
    hstart (· == '*') fun c hc => eq_false_of_isEdge (p := (· == '*')) hc (by decide), hmark]
  refine ite_of_le (fun _ _ => .of_eq rfl) (fun _ => ite_of_le (fun hc h => ?hash)
    fun _ => ite_of_le (fun _ h => ?atKeyword) fun _ => ite_of_le (fun hc h => ?comment)
    fun _ _ => .of_eq rfl) h
  case hash =>
    have hc : c = '#' := of_decide_eq_true (Bool.and_eq_true_iff.mp hc).1
    rw [List.length_cons] at h
    rw [hname (.inl hc)]
    exact (name_border hz hq ha (s := s) (by dsimp only at h; omega)).map
      (fun name => Token.hash name (startsName (a ++ z :: s))) (Nat.add_comm 1 _)
  case atKeyword =>
    rw [List.length_cons] at h
    exact (name_border hz hq ha (s := s) (by dsimp only at h; omega)).map Token.atKeyword
      (Nat.add_comm 1 _)
  case comment =>
    cases a with
    | nil =>
      have hstar : startsWith (· == '*') (z :: s) = false :=
        eq_false_of_isBarrier (p := (· == '*')) hz (by decide)
      rw [List.nil_append, hstar, Bool.and_false] at hc
      cases hc
    | cons d a =>
      simp only [List.cons_append, List.tail_cons, List.length_cons] at h ⊢
      rw [comment_border (s := s) hz (by omega) q]
      exact .of_eq rfl

theorem nextToken_border (hz : isBarrier z = true) (hq : IsBorder q) (ha : Apart (c :: a) q)
    (h : (nextToken c (a ++ z :: s)).length ≤ (c :: a).length) :
    Meets (c :: a).length q (nextToken c (a ++ z :: s)) (nextToken c (a ++ q)) := by
  have hs := isBorder_barrier hz s
  have hmark : decide ((a ++ q).take 2 = ['-', '>']) =
      decide ((a ++ z :: s).take 2 = ['-', '>']) :=
    decide_eq_decide.mpr ((@take_border q ['-', '>'] rfl hq a).trans
      (@take_border (z :: s) ['-', '>'] rfl hs a).symm)
  have hnumber : startsNumber (c :: (a ++ q)) = startsNumber (c :: (a ++ z :: s)) :=
    (startsNumber_border hq (c :: a)).trans (startsNumber_border hs (c :: a)).symm
  have hname : startsName (c :: (a ++ q)) = startsName (c :: (a ++ z :: s)) := by
    have hne : c :: a ≠ ['\\'] := by
      intro hca
      cases hca
      have hb : startsName ('\\' :: z :: s) = true :=
        congrArg not (eq_false_of_isBarrier (p := isNewline) hz (by decide))
      have hn : nextToken '\\' (z :: s) = nameToken ('\\' :: z :: s) := by
        rw [nextToken, hb]
        rfl
      have hl := length_name_backslash hz s
      have := length_name_le_nameToken ('\\' :: z :: s)
      rw [List.nil_append, hn, List.length_singleton] at h
      omega
    exact (startsName_border hq hne).trans (startsName_border hs hne).symm
  unfold nextToken at h ⊢
  dsimp only at h ⊢
  rw [hnumber, hmark, hname]
  refine ite_of_le (fun hc _ => ?space) (fun _ => ite_of_le (fun hc h => ?quoted)
    fun _ => ite_of_le (fun _ h => ?numeric) fun _ => ite_of_le (fun _ _ => .of_eq rfl)
    fun _ => ite_of_le (fun _ h => ?name) fun _ h => ?sign) h
  case space =>
    have hw {r : List Char} (ha : Apart (c :: a) r) :
        (a ++ r).takeWhile isSpace = a.takeWhile isSpace := by
      have h := ha.takeWhile_isSpace
      rw [List.cons_append, List.takeWhile_cons_of_pos hc, List.takeWhile_cons_of_pos hc] at h
      exact (List.cons.inj h).2
    rw [hw ha, hw (apart_barrier hz _ s)]
    exact .of_eq rfl
  case quoted =>
    have hb : c ≠ '\\' := by
      rintro rfl
      cases hc
    rw [List.length_cons] at h
    rw [quoted_border hz hb hq ha.tail (s := s) (by dsimp only at h; omega)]
    exact .of_eq rfl
  case numeric => exact numericToken_border (a := c :: a) hz hq ha h
  case name => exact nameToken_border (a := c :: a) hz hq ha h
  case sign => exact signToken_border hz hq ha.tail h

/-- The tokens before a barrier at which one starts do not depend on what follows it. -/
theorem tokens_barrier {ts : List Lexeme} (hz : isBarrier z = true)
    (h : tokens (a ++ z :: s) = ts ++ tokens (z :: s)) (ha : ts.flatMap Lexeme.text = a)
    (r : List Char) : tokens (a ++ z :: r) = ts ++ tokens (z :: r) := by
  induction ts generalizing a with
  | nil =>
    subst ha
    rfl
  | cons t ts ih =>
    cases a with
    | nil =>
      rw [List.nil_append, tokens_cons, List.cons_append] at h
      have ht := congrArg Lexeme.text (List.cons.inj h).1
      rw [List.flatMap_cons, List.append_eq_nil_iff] at ha
      rw [ha.1] at ht
      cases ht
    | cons c a =>
      rw [List.cons_append, tokens_cons, List.cons_append] at h
      obtain ⟨ht, hts⟩ := List.cons.inj h
      subst ht
      rw [List.flatMap_cons, List.cons_append, List.cons.injEq] at ha
      obtain ⟨-, ha⟩ := ha
      have hle : (nextToken c (a ++ z :: s)).length - 1 ≤ a.length := by
        have hl := congrArg List.length ha
        rw [List.length_append, List.length_take, List.length_append, List.length_cons] at hl
        omega
      have hnext : nextToken c (a ++ z :: r) = nextToken c (a ++ z :: s) :=
        (nextToken_border (s := s) hz (isBorder_barrier hz r) (apart_barrier hz _ r)
          (by rw [List.length_cons]; omega)).eq fun _ => spaceLength_barrier hz [] r
      rw [List.take_append_of_le_length hle] at ha
      rw [List.drop_append_of_le_length hle] at hts
      have htail := ih hts (List.append_cancel_left (ha.trans (List.take_append_drop _ a).symm))
      rw [List.cons_append, tokens_cons, hnext, List.drop_append_of_le_length hle, htail,
        List.take_append_of_le_length hle, List.take_append_of_le_length hle, List.cons_append]

end ModularScale.Css
