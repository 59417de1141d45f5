import ModularScale.Proofs.Css.Bare
import ModularScale.Proofs.Css.Content
import ModularScale.Proofs.Text.Casing

/-! # Names in a text

A name that was read, as it was or in lower case, is read back from its own characters.
-/

namespace ModularScale.Css

variable {c : Char} {cs n r : List Char}

/-! ### Characters -/

theorem isNameStart_of_isLower (h : c.isLower = true) : isNameStart c = true := by
  simp [isNameStart, Text.isAlpha_of_isLower h]

theorem isNameStart_toLower (h : isNameStart c = true) : isNameStart c.toLower = true := by
  rcases Text.toLower_cases c with hc | ⟨-, hc⟩
  · rwa [hc]
  · exact isNameStart_of_isLower hc

theorem isNameChar_toLower (h : isNameChar c = true) : isNameChar c.toLower = true := by
  rcases Text.toLower_cases c with hc | ⟨-, hc⟩
  · rwa [hc]
  · simp [isNameChar, isNameStart_of_isLower hc]

theorem isNameStart_replaceNul (h : isNameStart c = true) : isNameStart (replaceNul c) = true := by
  unfold replaceNul
  split
  · rfl
  · exact h

theorem isNameChar_replaceNul (h : isNameChar c = true) :
    isNameChar (replaceNul c) = true ∧ replaceNul c ≠ '\x00' := by
  unfold replaceNul
  split
  · exact ⟨rfl, by decide⟩
  case isFalse hc => exact ⟨h, hc⟩

theorem isDigit_of_isNameStart (h : isNameStart c = true) : c.isDigit = false := by
  rw [← Bool.not_eq_true]
  intro hd
  unfold isNameStart at h
  delta Char.isAlpha Char.isUpper Char.isLower at h
  simp [Char.isDigit, UInt32.le_iff_toNat_le] at h hd
  rcases h with ((h | rfl) | rfl) | h
  · omega
  · simp at hd
  · simp at hd
  · omega

/-! ### Reading a name back -/

/-- A name that is written without escapes. -/
structure IsName (n : List Char) : Prop where
  starts : startsName n = true
  chars : ∀ c ∈ n, isNameChar c = true ∧ c ≠ '\x00'

theorem isName_of_all (hs : startsName n = true)
    (h : n.all (fun c => isNameChar c && c != '\x00') = true) : IsName n :=
  ⟨hs, fun c hc => by simpa using List.all_eq_true.mp h c hc⟩

theorem name_append_name (hn : ∀ c ∈ n, isNameChar c = true ∧ c ≠ '\x00') (r : List Char) :
    name (n ++ r) = ⟨n ++ (name r).value, n.length + (name r).length⟩ := by
  induction n with
  | nil => simp
  | cons c n ih =>
    obtain ⟨⟨hc, h0⟩, hn⟩ := List.forall_mem_cons.mp hn
    rw [List.cons_append, name_cons hc, ih hn]
    simp only [Scan.cons, replaceNul, if_neg h0, List.length_cons, Scan.mk.injEq, List.cons_append,
      true_and]
    omega

theorem name_append (hn : ∀ c ∈ n, isNameChar c = true ∧ c ≠ '\x00') (hr : name r = ⟨[], 0⟩) :
    name (n ++ r) = ⟨n, n.length⟩ := by
  rw [name_append_name hn, hr, List.append_nil, Nat.add_zero]

/-- A name starts with a letter, or with a dash and a letter or another dash. -/
theorem IsName.cases (hn : IsName n) :
    (∃ c m, n = c :: m ∧ isNameStart c = true) ∨
      ∃ c m, n = '-' :: c :: m ∧ (isNameStart c = true ∨ c = '-') := by
  obtain ⟨hs, hc⟩ := hn
  unfold startsName at hs
  split at hs
  case h_1 m =>
    cases m with
    | nil => cases hs
    | cons c m =>
      refine .inr ⟨c, m, rfl, ?_⟩
      rw [startsWith, Bool.or_eq_true, Bool.or_eq_true, beq_iff_eq, beq_iff_eq] at hs
      rcases hs with hs | rfl
      · exact hs
      · exact absurd (hc '\\' (by simp)).1 (by decide)
  case h_2 => exact absurd (hc '\\' (by simp)).1 (by decide)
  case h_3 =>
    cases n with
    | nil => cases hs
    | cons c m => exact .inl ⟨c, m, rfl, hs⟩

theorem isNameStart_ne {d : Char} (h : isNameStart c = true) (hd : isNameStart d = false) :
    c ≠ d := by
  rintro rfl
  rw [h] at hd
  cases hd

theorem IsName.startsName_append (hn : IsName n) (r : List Char) : startsName (n ++ r) = true := by
  rcases hn.cases with ⟨c, m, rfl, hc⟩ | ⟨c, m, rfl, hc⟩
  · rw [List.cons_append, startsName_cons (isNameStart_ne hc rfl) (isNameStart_ne hc rfl)]
    exact hc
  · rw [List.cons_append, List.cons_append, startsName, startsWith,
      Bool.or_eq_true, Bool.or_eq_true, beq_iff_eq, beq_iff_eq]
    exact .inl hc

theorem IsName.startsNumber_append (hn : IsName n) (r : List Char) :
    startsNumber (n ++ r) = false := by
  rcases hn.cases with ⟨c, m, rfl, hc⟩ | ⟨c, m, rfl, hc⟩
  · have hs : signLength (c :: (m ++ r)) = 0 := by
      unfold signLength
      split
      case h_1 h => cases h; cases hc
      case h_2 h => cases h; cases hc
      case h_3 => rfl
    rw [List.cons_append, startsNumber_eq, hs, List.drop_zero, startsWith,
      isDigit_of_isNameStart hc, startsWith, beq_eq_false_iff_ne.mpr (isNameStart_ne hc rfl)]
    rfl
  · have hd : c.isDigit = false ∧ c ≠ '.' := by
      rcases hc with hc | rfl
      · exact ⟨isDigit_of_isNameStart hc, isNameStart_ne hc rfl⟩
      · decide
    rw [startsNumber_eq]
    show (startsWith _ (c :: (m ++ r)) || startsWith _ (c :: (m ++ r)) && _) = false
    rw [startsWith, hd.1, startsWith, beq_eq_false_iff_ne.mpr hd.2]
    rfl

theorem nextToken_name (hn : IsName (c :: cs)) (hr : Stops r) :
    nextToken c (cs ++ r) = ⟨.ident (c :: cs), cs.length + 1⟩ := by
  have hc := (hn.chars c List.mem_cons_self).1
  have hname := name_append hn.chars (name_of_stops hr)
  have hdash : (c = '-' && (cs ++ r).take 2 = ['-', '>']) = false := by
    rw [← Bool.not_eq_true, Bool.and_eq_true, decide_eq_true_eq, decide_eq_true_eq]
    rintro ⟨rfl, ht⟩
    have hlen := length_le_of_take_append ['-', '>'] (by simp [isStop, isSpace, isNewline]) hr ht
    have hmem : '>' ∈ (cs ++ r).take 2 := by
      rw [ht]
      exact List.mem_cons_of_mem _ List.mem_cons_self
    rw [List.take_append_of_le_length (show 2 ≤ cs.length from hlen)] at hmem
    cases (hn.chars '>' (List.mem_cons_of_mem _ (List.mem_of_mem_take hmem))).1
  have hspace : isSpace c = false := by
    rw [← Bool.not_eq_true]
    intro hs
    rw [isNameChar_of_isStop (by simp [isStop, hs])] at hc
    cases hc
  have hquote : (decide (c = '"') || decide (c = '\'')) = false := by
    rw [← Bool.not_eq_true, Bool.or_eq_true, decide_eq_true_eq, decide_eq_true_eq]
    rintro (rfl | rfl)
    · cases hc
    · cases hc
  rw [nextToken, hspace, hquote, ← List.cons_append, hn.startsNumber_append, hdash,
    hn.startsName_append]
  simp only [Bool.false_eq_true, ↓reduceIte]
  rw [nameToken_eq, hname, List.drop_left, hr.startsWith fun d hd => beq_of_isStop rfl hd]
  rfl

/-- A name is one token before a text that can follow it. -/
theorem tokens_name (hn : IsName n) (hr : Stops r) :
    tokens (n ++ r) = ⟨.ident n, n, 0⟩ :: tokens r := by
  cases n with
  | nil => cases hn.starts
  | cons c cs =>
    rw [List.cons_append, tokens_cons, nextToken_name hn hr, Nat.add_sub_cancel, List.take_left,
      List.drop_left]

theorem tokens_at (hn : IsName n) (hr : name r = ⟨[], 0⟩) :
    tokens ('@' :: (n ++ r)) = ⟨.atKeyword n, '@' :: n, 0⟩ :: tokens r := by
  have ht : nextToken '@' (n ++ r) = ⟨.atKeyword n, 1 + n.length⟩ := by
    show (if startsName (n ++ r) then (⟨.atKeyword (name (n ++ r)).value, _⟩ : Scan Token)
      else _) = _
    rw [hn.startsName_append, name_append hn.chars hr]
    rfl
  rw [tokens_cons, ht, Nat.add_sub_cancel_left, List.take_left, List.drop_left]

/-! ### The names that are read -/

theorem isNameChar_of_mem_value (h : '\\' ∉ cs.take (name cs).length) (hc : c ∈ (name cs).value) :
    isNameChar c = true ∧ c ≠ '\x00' := by
  fun_induction name cs with
  | case1 => cases hc
  | case2 d cs hd ih =>
    rw [Scan.cons, Nat.add_comm, List.take_succ_cons] at h
    rcases List.mem_cons.mp hc with rfl | hc
    · exact isNameChar_replaceNul hd
    · exact ih (List.not_mem_of_not_mem_cons h) hc
  | case3 d cs hd hb =>
    obtain ⟨rfl, -⟩ : d = '\\' ∧ _ := by simpa using hb
    rw [Scan.cons, Nat.add_assoc, Nat.add_comm, List.take_succ_cons] at h
    exact absurd List.mem_cons_self h
  | case4 => cases hc

/-- A name without a backslash in it or right behind it is written without escapes. -/
theorem isName_name (h : '\\' ∉ cs.take ((name cs).length + 1)) (hs : startsName cs = true) :
    IsName (name cs).value := by
  have hlocal : '\\' ∉ cs.take (name cs).length := fun hm =>
    h (List.take_subset_take_left cs (Nat.le_succ _) hm)
  refine ⟨?_, fun c hc => isNameChar_of_mem_value hlocal hc⟩
  have hstart : ∀ {d}, isNameStart d = true → isNameStart (replaceNul d) = true :=
    isNameStart_replaceNul
  cases cs with
  | nil => cases hs
  | cons c cs =>
    have hc : c ≠ '\\' := by
      rintro rfl
      exact h List.mem_cons_self
    rcases Decidable.em (c = '-') with rfl | hne
    · rw [name_cons rfl, Scan.cons, Nat.add_right_comm, Nat.add_comm, Nat.add_comm 1,
        List.take_succ_cons] at h
      cases cs with
      | nil => cases hs
      | cons d cs =>
        rw [List.take_succ_cons] at h
        have hd : d ≠ '\\' := by
          rintro rfl
          exact h (List.mem_cons_of_mem _ List.mem_cons_self)
        rw [startsName, startsWith, Bool.or_eq_true, Bool.or_eq_true, beq_iff_eq, beq_iff_eq] at hs
        rcases hs with (hs | rfl) | rfl
        · rw [name_cons rfl, name_cons (isNameChar_of_isNameStart hs)]
          simp only [Scan.cons, show replaceNul '-' = '-' from rfl, startsName, startsWith,
            hstart hs, Bool.true_or]
        · rw [name_cons rfl, name_cons rfl]
          rfl
        · exact absurd rfl hd
    · rw [startsName_cons hne hc] at hs
      rw [name_cons (isNameChar_of_isNameStart hs), Scan.cons,
        startsName_cons (isNameStart_ne (hstart hs) rfl) (isNameStart_ne (hstart hs) rfl)]
      exact hstart hs

/-- A name ends where no name goes on. -/
theorem name_drop_name (cs : List Char) : name (cs.drop (name cs).length) = ⟨[], 0⟩ := by
  fun_induction name cs with
  | case1 => exact name_nil
  | case2 c cs hc ih =>
    simp only [Scan.cons]
    rw [Nat.add_comm, List.drop_succ_cons]
    exact ih
  | case3 c cs hc hb escaped ih =>
    simp only [Scan.cons]
    rw [Nat.add_assoc, Nat.add_comm, List.drop_succ_cons, ← List.drop_drop]
    exact ih
  | case4 c cs hc hb => rw [List.drop_zero, name, if_neg hc, if_neg hb]

theorem isNameChar_of_name_eq (h : name (c :: cs) = ⟨[], 0⟩) : isNameChar c = false := by
  rw [← Bool.not_eq_true]
  intro hc
  rw [name_cons hc] at h
  cases congrArg Scan.value h

/-- A token that starts with a sign is a name behind an at sign or none at all. -/
theorem signToken_cases (c : Char) (cs : List Char) :
    (startsName cs = true ∧
      signToken c cs = ⟨.atKeyword (name cs).value, 1 + (name cs).length⟩) ∨
    ∀ n, (signToken c cs).value ≠ .ident n ∧ (signToken c cs).value ≠ .atKeyword n := by
  fun_cases signToken c cs with
  | case1 | case2 | case4 | case5 => exact .inr (by simp)
  | case3 _ _ hs => exact .inl ⟨(Bool.and_eq_true_iff.mp hs).2, rfl⟩
  | case6 =>
    right
    dsimp only
    split <;> simp

/-- The next token is a name, a name behind an at sign or none of both. -/
theorem nextToken_cases (c : Char) (cs : List Char) :
    (startsName (c :: cs) = true ∧
      nextToken c cs = ⟨.ident (name (c :: cs)).value, (name (c :: cs)).length⟩) ∨
    (startsName cs = true ∧
      nextToken c cs = ⟨.atKeyword (name cs).value, 1 + (name cs).length⟩) ∨
    ∀ n, (nextToken c cs).value ≠ .ident n ∧ (nextToken c cs).value ≠ .atKeyword n := by
  fun_cases nextToken c cs with
  | case1 | case4 => exact .inr (.inr (by simp))
  | case2 =>
    refine .inr (.inr fun n => ?_)
    dsimp only
    split <;> simp
  | case3 =>
    refine .inr (.inr fun n => ?_)
    exact value_numericToken (P := fun t => t ≠ .ident n ∧ t ≠ .atKeyword n) (by simp) (by simp)
      (by simp) _
  | case5 _ _ _ _ hs =>
    rw [nameToken_eq]
    split
    · refine .inr (.inr fun n => ?_)
      rcases bracketToken_cases (name (c :: cs)) ((c :: cs).drop (name (c :: cs)).length) with
        ⟨_, hv⟩ | ⟨_, hv⟩ | hv
      all_goals rw [hv]; simp
    · exact .inl ⟨hs, rfl⟩
  | case6 => exact .inr (signToken_cases c cs)

theorem isName_of_ident (h : '\\' ∉ (c :: cs).take ((nextToken c cs).length + 1))
    (ht : (nextToken c cs).value = .ident n) : IsName n := by
  rcases nextToken_cases c cs with ⟨hs, hv⟩ | ⟨-, hv⟩ | hv
  · rw [hv] at ht h
    cases ht
    exact isName_name h hs
  · rw [hv] at ht
    cases ht
  · exact absurd ht (hv n).1

theorem isName_of_atKeyword (h : '\\' ∉ cs.take (nextToken c cs).length)
    (ht : (nextToken c cs).value = .atKeyword n) : IsName n := by
  rcases nextToken_cases c cs with ⟨-, hv⟩ | ⟨hs, hv⟩ | hv
  · rw [hv] at ht
    cases ht
  · rw [hv, Nat.add_comm] at h
    rw [hv] at ht
    cases ht
    exact isName_name h hs
  · exact absurd ht (hv n).2

/-- No name goes on behind a name. -/
theorem name_drop_atKeyword (ht : (nextToken c cs).value = .atKeyword n) :
    name (cs.drop ((nextToken c cs).length - 1)) = ⟨[], 0⟩ := by
  rcases nextToken_cases c cs with ⟨-, hv⟩ | ⟨-, hv⟩ | hv
  · rw [hv] at ht
    cases ht
  · rw [hv, Nat.add_sub_cancel_left]
    exact name_drop_name cs
  · exact absurd ht (hv n).2

theorem IsName.asciiLower (hn : IsName n) : IsName (Text.asciiLower n) := by
  constructor
  · have hl : ('-' : Char).toLower = '-' := rfl
    rcases hn.cases with ⟨c, m, rfl, hc⟩ | ⟨c, m, rfl, hc⟩
    · have hc := isNameStart_toLower hc
      rw [Text.asciiLower, List.map_cons,
        startsName_cons (isNameStart_ne hc rfl) (isNameStart_ne hc rfl)]
      exact hc
    · rw [Text.asciiLower, List.map_cons, List.map_cons, hl, startsName, startsWith]
      rcases hc with hc | rfl
      · rw [isNameStart_toLower hc]
        rfl
      · rfl
  · intro d hd
    obtain ⟨c, hc, rfl⟩ := List.mem_map.mp hd
    refine ⟨isNameChar_toLower (hn.chars c hc).1, fun h0 => (hn.chars c hc).2 ?_⟩
    exact Text.eq_of_toLower_eq h0 rfl

end ModularScale.Css
