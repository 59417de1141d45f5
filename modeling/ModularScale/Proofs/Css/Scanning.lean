import Mathlib.Data.List.Basic
import ModularScale.Css.Token

/-! # Scanning a part of a text

A token that lies within the first part of a text stays the same if another text follows that part,
as long as this starts with a character that goes on no token.
-/

namespace ModularScale.Css

variable {p : Char → Bool} {c : Char} {a r s : List Char}

/-- Whether a character belongs to no token that starts before it, unless this is enclosed. -/
def isStop (c : Char) : Bool :=
  isSpace c || c == ';' || c == ':'

/-- A text that can follow any other. -/
def Stops (r : List Char) : Prop :=
  startsWith (!isStop ·) r = false

theorem stops_nil : Stops [] := rfl

theorem stops_cons (h : isStop c = true) (cs : List Char) : Stops (c :: cs) := by
  simp [Stops, startsWith, h]

theorem Stops.startsWith (h : Stops r) (hp : ∀ c, isStop c = true → p c = false) :
    startsWith p r = false := by
  cases r with
  | nil => rfl
  | cons c r =>
    refine hp c ?_
    simpa [Stops, Css.startsWith] using h

theorem isStop_iff : isStop c = true ↔
    c = ' ' ∨ c = '\t' ∨ c = '\n' ∨ c = '\r' ∨ c = '\x0c' ∨ c = ';' ∨ c = ':' := by
  simp [isStop, isSpace, isNewline, or_assoc]

theorem isNameChar_of_isStop (h : isStop c = true) : isNameChar c = false := by
  rcases isStop_iff.mp h with rfl | rfl | rfl | rfl | rfl | rfl | rfl <;> decide

theorem isDigit_of_isStop (h : isStop c = true) : c.isDigit = false := by
  rcases isStop_iff.mp h with rfl | rfl | rfl | rfl | rfl | rfl | rfl <;> decide

theorem beq_of_isStop {d : Char} (hd : isStop d = false) (h : isStop c = true) :
    (c == d) = false := by
  rw [beq_eq_false_iff_ne]
  rintro rfl
  rw [h] at hd
  cases hd

/-! ### Runs of characters -/

theorem takeWhile_append_of_exists (h : ∃ c ∈ a, p c = false) (r : List Char) :
    (a ++ r).takeWhile p = a.takeWhile p := by
  induction a with
  | nil =>
    obtain ⟨c, hc, -⟩ := h
    cases hc
  | cons c a ih =>
    rw [List.cons_append, List.takeWhile_cons, List.takeWhile_cons]
    split
    case isTrue hc =>
      refine congrArg (c :: ·) (ih ?_)
      obtain ⟨d, hd, hp⟩ := h
      rcases List.mem_cons.mp hd with rfl | hd
      · rw [hc] at hp
        cases hp
      · exact ⟨d, hd, hp⟩
    case isFalse => rfl

/-- The first character that ends a run. -/
theorem exists_drop_takeWhile (h : ∃ c ∈ a, p c = false) :
    ∃ d b, p d = false ∧ ∀ r, (a ++ r).drop (a.takeWhile p).length = d :: (b ++ r) := by
  induction a with
  | nil =>
    obtain ⟨c, hc, -⟩ := h
    cases hc
  | cons c a ih =>
    cases hc : p c with
    | false =>
      refine ⟨c, a, hc, fun r => ?_⟩
      rw [List.takeWhile_cons, hc]
      rfl
    | true =>
      obtain ⟨e, he, hp⟩ := h
      rcases List.mem_cons.mp he with rfl | he
      · rw [hc] at hp
        cases hp
      · obtain ⟨d, b, hd, hb⟩ := ih ⟨e, he, hp⟩
        refine ⟨d, b, hd, fun r => ?_⟩
        rw [List.takeWhile_cons, hc]
        exact hb r

theorem takeWhile_congr (h : ((a ++ r).takeWhile p).length ≤ a.length)
    (hr : startsWith p s = false) : (a ++ s).takeWhile p = (a ++ r).takeWhile p := by
  induction a with
  | nil =>
    rw [List.nil_append, List.nil_append] at *
    rw [List.eq_nil_of_length_eq_zero (Nat.le_zero.mp h)]
    cases s with
    | nil => rfl
    | cons c s =>
      change p c = false at hr
      rw [List.takeWhile_cons, hr]
      rfl
  | cons c a ih =>
    rw [List.cons_append, List.takeWhile_cons] at h
    rw [List.cons_append, List.cons_append, List.takeWhile_cons, List.takeWhile_cons]
    split
    case isTrue hc =>
      rw [if_pos hc] at h
      exact congrArg (c :: ·) (ih (Nat.le_of_succ_le_succ h))
    case isFalse => rfl

/-- A fixed text without stops is found in the first part only. -/
theorem length_le_of_take_append (mark : List Char) (hm : ∀ c ∈ mark, isStop c = false)
    (hr : Stops r) (h : (a ++ r).take mark.length = mark) : mark.length ≤ a.length := by
  induction mark generalizing a with
  | nil => exact Nat.zero_le _
  | cons c mark ih =>
    have hm' : ∀ c ∈ mark, isStop c = false := fun d hd => hm d (List.mem_cons_of_mem _ hd)
    cases a with
    | nil =>
      cases r with
      | nil => cases h
      | cons d r =>
        rw [List.nil_append, List.length_cons, List.take_succ_cons] at h
        injection h with hd _
        subst hd
        have := hr.startsWith (p := (· == d)) fun c hc => beq_of_isStop (hm d List.mem_cons_self) hc
        simp [startsWith] at this
    | cons d a =>
      rw [List.cons_append, List.length_cons, List.take_succ_cons] at h
      injection h with _ h
      exact Nat.succ_le_succ (ih hm' h)

/-- Whether a fixed text is found does not depend on what follows, as long as it is read. -/
theorem take_eq_iff (mark : List Char) (hm : ∀ c ∈ mark, isStop c = false) (hr : Stops s)
    (h : (a ++ r).take mark.length = mark → mark.length ≤ a.length) :
    (a ++ s).take mark.length = mark ↔ (a ++ r).take mark.length = mark := by
  constructor
  · intro ht
    have hl := length_le_of_take_append mark hm hr ht
    rw [List.take_append_of_le_length hl] at ht ⊢
    exact ht
  · intro ht
    have hl := h ht
    rw [List.take_append_of_le_length hl] at ht ⊢
    exact ht

theorem startsWith_congr (hp : ∀ c, isStop c = true → p c = false) (hr : Stops s)
    (h : startsWith p (a ++ r) = true → a ≠ []) : startsWith p (a ++ s) = startsWith p (a ++ r) := by
  cases a with
  | nil =>
    rw [List.nil_append, List.nil_append] at *
    rw [hr.startsWith hp]
    cases hs : startsWith p r with
    | false => rfl
    | true => exact absurd rfl (h hs)
  | cons => rfl

/-! ### Names -/

theorem name_nil : name [] = ⟨[], 0⟩ := by
  rw [name]

theorem name_cons (hc : isNameChar c = true) (cs : List Char) :
    name (c :: cs) = (name cs).cons (replaceNul c) 1 := by
  rw [name, if_pos hc]

theorem name_stop (hc : isNameChar c = false) (hb : c ≠ '\\') (cs : List Char) :
    name (c :: cs) = ⟨[], 0⟩ := by
  rw [name]
  simp [hc, hb]

theorem name_of_stops (hr : Stops r) : name r = ⟨[], 0⟩ := by
  cases r with
  | nil => exact name_nil
  | cons c r =>
    have hs : isStop c = true := by simpa [Stops, startsWith] using hr
    refine name_stop (isNameChar_of_isStop hs) ?_ r
    rintro rfl
    cases hs

theorem name_of_length_eq_zero {cs : List Char} (h : (name cs).length = 0) :
    name cs = ⟨[], 0⟩ := by
  rw [name.eq_def] at h ⊢
  split at h
  · rfl
  · split at h
    · simp [Scan.cons] at h
    · split at h
      · simp [Scan.cons] at h
      · simp_all

theorem name_congr (ha : '\\' ∉ a) (h : (name (a ++ r)).length ≤ a.length) (hr : Stops s) :
    name (a ++ s) = name (a ++ r) := by
  induction a with
  | nil =>
    rw [List.nil_append] at h
    rw [List.nil_append, List.nil_append, name_of_stops hr,
      name_of_length_eq_zero (Nat.le_zero.mp h)]
  | cons c a ih =>
    obtain ⟨hc, ha⟩ := List.ne_and_not_mem_of_not_mem_cons ha
    cases hn : isNameChar c with
    | false =>
      rw [List.cons_append, List.cons_append, name_stop hn hc.symm, name_stop hn hc.symm]
    | true =>
      rw [List.cons_append, name_cons hn] at h
      rw [List.cons_append, List.cons_append, name_cons hn, name_cons hn, ih ha]
      simp only [Scan.cons, List.length_cons] at h
      omega

theorem isNameChar_of_isNameStart (h : isNameStart c = true) : isNameChar c = true := by
  simp [isNameChar, h]

theorem startsName_cons (hd : c ≠ '-') (hb : c ≠ '\\') (cs : List Char) :
    startsName (c :: cs) = isNameStart c := by
  unfold startsName
  split
  case h_1 h => cases h; exact absurd rfl hd
  case h_2 h => cases h; exact absurd rfl hb
  case h_3 => rfl

theorem isNameChar_of_startsName {cs : List Char} (hb : c ≠ '\\') (h : startsName (c :: cs) = true) :
    isNameChar c = true := by
  rcases Decidable.em (c = '-') with rfl | hd
  · rfl
  · rw [startsName_cons hd hb] at h
    exact isNameChar_of_isNameStart h

theorem startsName_of_stops (hr : Stops r) : startsName r = false := by
  cases r with
  | nil => rfl
  | cons c r =>
    have hs : isStop c = true := by simpa [Stops, startsWith] using hr
    have hn := isNameChar_of_isStop hs
    rw [startsName_cons]
    · rw [← Bool.not_eq_true]
      intro h
      rw [isNameChar_of_isNameStart h] at hn
      cases hn
    · rintro rfl
      cases hs
    · rintro rfl
      cases hs

/-- A name has the characters by which its start is told. -/
theorem startsName_congr (ha : '\\' ∉ a) (hb : '\\' ∉ r)
    (h : startsName (a ++ r) = true → (name (a ++ r)).length ≤ a.length) (hr : Stops s) :
    startsName (a ++ s) = startsName (a ++ r) := by
  have hdash : ∀ d, d ≠ '\\' → (isNameStart d || d == '-' || d == '\\') = true →
      isNameChar d = true := by
    intro d hd h
    rw [Bool.or_eq_true, Bool.or_eq_true, beq_iff_eq, beq_iff_eq] at h
    rcases h with (h | rfl) | rfl
    · exact isNameChar_of_isNameStart h
    · rfl
    · exact absurd rfl hd
  cases a with
  | nil =>
    rw [List.nil_append, List.nil_append, startsName_of_stops hr, eq_comm, ← Bool.not_eq_true]
    intro hs
    have hlen := h hs
    cases r with
    | nil => cases hs
    | cons d r =>
      obtain ⟨hd, -⟩ := List.ne_and_not_mem_of_not_mem_cons hb
      rcases Decidable.em (d = '-') with rfl | hne
      · rw [List.nil_append, name_cons rfl] at hlen
        simp [Scan.cons] at hlen
      · rw [startsName_cons hne hd.symm] at hs
        rw [List.nil_append, name_cons (isNameChar_of_isNameStart hs)] at hlen
        simp [Scan.cons] at hlen
  | cons c a =>
    obtain ⟨hc, ha⟩ := List.ne_and_not_mem_of_not_mem_cons ha
    rcases Decidable.em (c = '-') with rfl | hne
    · show startsWith _ (a ++ s) = startsWith _ (a ++ r)
      refine startsWith_congr ?_ hr ?_
      · intro d hd
        rw [← Bool.not_eq_true]
        intro hs
        have hn := hdash d (by rintro rfl; cases hd) hs
        rw [isNameChar_of_isStop hd] at hn
        cases hn
      · rintro hs rfl
        have hlen := h hs
        cases r with
        | nil => cases hs
        | cons d r =>
          obtain ⟨hd, -⟩ := List.ne_and_not_mem_of_not_mem_cons hb
          rw [List.singleton_append, name_cons rfl, name_cons (hdash d hd.symm hs)] at hlen
          simp only [Scan.cons, List.length_singleton] at hlen
          omega
    · rw [List.cons_append, List.cons_append, startsName_cons hne hc.symm,
        startsName_cons hne hc.symm]

/-! ### Numbers -/

theorem signLength_le (cs : List Char) : signLength cs ≤ cs.length := by
  unfold signLength
  split <;> simp

theorem signLength_congr (ha : a ≠ []) : signLength (a ++ s) = signLength (a ++ r) := by
  cases a with
  | nil => exact absurd rfl ha
  | cons c a =>
    rcases Decidable.em (c = '+' ∨ c = '-') with (rfl | rfl) | h
    · rfl
    · rfl
    · rw [not_or] at h
      unfold signLength
      simp [h.1, h.2]

theorem signLength_of_stops (hr : Stops r) : signLength r = 0 := by
  unfold signLength
  split
  · cases hr
  · cases hr
  · rfl

theorem takeWhile_isDigit_of_stops (hr : Stops r) : r.takeWhile Char.isDigit = [] := by
  have h := hr.startsWith fun _ => isDigit_of_isStop
  cases r with
  | nil => rfl
  | cons c r =>
    change c.isDigit = false at h
    rw [List.takeWhile_cons, h]
    rfl

theorem fractionDigits_congr (h : fractionLength (fractionDigits (a ++ r)) ≤ a.length)
    (hr : Stops s) : fractionDigits (a ++ s) = fractionDigits (a ++ r) := by
  cases a with
  | nil =>
    have hl : fractionDigits r = [] := by
      unfold fractionLength at h
      split at h
      · rwa [List.isEmpty_iff] at *
      · simp at h
    have hs : fractionDigits s = [] := by
      unfold fractionDigits
      split
      · cases hr
      · rfl
    rw [List.nil_append, List.nil_append, hl, hs]
  | cons c a =>
    rcases Decidable.em (c = '.') with rfl | hc
    · refine takeWhile_congr ?_ (hr.startsWith fun _ => isDigit_of_isStop)
      change fractionLength ((a ++ r).takeWhile Char.isDigit) ≤ a.length + 1 at h
      unfold fractionLength at h
      split at h
      case isTrue he =>
        rw [List.isEmpty_iff.mp he]
        exact Nat.zero_le _
      case isFalse => omega
    · unfold fractionDigits
      simp [hc]

/-- The digits behind a sign, if there is one. -/
def signedDigits (cs : List Char) : List Char :=
  (cs.drop (signLength cs)).takeWhile Char.isDigit

theorem signedDigits_congr (h : signedDigits (a ++ r) = [] ∨
      signLength (a ++ r) + (signedDigits (a ++ r)).length ≤ a.length) (hr : Stops s) :
    signedDigits (a ++ s) = signedDigits (a ++ r) := by
  rcases Decidable.em (a = []) with rfl | ha
  · have hs : signedDigits s = [] := by
      rw [signedDigits, signLength_of_stops hr]
      exact takeWhile_isDigit_of_stops hr
    rw [List.nil_append, List.nil_append] at *
    rw [hs]
    rcases h with h | h
    · exact h.symm
    · exact (List.eq_nil_of_length_eq_zero (by rw [List.length_nil] at h; omega)).symm
  · have hs : signLength (a ++ r) ≤ a.length := by
      rw [← signLength_congr (r := r) (s := []) ha, List.append_nil]
      exact signLength_le a
    unfold signedDigits at h ⊢
    rw [signLength_congr ha]
    rw [List.drop_append_of_le_length hs] at h ⊢
    rw [List.drop_append_of_le_length hs]
    refine takeWhile_congr ?_ (hr.startsWith fun _ => isDigit_of_isStop)
    rw [List.length_drop]
    rcases h with h | h
    · rw [h]
      exact Nat.zero_le _
    · omega

theorem exponentPart_cons (c : Char) (cs : List Char) : exponentPart (c :: cs) =
    if (c = 'e' || c = 'E') && !(signedDigits cs).isEmpty then
      ⟨Numeral.signed (startsWith (· == '-') cs) (Numeral.ofDigits (signedDigits cs)),
        1 + signLength cs + (signedDigits cs).length⟩
    else ⟨0, 0⟩ := rfl

theorem exponentPart_congr (h : (exponentPart (a ++ r)).length ≤ a.length) (hr : Stops s) :
    exponentPart (a ++ s) = exponentPart (a ++ r) := by
  cases a with
  | nil =>
    have hl : exponentPart r = ⟨0, 0⟩ := by
      cases r with
      | nil => rfl
      | cons c r =>
        rw [List.nil_append, exponentPart_cons] at h
        rw [exponentPart_cons]
        split at h
        · simp at h
        case isFalse hc => rw [if_neg hc]
    have hs : exponentPart s = ⟨0, 0⟩ := by
      cases s with
      | nil => rfl
      | cons c s =>
        have hc := hr.startsWith (p := fun c => c == 'e' || c == 'E') fun c hc => by
          rw [beq_of_isStop rfl hc, beq_of_isStop rfl hc]
          rfl
        rw [exponentPart_cons, if_neg]
        change (c == 'e' || c == 'E') = false at hc
        rw [Bool.or_eq_false_iff, beq_eq_false_iff_ne, beq_eq_false_iff_ne] at hc
        simp [hc.1, hc.2]
    rw [List.nil_append, List.nil_append, hl, hs]
  | cons c a =>
    rw [List.cons_append, exponentPart_cons] at h
    rw [List.cons_append, List.cons_append, exponentPart_cons, exponentPart_cons]
    cases hc : decide (c = 'e') || decide (c = 'E') with
    | false => rfl
    | true =>
      rw [hc] at h
      have hd : signedDigits (a ++ r) = [] ∨
          signLength (a ++ r) + (signedDigits (a ++ r)).length ≤ a.length := by
        cases he : signedDigits (a ++ r) with
        | nil => exact .inl rfl
        | cons d ds =>
          rw [he, if_pos (by rfl)] at h
          simp only [List.length_cons] at h ⊢
          omega
      rw [signedDigits_congr hd hr]
      split
      case isTrue hne =>
        have ha : a ≠ [] := by
          rintro rfl
          rcases hd with hd | hd
          · rw [hd] at hne
            cases hne
          · rw [List.eq_nil_of_length_eq_zero (l := signedDigits ([] ++ r))
              (by rw [List.length_nil] at hd; omega)] at hne
            cases hne
        rw [signLength_congr ha]
        cases a with
        | nil => exact absurd rfl ha
        | cons => rfl
      case isFalse => rfl

theorem numeral_congr (ha : a ≠ []) (h : (numeral (a ++ r)).length ≤ a.length) (hr : Stops s) :
    numeral (a ++ s) = numeral (a ++ r) := by
  have hs : signLength (a ++ s) = signLength (a ++ r) := signLength_congr ha
  have hneg : startsWith (· == '-') (a ++ s) = startsWith (· == '-') (a ++ r) := by
    cases a with
    | nil => exact absurd rfl ha
    | cons => rfl
  unfold numeral at h ⊢
  dsimp only at h ⊢
  rw [hs, hneg]
  generalize signLength (a ++ r) = sign at *
  have hd : sign ≤ a.length := by omega
  rw [List.drop_append_of_le_length hd] at h ⊢
  rw [List.drop_append_of_le_length hd]
  have hw := takeWhile_congr (a := a.drop sign) (r := r) (s := s) (p := Char.isDigit)
    (by rw [List.length_drop]; omega) (hr.startsWith fun _ => isDigit_of_isStop)
  rw [hw]
  generalize (a.drop sign ++ r).takeWhile Char.isDigit = whole at *
  have hd : sign + whole.length ≤ a.length := by omega
  rw [List.drop_append_of_le_length hd] at h ⊢
  rw [List.drop_append_of_le_length hd]
  have hf := fractionDigits_congr (a := a.drop (sign + whole.length)) (r := r) (s := s)
    (by rw [List.length_drop]; omega) hr
  rw [hf]
  generalize fractionDigits (a.drop (sign + whole.length) ++ r) = fraction at *
  have hd : fractionLength fraction ≤ (a.drop (sign + whole.length)).length := by
    rw [List.length_drop]
    omega
  rw [List.drop_append_of_le_length hd] at h ⊢
  rw [List.drop_append_of_le_length hd]
  rw [exponentPart_congr (r := r) (s := s) (by rw [List.length_drop, List.length_drop]; omega) hr]

theorem startsWith_eq (p : Char → Bool) (cs : List Char) :
    startsWith p cs = !(cs.takeWhile p).isEmpty := by
  cases cs with
  | nil => rfl
  | cons c cs =>
    rw [List.takeWhile_cons]
    change p c = _
    split
    case isTrue h => rw [h]; rfl
    case isFalse h => rw [Bool.eq_false_iff.mpr h]; rfl

theorem startsWith_mono (hp : ∀ c, isStop c = true → p c = false) (hr : Stops s)
    (h : startsWith p (a ++ s) = true) (r : List Char) : startsWith p (a ++ r) = true := by
  cases a with
  | nil => rw [List.nil_append, hr.startsWith hp] at h; cases h
  | cons => exact h

/-- A number is a digit or a point with a digit, behind a sign if there is one. -/
theorem startsNumber_eq (cs : List Char) : startsNumber cs =
    (startsWith Char.isDigit (cs.drop (signLength cs)) ||
      startsWith (· == '.') (cs.drop (signLength cs)) &&
        startsWith Char.isDigit (cs.drop (signLength cs)).tail) := by
  have hpoint : ∀ cs : List Char, (∀ tail, cs ≠ '.' :: tail) → startsWith (· == '.') cs = false := by
    intro cs h
    cases cs with
    | nil => rfl
    | cons c cs => exact beq_eq_false_iff_ne.mpr fun hc => h cs (hc ▸ rfl)
  unfold startsNumber
  split
  case h_1 => rfl
  case h_2 => rfl
  case h_3 => rfl
  case h_4 tail h => simp [signLength, hpoint tail fun t ht => h t (ht ▸ rfl)]
  case h_5 tail h => simp [signLength, hpoint tail fun t ht => h t (ht ▸ rfl)]
  case h_6 h₁ h₂ h₃ h₄ h₅ =>
    have hs : signLength cs = 0 := by
      unfold signLength
      split
      · exact absurd rfl (h₄ _)
      · exact absurd rfl (h₅ _)
      · rfl
    simp [hs, hpoint cs h₃]

theorem startsNumber_iff (cs : List Char) : startsNumber cs = true ↔
    (numeral cs).value.whole ≠ [] ∨ (numeral cs).value.fraction ≠ [] := by
  rw [startsNumber_eq]
  simp only [numeral]
  generalize signLength cs = sign
  rw [← List.drop_drop]
  generalize cs.drop sign = cs
  cases hw : cs.takeWhile Char.isDigit with
  | cons d ds => simp [startsWith_eq, hw]
  | nil =>
    rw [startsWith_eq Char.isDigit cs, hw]
    cases cs with
    | nil => simp [startsWith, fractionDigits]
    | cons c cs =>
      rcases Decidable.em (c = '.') with rfl | hc
      · rw [show startsWith (· == '.') ('.' :: cs) = true from rfl, List.tail_cons,
          startsWith_eq Char.isDigit cs]
        simp [fractionDigits]
      · simp [startsWith, fractionDigits, hc]

theorem startsNumber_congr (ha : a ≠ [])
    (h : startsNumber (a ++ r) = true → (numeral (a ++ r)).length ≤ a.length) (hr : Stops s) :
    startsNumber (a ++ s) = startsNumber (a ++ r) := by
  cases hs : startsNumber (a ++ r) with
  | true => rw [startsNumber_iff, numeral_congr ha (h hs) hr, ← startsNumber_iff, hs]
  | false =>
    have hl : signLength (a ++ r) ≤ a.length := by
      rw [← signLength_congr (r := r) (s := []) ha, List.append_nil]
      exact signLength_le a
    rw [← Bool.not_eq_true] at hs ⊢
    refine mt (fun h' => ?_) hs
    rw [startsNumber_eq, signLength_congr (r := r) ha, List.drop_append_of_le_length hl,
      Bool.or_eq_true, Bool.and_eq_true] at h'
    rw [startsNumber_eq, List.drop_append_of_le_length hl, Bool.or_eq_true, Bool.and_eq_true]
    have hd : ∀ c, isStop c = true → c.isDigit = false := fun _ => isDigit_of_isStop
    generalize a.drop (signLength (a ++ r)) = b at *
    rcases h' with h' | ⟨hp, h'⟩
    · exact .inl (startsWith_mono hd hr h' r)
    · right
      cases b with
      | nil =>
        rw [List.nil_append, hr.startsWith fun c hc => beq_of_isStop rfl hc] at hp
        cases hp
      | cons c b => exact ⟨hp, startsWith_mono hd hr h' r⟩

/-! ### Enclosed texts -/

theorem getLast?_cons_of_ne {d : Char} {cs : List Char} (h : (c :: cs).getLast? = some d)
    (hc : c ≠ d) :
    cs.getLast? = some d := by
  cases cs with
  | nil => exact absurd (Option.some.inj h) hc
  | cons => exact h

theorem quoted_congr {quote : Char} (ha : '\\' ∉ a) (ht : (quoted quote (a ++ r)).closed = true)
    (hl : (a.take (quoted quote (a ++ r)).length).getLast? = some quote) :
    quoted quote (a ++ s) = quoted quote (a ++ r) := by
  induction a with
  | nil => simp at hl
  | cons c a ih =>
    obtain ⟨hb, ha⟩ := List.ne_and_not_mem_of_not_mem_cons ha
    rw [List.cons_append, quoted] at ht hl
    rw [List.cons_append, List.cons_append, quoted, quoted]
    split
    · rfl
    case isFalse hq =>
      rw [if_neg hq] at ht hl
      split
      · rfl
      case isFalse hn =>
        rw [if_neg hn, if_neg hb.symm] at ht hl
        rw [if_neg hb.symm, if_neg hb.symm]
        refine congrArg (Quoted.cons _ 1) (ih ha ht ?_)
        simp only [Quoted.cons, Nat.add_comm 1, List.take_succ_cons] at hl
        exact getLast?_cons_of_ne hl hq

theorem comment_cons {cs : List Char} (h : c = '*' → startsWith (· == '/') cs = false) :
    comment (c :: cs) = (comment cs).cons c 1 := by
  rw [comment]
  rintro tail rfl rfl
  cases h rfl

theorem comment_congr
    (h : a.take (comment (a ++ r)).length = (comment (a ++ r)).value ++ ['*', '/']) :
    comment (a ++ s) = comment (a ++ r) := by
  induction a with
  | nil => simp at h
  | cons c a ih =>
    rcases Decidable.em (c = '*' ∧ startsWith (· == '/') (a ++ r) = true) with ⟨rfl, hs⟩ | hc
    · cases a with
      | nil =>
        cases r with
        | nil => cases hs
        | cons d r =>
          obtain rfl : d = '/' := beq_iff_eq.mp hs
          simp [comment] at h
      | cons d a =>
        obtain rfl : d = '/' := beq_iff_eq.mp hs
        rfl
    · have hc : c = '*' → startsWith (· == '/') (a ++ r) = false := fun h =>
        Bool.eq_false_iff.mpr fun hs => hc ⟨h, hs⟩
      rw [List.cons_append, comment_cons hc] at h
      simp only [Scan.cons, Nat.add_comm 1, List.take_succ_cons, List.cons_append,
        List.cons.injEq, true_and] at h
      rw [List.cons_append, List.cons_append, comment_cons hc, comment_cons, ih h]
      cases a with
      | nil => simp at h
      | cons => exact hc

theorem mem_of_getLast?_take {d : Char} {n : Nat} (h : (a.take n).getLast? = some d) : d ∈ a :=
  List.mem_of_mem_take (List.mem_of_getLast? h)

theorem addressEnd_congr (ht : (addressEnd (a ++ r)).text.isSome = true) (h : ')' ∈ a) :
    addressEnd (a ++ s) = addressEnd (a ++ r) := by
  have hw := takeWhile_append_of_exists (p := isSpace) ⟨_, h, rfl⟩
  obtain ⟨d, b, -, hd⟩ := exists_drop_takeWhile (p := isSpace) ⟨_, h, rfl⟩
  unfold addressEnd at ht ⊢
  simp only [hw, hd] at ht ⊢
  split
  · rfl
  case isFalse hc =>
    rw [if_neg hc] at ht
    cases ht

theorem address_congr (ha : '\\' ∉ a) (ht : (address (a ++ r)).text.isSome = true)
    (hl : (a.take (address (a ++ r)).length).getLast? = some ')') :
    address (a ++ s) = address (a ++ r) := by
  induction a with
  | nil => simp at hl
  | cons c a ih =>
    obtain ⟨hb, ha⟩ := List.ne_and_not_mem_of_not_mem_cons ha
    have hmem := mem_of_getLast?_take hl
    rw [List.cons_append, address] at ht hl
    rw [List.cons_append, List.cons_append, address, address]
    split
    · rfl
    case isFalse hq =>
      rw [if_neg hq] at ht hl
      split
      case isTrue hs =>
        rw [if_pos hs] at ht
        exact addressEnd_congr ht hmem
      case isFalse hs =>
        rw [if_neg hs] at ht hl
        split
        case isTrue hbr =>
          rw [if_pos hbr] at ht
          cases ht
        case isFalse hbr =>
          rw [if_neg hbr, if_neg hb.symm] at ht hl
          rw [if_neg hb.symm, if_neg hb.symm]
          refine congrArg (Address.cons _ 1) (ih ha ?_ ?_)
          · simpa [Address.cons] using ht
          · simp only [Address.cons, Nat.add_comm 1, List.take_succ_cons] at hl
            exact getLast?_cons_of_ne hl hq

/-! ### Tokens -/

/-- Whether a token with this text has its closing mark, if it needs one, and is well formed. -/
def Token.isClosed (text : List Char) : Token → Bool
  | string _ => 2 ≤ text.length && text.getLast? == text.head?
  | comment content => text == '/' :: '*' :: content ++ ['*', '/']
  | address _ => text.getLast? == some ')'
  | brokenString _ => false
  | brokenAddress => false
  | _ => true

/-- What holds of percentages, dimensions and numbers holds of each token that starts with a
number. -/
theorem value_numericToken {P : Token → Prop} (percentage : ∀ x, P (.percentage x))
    (dimension : ∀ x unit, P (.dimension x unit)) (number : ∀ x, P (.number x))
    (cs : List Char) : P (numericToken cs).value := by
  fun_cases numericToken cs with
  | case1 => exact percentage _
  | case2 => exact dimension _ _
  | case3 => exact number _

theorem length_numeral_le_numericToken (cs : List Char) :
    (numeral cs).length ≤ (numericToken cs).length := by
  fun_cases numericToken cs with
  | case1 => exact Nat.le_succ _
  | case2 => exact Nat.le_add_right _ _
  | case3 => exact Nat.le_refl _

theorem numericToken_congr (hne : a ≠ []) (ha : '\\' ∉ a) (hb : '\\' ∉ r)
    (hl : (numericToken (a ++ r)).length ≤ a.length) (hr : Stops s) :
    numericToken (a ++ s) = numericToken (a ++ r) := by
  have hn := Nat.le_trans (length_numeral_le_numericToken (a ++ r)) hl
  unfold numericToken at hl ⊢
  rw [numeral_congr hne hn hr]
  generalize numeral (a ++ r) = number at *
  dsimp only at hl ⊢
  rw [List.drop_append_of_le_length hn] at hl ⊢
  rw [List.drop_append_of_le_length hn]
  have ha' : '\\' ∉ a.drop number.length := fun h => ha (List.mem_of_mem_drop h)
  have hlen := List.length_drop (i := number.length) (l := a)
  generalize a.drop number.length = b at *
  have hp : startsWith (· == '%') (b ++ s) = startsWith (· == '%') (b ++ r) := by
    refine startsWith_congr (fun c hc => beq_of_isStop rfl hc) hr ?_
    rintro h rfl
    rw [if_pos h] at hl
    dsimp only at hl
    rw [List.length_nil] at hlen
    omega
  rw [hp]
  split
  · rfl
  case isFalse h =>
    rw [if_neg h] at hl
    have hname : startsName (b ++ r) = true → (name (b ++ r)).length ≤ b.length := by
      intro hs
      rw [if_pos hs] at hl
      dsimp only at hl
      omega
    rw [startsName_congr ha' hb hname hr]
    split
    case isTrue hs => rw [name_congr ha' (hname hs) hr]
    · rfl

theorem length_name_le_nameToken (cs : List Char) : (name cs).length ≤ (nameToken cs).length := by
  unfold nameToken
  dsimp only
  split
  · split
    · dsimp only
      omega
    · exact Nat.le_succ _
  · exact Nat.le_refl _

theorem length_address_pos (hc : isSpace c = false) (cs : List Char) :
    0 < (address (c :: cs)).length := by
  rw [address]
  split
  · exact Nat.one_pos
  · rw [hc, if_neg Bool.false_ne_true]
    split
    · exact Nat.lt_of_lt_of_le Nat.one_pos (Nat.le_add_right _ _)
    · split
      · split
        · exact Nat.lt_of_lt_of_le Nat.one_pos (Nat.le_add_right _ _)
        · simp only [Address.cons]
          omega
      · simp only [Address.cons]
        omega

/-- The token of a name before an opening bracket, with which the text begins. -/
def bracketToken (name : Scan (List Char)) (cs : List Char) : Scan Token :=
  let start := 1 + (cs.tail.takeWhile isSpace).length
  let content := cs.drop start
  if Text.asciiLower name.value = ['u', 'r', 'l'] &&
      !startsWith (fun c => c == '"' || c == '\'') content then
    ⟨match (address content).text with | some text => .address text | none => .brokenAddress,
      name.length + start + (address content).length⟩
  else ⟨.function name.value, name.length + 1⟩

theorem nameToken_eq (cs : List Char) : nameToken cs =
    if startsWith (· == '(') (cs.drop (name cs).length) then
      bracketToken (name cs) (cs.drop (name cs).length)
    else ⟨.ident (name cs).value, (name cs).length⟩ := rfl

theorem length_lt_bracketToken (name : Scan (List Char)) (cs : List Char) :
    name.length < (bracketToken name cs).length := by
  fun_cases bracketToken name cs with
  | case1 =>
    dsimp only
    omega
  | case2 => exact Nat.lt_succ_self _

theorem bracketToken_cases (name : Scan (List Char)) (cs : List Char) :
    (∃ n, (bracketToken name cs).value = .function n) ∨
      (∃ t, (bracketToken name cs).value = .address t) ∨
      (bracketToken name cs).value = .brokenAddress := by
  fun_cases bracketToken name cs with
  | case1 =>
    right
    dsimp only
    split
    case h_1 t _ => exact .inl ⟨t, rfl⟩
    case h_2 => exact .inr rfl
  | case2 => exact .inl ⟨_, rfl⟩

/-- What holds of functions, addresses and names holds of each token that starts with a name. -/
theorem value_nameToken {P : Token → Prop} (function : ∀ n, P (.function n))
    (address : ∀ t, P (.address t)) (brokenAddress : P .brokenAddress) (ident : ∀ n, P (.ident n))
    (cs : List Char) : P (nameToken cs).value := by
  rw [nameToken_eq]
  split
  case isTrue =>
    rcases bracketToken_cases (name cs) (cs.drop (name cs).length) with ⟨n, hv⟩ | ⟨t, hv⟩ | hv
    · exact hv ▸ function n
    · exact hv ▸ address t
    · exact hv ▸ brokenAddress
  case isFalse => exact ident _

/-- A token does not end with its opening bracket, unless it is a function. -/
theorem bracketToken_not_last {name : Scan (List Char)} {pre cs : List Char}
    (hpre : pre.length = name.length)
    (hc : (bracketToken name cs).value.isClosed
      ((pre ++ ['(']).take (bracketToken name cs).length) = true)
    (hf : ∀ n, (bracketToken name cs).value = .function n →
      (bracketToken name cs).length < (pre ++ ['(']).length) : False := by
  have hlen : (pre ++ ['(']).length ≤ (bracketToken name cs).length := by
    have := length_lt_bracketToken name cs
    rw [List.length_append, List.length_singleton]
    omega
  rw [List.take_of_length_le hlen] at hc
  rcases bracketToken_cases name cs with ⟨n, hv⟩ | ⟨t, hv⟩ | hv
  · exact absurd (hf n hv) (Nat.not_lt_of_le hlen)
  · rw [hv] at hc
    simp [Token.isClosed] at hc
  · rw [hv] at hc
    cases hc

theorem bracketToken_congr {name : Scan (List Char)} {pre : List Char} (ha : '\\' ∉ a)
    (hpre : pre.length = name.length) (hne : ∃ d ∈ a, isSpace d = false)
    (hc : (bracketToken name ('(' :: (a ++ r))).value.isClosed
      ((pre ++ '(' :: a).take (bracketToken name ('(' :: (a ++ r))).length) = true) :
    bracketToken name ('(' :: (a ++ s)) = bracketToken name ('(' :: (a ++ r)) := by
  have hw := takeWhile_append_of_exists hne
  obtain ⟨d, b, hd, hdrop⟩ := exists_drop_takeWhile hne
  have hb : a.drop (a.takeWhile isSpace).length = d :: b := by
    have hb := hdrop []
    rwa [List.append_nil, List.append_nil] at hb
  have hb' : '\\' ∉ d :: b := fun h => ha (List.mem_of_mem_drop (hb ▸ h))
  unfold bracketToken at hc ⊢
  simp only [List.tail_cons, hw, Nat.add_comm 1, List.drop_succ_cons, hdrop] at hc ⊢
  have hq : startsWith (fun c => c == '"' || c == '\'') (d :: (b ++ s)) =
      startsWith (fun c => c == '"' || c == '\'') (d :: (b ++ r)) := rfl
  rw [hq]
  split
  case isTrue h =>
    rw [if_pos h] at hc
    cases ht : (address (d :: (b ++ r))).text with
    | none =>
      rw [ht] at hc
      cases hc
    | some text =>
      simp only [ht, Token.isClosed, beq_iff_eq] at hc
      have hadr : address (d :: b ++ s) = address (d :: b ++ r) := by
        refine address_congr hb' (by rw [List.cons_append, ht]; rfl) ?_
        have hx : (pre ++ '(' :: a).drop (name.length + ((a.takeWhile isSpace).length + 1)) =
            d :: b := by
          rw [← hpre, List.drop_length_add_append, List.drop_succ_cons, hb]
        have hpos := length_address_pos hd (b ++ r)
        rw [List.take_add, hx] at hc
        refine (List.getLast?_append_of_ne_nil _ ?_).symm.trans hc
        rw [List.cons_append]
        cases hl : (address (d :: (b ++ r))).length with
        | zero => omega
        | succ n => exact List.cons_ne_nil d _
      rw [List.cons_append, List.cons_append] at hadr
      rw [hadr, ht]
  · rfl

theorem nameToken_congr (ha : '\\' ∉ a) (hl : (nameToken (a ++ r)).length ≤ a.length)
    (hc : (nameToken (a ++ r)).value.isClosed (a.take (nameToken (a ++ r)).length) = true)
    (hlast : ∀ d, a.getLast? = some d → isSpace d = false)
    (hf : ∀ name, (nameToken (a ++ r)).value = .function name →
      (nameToken (a ++ r)).length < a.length) (hr : Stops s) :
    nameToken (a ++ s) = nameToken (a ++ r) := by
  have hn := Nat.le_trans (length_name_le_nameToken (a ++ r)) hl
  rw [nameToken_eq] at hl hc hf
  rw [nameToken_eq, nameToken_eq, name_congr ha hn hr]
  generalize name (a ++ r) = name at *
  rw [List.drop_append_of_le_length hn] at hl hc hf ⊢
  rw [List.drop_append_of_le_length hn]
  obtain ⟨pre, b, rfl, hpre⟩ : ∃ pre b, a = pre ++ b ∧ pre.length = name.length :=
    ⟨a.take name.length, a.drop name.length, (List.take_append_drop _ a).symm,
      List.length_take_of_le hn⟩
  rw [← hpre, List.drop_left] at hl hc hf ⊢
  have hne : startsWith (· == '(') (b ++ r) = true → b ≠ [] := by
    rintro h rfl
    rw [if_pos h, List.append_nil, hpre] at hl
    exact absurd hl (Nat.not_le_of_lt (length_lt_bracketToken _ _))
  rw [startsWith_congr (fun c hc => beq_of_isStop rfl hc) hr hne]
  split
  case isFalse => rfl
  case isTrue h =>
    simp only [if_pos h] at hl hc hf
    cases b with
    | nil => exact absurd rfl (hne h)
    | cons c b =>
      obtain rfl : c = '(' := beq_iff_eq.mp h
      have ha' : '\\' ∉ b := fun h => ha (List.mem_append_right _ (List.mem_cons_of_mem _ h))
      refine bracketToken_congr ha' hpre ?_ hc
      cases b with
      | nil =>
        exact (bracketToken_not_last hpre hc hf).elim
      | cons d b =>
        refine ⟨_, List.getLast_mem (List.cons_ne_nil d b), hlast _ ?_⟩
        rw [List.getLast?_append_of_ne_nil _ (List.cons_ne_nil _ _), List.getLast?_cons_cons,
          List.getLast?_eq_some_getLast (List.cons_ne_nil d b)]

/-- A token that lies within the first part of a text, has its closing mark there if it needs one,
and is not a function that ends this part. -/
structure Lies (c : Char) (a : List Char) (t : Scan Token) : Prop where
  length_le : t.length ≤ a.length + 1
  isClosed : t.value.isClosed (c :: a.take (t.length - 1)) = true
  function : ∀ name, t.value = .function name → t.length ≤ a.length

/-- A choice between two tokens, the condition and the choices of which hold on to a token that
lies within the first part. -/
theorem ite_congr_of_lies {x x' y y' : Scan Token} {p p' : Bool}
    (hp : (p = true → Lies c a x) → p' = p) (hx : p = true → Lies c a x → x' = x)
    (hy : p = false → Lies c a y → y' = y) (h : Lies c a (if p then x else y)) :
    (if p' then x' else y') = if p then x else y := by
  cases p with
  | true =>
    rw [hp fun _ => h]
    exact hx rfl h
  | false =>
    rw [hp fun h => absurd h Bool.false_ne_true]
    exact hy rfl h

theorem and_congr_of {x y z : Bool} (h : x = true → y = z) : (x && y) = (x && z) := by
  cases x with
  | false => rfl
  | true => exact h rfl

theorem signToken_congr (ha : '\\' ∉ a) (hb : '\\' ∉ r) (h : Lies c a (signToken c (a ++ r)))
    (hr : Stops s) : signToken c (a ++ s) = signToken c (a ++ r) := by
  have hmark : ∀ m, isStop m = false → (startsWith (· == m) (a ++ r) = true → a ≠ []) →
      startsWith (· == m) (a ++ s) = startsWith (· == m) (a ++ r) := fun m hm h =>
    startsWith_congr (fun c hc => beq_of_isStop hm hc) hr h
  refine ite_congr_of_lies (fun hl => and_congr_of fun h₁ => hmark '=' rfl ?_) (fun _ _ => rfl)
    (fun _ => ite_congr_of_lies (fun hl => and_congr_of fun h₁ => ?_) (fun h₁ hl => ?_)
      fun _ => ite_congr_of_lies (fun hl => and_congr_of fun h₁ => ?_) (fun _ hl => ?_)
        fun _ => ite_congr_of_lies (fun hl => and_congr_of fun h₁ => hmark '*' rfl ?_)
          (fun h₁ hl => ?_)
          fun _ => ite_congr_of_lies (fun hl => and_congr_of fun h₁ => ?_) (fun _ _ => rfl)
            fun _ _ => rfl) h
  · rintro hs rfl
    have := (hl (by rw [h₁, hs]; rfl)).length_le
    simp at this
  · have hname : (startsName (a ++ r) || startsWith (fun c => c.isDigit || c == '-') (a ++ r)) =
        true → (name (a ++ r)).length ≤ a.length := by
      intro hs
      have := (hl (by rw [h₁, hs]; rfl)).length_le
      dsimp only at this
      omega
    rw [startsName_congr ha hb (fun hs => hname (by rw [hs]; rfl)) hr,
      startsWith_congr (fun c hc => ?_) hr ?_]
    · rintro hs rfl
      have hlen := hname (by rw [hs, Bool.or_true])
      cases r with
      | nil => cases hs
      | cons d r =>
        have hd : isNameChar d = true := by
          change (d.isDigit || d == '-') = true at hs
          rw [isNameChar, Bool.or_assoc, hs, Bool.or_true]
        rw [List.nil_append, name_cons hd] at hlen
        simp [Scan.cons] at hlen
    · rw [isDigit_of_isStop hc, beq_of_isStop rfl hc]
      rfl
  · have hlen : (name (a ++ r)).length ≤ a.length := by
      have := hl.length_le
      dsimp only at this
      omega
    rw [name_congr ha hlen hr, startsName_congr ha hb (fun _ => hlen) hr]
  · refine startsName_congr ha hb (fun hs => ?_) hr
    have := (hl (by rw [h₁, hs]; rfl)).length_le
    dsimp only at this
    omega
  · have hlen : (name (a ++ r)).length ≤ a.length := by
      have := hl.length_le
      dsimp only at this
      omega
    rw [name_congr ha hlen hr]
  · rintro hs rfl
    have := (hl (by rw [h₁, hs]; rfl)).length_le
    dsimp only [List.length_nil] at this
    omega
  · have hlen := hl.length_le
    have hclosed := hl.isClosed
    cases a with
    | nil =>
      dsimp only [List.length_nil] at hlen
      omega
    | cons d a =>
      rw [Token.isClosed, beq_iff_eq] at hclosed
      dsimp only [List.cons_append, List.tail_cons] at hclosed
      rw [show 2 + (comment (a ++ r)).length - 1 = (comment (a ++ r)).length + 1 by omega,
        List.take_succ_cons] at hclosed
      injection hclosed with _ hclosed
      injection hclosed with _ hclosed
      rw [List.cons_append, List.cons_append, List.tail_cons, List.tail_cons,
        comment_congr hclosed]
  · rw [decide_eq_decide]
    refine take_eq_iff ['!', '-', '-'] (by simp [isStop, isSpace, isNewline]) hr fun hs => ?_
    exact Nat.le_of_succ_le_succ (hl (Bool.and_eq_true_iff.mpr ⟨h₁, decide_eq_true hs⟩)).length_le

theorem nextToken_congr (hc : c ≠ '\\') (ha : '\\' ∉ a) (hb : '\\' ∉ r)
    (hlast : ∀ d, (c :: a).getLast? = some d → isSpace d = false)
    (h : Lies c a (nextToken c (a ++ r))) (hr : Stops s) :
    nextToken c (a ++ s) = nextToken c (a ++ r) := by
  have hca : '\\' ∉ c :: a := List.not_mem_cons_of_ne_of_not_mem hc.symm ha
  refine ite_congr_of_lies (fun _ => rfl) (fun h₁ hl => ?_)
    (fun _ => ite_congr_of_lies (fun _ => rfl) (fun h₂ hl => ?_)
      fun _ => ite_congr_of_lies (fun hl => ?_) (fun _ hl => ?_)
        fun _ => ite_congr_of_lies (fun hl => and_congr_of fun h₁ => ?_) (fun _ _ => rfl)
          fun _ => ite_congr_of_lies (fun hl => ?_) (fun hs hl => ?_)
            fun _ hl => signToken_congr ha hb hl hr) h
  · have hne : ∃ d ∈ a, isSpace d = false := by
      cases a with
      | nil => 
        rw [hlast c rfl] at h₁
        cases h₁
      | cons d a => exact ⟨_, List.getLast_mem (List.cons_ne_nil d a), hlast _
          (List.getLast?_eq_some_getLast (List.cons_ne_nil d a))⟩
    rw [takeWhile_append_of_exists hne, takeWhile_append_of_exists hne]
  · obtain ⟨-, hclosed, -⟩ := hl
    dsimp only at hclosed
    cases hq : (quoted c (a ++ r)).closed with
    | false =>
      rw [hq] at hclosed
      cases hclosed
    | true =>
      rw [hq, if_pos rfl, Token.isClosed, Bool.and_eq_true, decide_eq_true_eq, beq_iff_eq,
        Nat.add_comm 1, Nat.add_sub_cancel] at hclosed
      obtain ⟨hlen, hend⟩ := hclosed
      rw [quoted_congr ha hq]
      cases ht : a.take (quoted c (a ++ r)).length with
      | nil =>
        rw [ht] at hlen
        simp at hlen
      | cons d ds =>
        rw [ht] at hend
        exact hend
  · refine startsNumber_congr (a := c :: a) (List.cons_ne_nil _ _) (fun hs => ?_) hr
    exact Nat.le_trans (length_numeral_le_numericToken _) (hl hs).length_le
  · exact numericToken_congr (a := c :: a) (List.cons_ne_nil _ _) hca hb hl.length_le hr
  · rw [decide_eq_decide]
    refine take_eq_iff ['-', '>'] (by simp [isStop, isSpace, isNewline]) hr fun hs => ?_
    exact Nat.le_of_succ_le_succ (hl (Bool.and_eq_true_iff.mpr ⟨h₁, decide_eq_true hs⟩)).length_le
  · refine startsName_congr (a := c :: a) hca hb (fun hs => ?_) hr
    exact Nat.le_trans (length_name_le_nameToken _) (hl hs).length_le
  · have hpos : 0 < (nameToken (c :: (a ++ r))).length := by
      refine Nat.lt_of_lt_of_le ?_ (length_name_le_nameToken _)
      rw [name_cons (isNameChar_of_startsName hc hs)]
      simp only [Scan.cons]
      omega
    obtain ⟨hlen, hclosed, hf⟩ := hl
    refine nameToken_congr (a := c :: a) hca hlen ?_ hlast (fun n hn => ?_) hr
    · rwa [← List.take_succ_cons, Nat.sub_add_cancel hpos] at hclosed
    · exact Nat.lt_succ_of_le (hf n hn)

end ModularScale.Css
