import ModularScale.Proofs.Css.Gaps
import ModularScale.Proofs.Css.NumberValue
import ModularScale.Proofs.Css.Tails

/-! # Written lengths

A text is a length if a number with the name of a unit directly behind it is written there, or a
number alone whose value in single precision is zero, and nothing else is but white space and
comments.
-/

namespace ModularScale.Css

open Components

variable {c d : Char} {cs ds r u word written unit : List Char} {n : Nat} {x : Length}

/-! ### Names -/

theorem spaceLength_cons_cons (c d : Char) (a b : List Char) :
    spaceLength (c :: d :: a) = spaceLength (c :: d :: b) := by
  rcases Decidable.em (c = '\r' ∧ d = '\n') with ⟨rfl, rfl⟩ | h
  · rfl
  · unfold spaceLength
    grind

theorem spaceLength_take (h : spaceLength cs ≤ n) : spaceLength (cs.take n) = spaceLength cs := by
  rcases cs with _ | ⟨c, _ | ⟨d, cs⟩⟩ <;> rcases n with _ | _ | n
  · rfl
  · rfl
  · rfl
  · exact (Nat.le_zero.mp h).symm
  · rfl
  · rfl
  · exact (Nat.le_zero.mp h).symm
  · rw [List.take_succ_cons, List.take_zero]
    unfold spaceLength at h ⊢
    grind
  · exact spaceLength_cons_cons c d _ _

theorem length_escape_pos (c : Char) (cs : List Char) : 0 < (escape (c :: cs)).length := by
  unfold escape
  dsimp only
  split
  case isTrue hc =>
    rw [List.take_succ_cons, List.takeWhile_cons_of_pos hc]
    exact Nat.lt_of_lt_of_le (Nat.succ_pos _) (Nat.le_add_right _ _)
  case isFalse => exact Nat.one_pos

/-- An escape is what its own text is read as. -/
theorem escape_take (h : (escape cs).length ≤ n) : escape (cs.take n) = escape cs := by
  cases cs with
  | nil => rw [List.take_nil]
  | cons c cs =>
    cases n with
    | zero => exact absurd (length_escape_pos c cs) (Nat.not_lt.mpr h)
    | succ n =>
      unfold escape at h ⊢
      rw [List.take_succ_cons]
      dsimp only at h ⊢
      split
      case isFalse => rfl
      case isTrue hc =>
        rw [if_pos hc] at h
        dsimp only at h
        rw [← List.take_succ_cons]
        have hd : (((c :: cs).take (n + 1)).take 6).takeWhile isHexDigit =
            ((c :: cs).take 6).takeWhile isHexDigit := by
          rw [List.take_take, Nat.min_comm, ← List.take_take, ← List.take_takeWhile]
          exact List.take_of_length_le (by omega)
        rw [hd, List.drop_take, spaceLength_take (by omega)]

/-- A name is what its own text is read as. -/
theorem name_take (cs : List Char) : name (cs.take (name cs).length) = name cs := by
  fun_induction name cs with
  | case1 => exact name_nil
  | case2 c cs hc ih =>
    rw [Scan.cons, Nat.add_comm 1, List.take_succ_cons, name_cons hc, ih, Scan.cons, Nat.add_comm 1]
  | case3 c cs hc hb escaped ih =>
    obtain ⟨rfl, hn⟩ := by simpa using hb
    have he : escape (cs.take (escaped.length + (name (cs.drop escaped.length)).length)) =
        escaped := escape_take (Nat.le_add_right _ _)
    have hn' : ∀ k, startsWith isNewline (cs.take k) = false := fun k => by
      cases cs with
      | nil => rw [List.take_nil]; rfl
      | cons c cs =>
        cases k with
        | zero => rfl
        | succ k => exact hn
    rw [Scan.cons, Nat.add_assoc, Nat.add_comm 1, List.take_succ_cons, name_escape (hn' _), he,
      List.drop_take, Nat.add_sub_cancel_left, ih, Scan.cons, Nat.add_comm 1, Nat.add_right_comm]
  | case4 => exact name_nil

/-! ### Gaps behind names -/

theorem WritesGaps.tail (h : WritesGaps (c :: cs)) (hc : isSpace c = true) : WritesGaps cs := by
  cases h with
  | space _ h => exact h
  | comment => cases hc

theorem WritesLastGaps.tail (h : WritesLastGaps (c :: cs)) (hc : isSpace c = true) :
    WritesLastGaps cs := by
  generalize hx : c :: cs = x at h
  cases h with
  | closed h => exact .closed (WritesGaps.tail (hx ▸ h) hc)
  | @opened before content h hcontent =>
    cases before with
    | nil =>
      obtain ⟨rfl, -⟩ := List.cons.inj hx
      cases hc
    | cons d before =>
      obtain ⟨rfl, rfl⟩ := List.cons.inj hx
      exact .opened (h.tail hc) hcontent

theorem WritesLastGaps.drop {v w : List Char} (h : WritesLastGaps (v ++ w)) (hv : Spaces v) :
    WritesLastGaps w := by
  induction v with
  | nil => exact h
  | cons c v ih =>
    have hc := List.forall_mem_cons.mp hv
    exact ih (h.tail hc.1) hc.2

/-- Gaps start with white space or a slash. -/
theorem WritesLastGaps.not_starts {p : Char → Bool} (h : WritesLastGaps r)
    (hp : [' ', '\t', '\n', '\r', '\x0c', '/'].all (fun c => !p c) = true) :
    startsWith p r = false := by
  have hc : ∀ c ∈ [' ', '\t', '\n', '\r', '\x0c', '/'], p c = false := fun c hc =>
    Bool.not_eq_true' _ ▸ List.all_eq_true.mp hp c hc
  have hgaps : ∀ {cs}, WritesGaps cs → startsWith p cs = false := fun h => by
    cases h with
    | nil => rfl
    | space hs =>
      simp only [isSpace, isNewline, Bool.or_eq_true, beq_iff_eq] at hs
      exact hc _ (by rcases hs with (rfl | rfl) | (rfl | rfl) | rfl <;> decide)
    | comment => exact hc '/' (by decide)
  cases h with
  | closed h => exact hgaps h
  | opened h => exact startsWith_append (hgaps h) (hc '/' (by decide))

theorem WritesLastGaps.ne_of_cons {d : Char} (h : WritesLastGaps (c :: r))
    (hd : d ∉ [' ', '\t', '\n', '\r', '\x0c', '/']) : c ≠ d := by
  rintro rfl
  have hp : [' ', '\t', '\n', '\r', '\x0c', '/'].all (fun e => !(e == c)) = true := by
    rw [List.all_eq_true]
    intro e he
    rw [Bool.not_eq_true', beq_eq_false_iff_ne]
    rintro rfl
    exact hd he
  have hs : (c == c) = false := h.not_starts (p := (· == c)) hp
  rw [beq_self_eq_true] at hs
  cases hs

theorem WritesLastGaps.name_eq (h : WritesLastGaps r) : name r = ⟨[], 0⟩ := by
  cases r with
  | nil => exact name_nil
  | cons c r =>
    have hn : startsWith isNameChar (c :: r) = false := h.not_starts (by decide)
    exact name_stop hn (h.ne_of_cons (by decide)) r

theorem WritesLastGaps.startsName_eq (h : WritesLastGaps r) : startsName r = false := by
  cases r with
  | nil => rfl
  | cons c r =>
    rw [startsName_cons (h.ne_of_cons (by decide)) (h.ne_of_cons (by decide))]
    exact h.not_starts (p := isNameStart) (by decide)

theorem WritesLastGaps.endsNumber (h : WritesLastGaps r) : EndsNumber r := by
  refine ⟨h.not_starts (by decide), ?_⟩
  cases r with
  | nil => rfl
  | cons c r =>
    have he : c ≠ 'e' := h.ne_of_cons (by decide)
    have hE : c ≠ 'E' := h.ne_of_cons (by decide)
    rw [exponentPart_cons, if_neg]
    simp [he, hE]

theorem exists_spaceLength_append (a r : List Char) : ∃ v w, r = v ++ w ∧ Spaces v ∧
    spaceLength (a ++ r) = spaceLength a + v.length ∧ (v = [] ∨ spaceLength a = a.length) := by
  rcases a with _ | ⟨c, _ | ⟨d, a⟩⟩
  · refine ⟨r.take (spaceLength r), r.drop (spaceLength r), (List.take_append_drop _ r).symm,
      fun c hc => isSpace_of_mem_take_spaceLength hc, ?_, .inr rfl⟩
    rw [List.length_take, Nat.min_eq_left (length_spaceLength_le r)]
    exact (Nat.zero_add _).symm
  · rcases Classical.em (c = '\r' ∧ ∃ w, r = '\n' :: w) with ⟨rfl, w, rfl⟩ | h
    · exact ⟨['\n'], w, rfl, List.forall_mem_singleton.mpr rfl, rfl, .inr rfl⟩
    · refine ⟨[], r, rfl, List.forall_mem_nil _, ?_, .inl rfl⟩
      unfold spaceLength
      grind
  · exact ⟨[], r, rfl, List.forall_mem_nil _, spaceLength_cons_cons c d _ _, .inl rfl⟩

/-- The space behind an escape may close it. -/
theorem escape_append_gaps (hne : cs ≠ []) (hr : WritesLastGaps r) : ∃ v w, r = v ++ w ∧
    Spaces v ∧ escape (cs ++ r) = ⟨(escape cs).value, (escape cs).length + v.length⟩ ∧
      (v = [] ∨ (escape cs).length = cs.length) := by
  obtain ⟨c, cs, rfl⟩ := List.exists_cons_of_ne_nil hne
  have hstop : startsWith isHexDigit r = false := hr.not_starts (by decide)
  rw [List.cons_append]
  unfold escape
  dsimp only
  split
  case isFalse => exact ⟨[], r, rfl, List.forall_mem_nil _, rfl, .inl rfl⟩
  case isTrue hc =>
    rw [← List.cons_append, ← List.take_takeWhile, takeWhile_append_stop hstop, List.take_takeWhile]
    have hle : (((c :: cs).take 6).takeWhile isHexDigit).length ≤ (c :: cs).length :=
      Nat.le_trans (List.takeWhile_prefix _).length_le (List.take_prefix _ _).length_le
    generalize ((c :: cs).take 6).takeWhile isHexDigit = ds at *
    rw [List.drop_append_of_le_length hle]
    obtain ⟨v, w, hrv, hv, hs, hend⟩ := exists_spaceLength_append ((c :: cs).drop ds.length) r
    refine ⟨v, w, hrv, hv, ?_, hend.imp id fun h => ?_⟩
    · rw [hs, Nat.add_assoc]
    · dsimp only
      rw [h, List.length_drop]
      omega

/-- A name goes on into gaps only if an escape at its end is closed by a space. -/
theorem name_append_gaps (hl : (name u).length = u.length) (hu : replacement ∉ (name u).value)
    (hr : WritesLastGaps r) : ∃ v w, r = v ++ w ∧ Spaces v ∧
      name (u ++ r) = ⟨(name u).value, u.length + v.length⟩ := by
  fun_induction name u with
  | case1 => exact ⟨[], r, rfl, List.forall_mem_nil _, hr.name_eq⟩
  | case2 c cs hc ih =>
    rw [Scan.cons, List.length_cons, Nat.add_comm 1] at hl
    obtain ⟨v, w, hr, hv, hn⟩ := ih (Nat.succ.inj hl) fun hm => hu (List.mem_cons_of_mem _ hm)
    refine ⟨v, w, hr, hv, ?_⟩
    rw [List.cons_append, name_cons hc, hn, Scan.cons, List.length_cons, Scan.cons,
      Nat.add_comm 1, Nat.add_right_comm]
  | case3 c cs hc hb escaped ih =>
    obtain ⟨rfl, hn⟩ := by simpa using hb
    have hne : cs ≠ [] := by
      rintro rfl
      exact hu List.mem_cons_self
    have hnr : startsWith isNewline (cs ++ r) = false := by
      obtain ⟨d, ds, rfl⟩ := List.exists_cons_of_ne_nil hne
      exact hn
    obtain ⟨v, w, hrv, hv, he, hend⟩ := escape_append_gaps hne hr
    change escape (cs ++ r) = ⟨escaped.value, escaped.length + v.length⟩ at he
    have hle : escaped.length ≤ cs.length := length_escape_le cs
    rw [Scan.cons, List.length_cons] at hl
    dsimp only at hl
    rcases hend with rfl | hend
    · have hlen : (name (cs.drop escaped.length)).length = (cs.drop escaped.length).length := by
        rw [List.length_drop]
        omega
      obtain ⟨v, w', hw, hv, hname⟩ := ih hlen fun hm => hu (List.mem_cons_of_mem _ hm)
      refine ⟨v, w', hw, hv, ?_⟩
      rw [List.cons_append, name_escape hnr, he, List.length_nil, Nat.add_zero,
        List.drop_append_of_le_length hle, hname, List.length_drop]
      simp only [Scan.cons, List.length_cons, Scan.mk.injEq, true_and]
      omega
    · have hescaped : escaped.length = cs.length := hend
      refine ⟨v, w, hrv, hv, ?_⟩
      rw [hrv] at hr hnr he ⊢
      rw [List.cons_append, name_escape hnr, he, hescaped, ← List.drop_drop, List.drop_left,
        List.drop_left, (hr.drop hv).name_eq, List.drop_length, name_nil]
      simp only [Scan.cons, List.length_cons, Scan.mk.injEq, true_and]
      omega
  | case4 => cases hl

/-! ### Units -/

/-- The name of a unit in lower case. -/
def LengthUnit.spelling : LengthUnit → List Char
  | pixels => ['p', 'x']
  | ems => ['e', 'm']
  | rootEms => ['r', 'e', 'm']

theorem LengthUnit.ofName?_eq_some_iff {v : LengthUnit} :
    LengthUnit.ofName? written = some v ↔ Text.asciiLower written = v.spelling := by
  constructor
  · intro h
    have hlist : ∀ {s : String}, String.ofList (Text.asciiLower written) = s →
        Text.asciiLower written = s.toList := fun he => by rw [← he, String.toList_ofList]
    unfold ofName? at h
    split at h
    case h_1 he => exact Option.some.inj h ▸ hlist he
    case h_2 he => exact Option.some.inj h ▸ hlist he
    case h_3 he => exact Option.some.inj h ▸ hlist he
    case h_4 => cases h
  · intro h
    rw [ofName?, h]
    cases v <;> rfl

/-- A name of letters starts with a letter or with an escape. -/
theorem exists_head (h : (name cs).value = d :: ds) (hd : ∀ c ∈ d :: ds, c.isAlpha = true) :
    ∃ c tail, cs = c :: tail ∧ (isNameStart c = true ∧ (name tail).value = ds ∨
      c = '\\' ∧ startsWith isNewline tail = false) := by
  cases cs with
  | nil =>
    rw [name_nil] at h
    cases h
  | cons c cs =>
    refine ⟨c, cs, rfl, ?_⟩
    rw [name] at h
    split at h
    case isTrue hc =>
      obtain ⟨hcd, htail⟩ := List.cons.inj h
      have hne : c ≠ '\x00' := by
        rintro rfl
        cases hcd ▸ hd d List.mem_cons_self
      rw [replaceNul, if_neg hne] at hcd
      have ha := hcd ▸ hd d List.mem_cons_self
      exact .inl ⟨by rw [isNameStart, ha]; rfl, htail⟩
    case isFalse =>
      split at h
      case isTrue hb => exact .inr (by simpa using hb)
      case isFalse => cases h

/-- The name of a unit is no part of a number before it. -/
structure StartsUnit (cs : List Char) : Prop where
  ends : EndsNumber cs
  no_percent : startsWith (· == '%') cs = false
  name : startsName cs = true

theorem signedDigits_of_head (h : isNameStart c = true ∨ c = '\\') (cs : List Char) :
    signedDigits (c :: cs) = [] := by
  have hc : ∀ {e : Char}, isNameStart e = false → e ≠ '\\' → c ≠ e := fun he hb => by
    rcases h with h | rfl
    · exact isNameStart_ne h he
    · exact hb.symm
  have hd : c.isDigit = false := by
    rcases h with h | rfl
    · exact isDigit_of_isNameStart h
    · rfl
  have hs : signLength (c :: cs) = 0 := by
    unfold signLength
    split
    case h_1 he => exact absurd (List.cons.inj he).1 (hc rfl (by decide))
    case h_2 he => exact absurd (List.cons.inj he).1 (hc rfl (by decide))
    case h_3 => rfl
  have hd : ¬c.isDigit = true := hd ▸ Bool.false_ne_true
  rw [signedDigits, hs, List.drop_zero, List.takeWhile_cons_of_neg hd]

theorem startsUnit {v : LengthUnit} (hn : name unit = ⟨written, unit.length⟩)
    (hv : Text.asciiLower written = v.spelling) (r : List Char) : StartsUnit (unit ++ r) := by
  have halpha : ∀ c ∈ written, c.isAlpha = true := fun c hc =>
    isAlpha_of_ofName? (by rw [LengthUnit.ofName?_eq_some_iff.mpr hv]; rfl) hc
  obtain ⟨d, d', ds, rfl⟩ : ∃ d d' ds, written = d :: d' :: ds := by
    have hl := congrArg List.length hv
    rcases written with _ | ⟨d, _ | ⟨d', ds⟩⟩
    · cases v <;> cases hl
    · cases v <;> cases hl
    · exact ⟨d, d', ds, rfl⟩
  have hvalue : (name unit).value = d :: d' :: ds := by rw [hn]
  obtain ⟨c, tail, rfl, ⟨hc, htail⟩ | ⟨rfl, hnl⟩⟩ := exists_head hvalue halpha
  · have hdigits : signedDigits (tail ++ r) = [] := by
      obtain ⟨c', tail, rfl, h⟩ := exists_head htail fun c hc =>
        halpha c (List.mem_cons_of_mem d hc)
      exact signedDigits_of_head (h.imp And.left And.left) _
    refine ⟨⟨?_, ?_⟩, ?_, ?_⟩
    · exact Bool.or_eq_false_iff.mpr ⟨isDigit_of_isNameStart hc,
        beq_eq_false_iff_ne.mpr (isNameStart_ne hc rfl)⟩
    · rw [List.cons_append, exponentPart_cons, hdigits, List.isEmpty_nil, Bool.not_true,
        Bool.and_false, if_neg Bool.false_ne_true]
    · exact beq_eq_false_iff_ne.mpr (isNameStart_ne hc rfl)
    · rw [List.cons_append, startsName_cons (isNameStart_ne hc rfl) (isNameStart_ne hc rfl)]
      exact hc
  · have hne : tail ≠ [] := by
      rintro rfl
      rw [name_escape rfl] at hvalue
      cases (List.cons.inj hvalue).1 ▸ halpha d List.mem_cons_self
    obtain ⟨c, tail, rfl⟩ := List.exists_cons_of_ne_nil hne
    exact ⟨⟨rfl, rfl⟩, rfl, congrArg not hnl⟩

/-! ### Lengths -/

/-- The lengths that a text may write: a number directly before the name of a unit, in which letters
of both cases and escapes may stand, or a number alone if its value is zero. -/
inductive WritesLength : Length → List Char → Prop
  | dimension {y : Numeral} {number written unit : List Char} {v : LengthUnit} :
    WritesNumber y number → name unit = ⟨written, unit.length⟩ →
    Text.asciiLower written = v.spelling → WritesLength ⟨Css.value y, v⟩ (number ++ unit)
  | zero {y : Numeral} {number : List Char} : WritesNumber y number → (Css.value y == 0) = true →
    WritesLength ⟨0, .pixels⟩ number

theorem length_name_pos_of_startsName (h : startsName cs = true) : 0 < (name cs).length := by
  cases cs with
  | nil => cases h
  | cons c cs =>
    by_cases hc : c = '\\'
    · subst hc
      rw [name_escape (Bool.not_eq_true' _ ▸ h), Scan.cons]
      dsimp only
      omega
    · exact length_name_pos hc h

theorem startsNumber_of_ofToken? (h : Length.ofToken? (nextToken c cs).value = some x) :
    startsNumber (c :: cs) = true := by
  rcases nextToken_gap_or_numeric c cs with ⟨-, hv⟩ | hs | ⟨rfl, hs⟩ | ⟨-, hn⟩
  · rw [hv] at h
    cases h
  · exact hs
  · obtain ⟨d, cs, rfl⟩ := List.exists_cons_of_ne_nil (show cs ≠ [] by rintro rfl; cases hs)
    obtain rfl : d = '*' := beq_iff_eq.mp hs
    cases h
  · revert h hn
    cases (nextToken c cs).value <;> simp [Length.ofToken?, Token.isNumeric]

/-- A token that is a length has a text that writes it. -/
theorem writes_of_ofToken? (h : Length.ofToken? (nextToken c cs).value = some x) :
    WritesLength x ((c :: cs).take (nextToken c cs).length) := by
  have hs := startsNumber_of_ofToken? h
  have hw := writes_numeral hs
  rw [nextToken_of_startsNumber hs] at h ⊢
  unfold numericToken at h ⊢
  dsimp only at h ⊢
  split at h
  case isTrue => cases h
  case isFalse hp =>
    rw [if_neg hp]
    split at h
    case isTrue hn =>
      obtain ⟨v, hv, rfl⟩ := Option.map_eq_some_iff.mp h
      have hname : ∀ cs, name (cs.take (name cs).length) =
          ⟨(name cs).value, (cs.take (name cs).length).length⟩ := fun cs => by
        rw [name_take, List.length_take, Nat.min_eq_left (length_name_le cs)]
      rw [if_pos hn, List.take_add]
      exact .dimension hw (hname _) (LengthUnit.ofName?_eq_some_iff.mp hv)
    case isFalse hn =>
      rw [if_neg hn]
      unfold Length.ofToken? at h
      dsimp only at h
      split at h
      case isTrue hz => exact Option.some.inj h ▸ .zero hw hz
      case isFalse => cases h

theorem numericToken_unit {y : Numeral} {number : List Char}
    (hy : WritesNumber y number) (hs : StartsUnit (unit ++ r)) :
    numericToken (number ++ (unit ++ r)) = ⟨.dimension y (name (unit ++ r)).value,
      number.length + (name (unit ++ r)).length⟩ := by
  unfold numericToken
  rw [numeral_append hy hs.ends]
  dsimp only
  rw [List.drop_left, hs.no_percent, if_neg Bool.false_ne_true, hs.name, if_pos rfl]

/-- A token whose text writes a length is this length. -/
theorem ofToken?_of_writes (h : WritesLength x word) (hw : c :: cs = word ++ r)
    (hl : (nextToken c cs).length = word.length) :
    Length.ofToken? (nextToken c cs).value = some x := by
  cases h with
  | @dimension y number written unit v hy hn hv =>
    rw [List.append_assoc] at hw
    have hs : startsNumber (c :: cs) = true := hw ▸ startsNumber_of_writes hy _
    rw [nextToken_of_startsNumber hs, hw, numericToken_unit hy (startsUnit hn hv r)] at hl ⊢
    have hlen : (name (unit ++ r)).length = unit.length := by
      rw [List.length_append] at hl
      exact Nat.add_left_cancel hl
    have hname := name_take (unit ++ r)
    rw [hlen, List.take_left, hn] at hname
    rw [Length.ofToken?, ← hname, LengthUnit.ofName?_eq_some_iff.mpr hv]
    rfl
  | @zero y _ hy hz =>
    have hs : startsNumber (c :: cs) = true := hw ▸ startsNumber_of_writes hy _
    rw [nextToken_of_startsNumber hs, hw] at hl ⊢
    have hne : word ≠ [] := by
      rintro rfl
      cases startsNumber_of_writes hy []
    have hle : (numeral (word ++ r)).length ≤ word.length :=
      hl ▸ length_numeral_le_numericToken _
    have hnumeral : numeral (word ++ r) = ⟨y, word.length⟩ := by
      rw [← numeral_congr hne hle stops_nil]
      exact numeral_append hy ⟨rfl, rfl⟩
    unfold numericToken at hl ⊢
    rw [hnumeral] at hl ⊢
    dsimp only at hl ⊢
    rw [List.drop_left] at hl ⊢
    split at hl
    case isTrue => exact absurd hl (Nat.succ_ne_self _)
    case isFalse hp =>
      split at hl
      case isTrue hn =>
        have := length_name_pos_of_startsName hn
        exact absurd hl (Nat.ne_of_gt (Nat.lt_add_of_pos_right this))
      case isFalse hn =>
        rw [if_neg hp, if_neg hn]
        exact if_pos hz

theorem length_nextToken_pos_of_startsNumber (h : startsNumber (c :: cs) = true) :
    0 < (nextToken c cs).length := by
  rw [nextToken_of_startsNumber h]
  exact Nat.lt_of_lt_of_le (length_numeral_pos h) (length_numeral_le_numericToken _)

theorem tokens_of_startsNumber (h : startsNumber cs = true) : tokens cs =
    ⟨(numericToken cs).value, cs.take (numericToken cs).length, 0⟩ ::
      tokens (cs.drop (numericToken cs).length) := by
  cases cs with
  | nil => cases h
  | cons c cs =>
    have hpos := length_nextToken_pos_of_startsNumber h
    rw [tokens_cons, ← List.take_cons hpos, ← nextToken_of_startsNumber h]
    obtain ⟨n, hn⟩ := Nat.exists_eq_succ_of_ne_zero (Nat.ne_of_gt hpos)
    rw [hn, List.drop_succ_cons]
    rfl

theorem WritesLength.startsNumber (h : WritesLength x word) (r : List Char) :
    startsNumber (word ++ r) = true := by
  cases h with
  | dimension hy =>
    rw [List.append_assoc]
    exact startsNumber_of_writes hy _
  | zero hy => exact startsNumber_of_writes hy _

/-- The first token of a text is a length just if its text writes one. -/
theorem ofToken?_first_iff (h : tokens cs = l :: ls) :
    Length.ofToken? l.token = some x ↔ WritesLength x l.text := by
  cases cs with
  | nil =>
    rw [tokens_nil] at h
    cases h
  | cons c cs =>
    rw [tokens_cons] at h
    obtain ⟨rfl, -⟩ := List.cons.inj h
    dsimp only
    have htext : startsNumber (c :: cs) = true →
        c :: cs.take ((nextToken c cs).length - 1) = (c :: cs).take (nextToken c cs).length :=
      fun hs => (List.take_cons (length_nextToken_pos_of_startsNumber hs)).symm
    constructor
    · intro hx
      rw [htext (startsNumber_of_ofToken? hx)]
      exact writes_of_ofToken? hx
    · intro hw
      have hs : startsNumber (c :: cs) = true := by
        have hs := hw.startsNumber (cs.drop ((nextToken c cs).length - 1))
        rwa [List.cons_append, List.take_append_drop] at hs
      rw [htext hs] at hw
      refine ofToken?_of_writes hw (List.take_append_drop _ _).symm ?_
      exact (List.length_take_of_le (length_nextToken_le c cs)).symm

/-- A number is read up to the gaps behind it. -/
theorem tokens_number_append_gaps {y : Numeral} {number : List Char} (hy : WritesNumber y number)
    (hr : WritesLastGaps r) : tokens (number ++ r) = ⟨.number y, number, 0⟩ :: tokens r := by
  have hpercent : startsWith (· == '%') r = false := hr.not_starts (by decide)
  have ht : numericToken (number ++ r) = ⟨.number y, number.length⟩ := by
    unfold numericToken
    rw [numeral_append hy hr.endsNumber]
    dsimp only
    rw [List.drop_left, hpercent, if_neg Bool.false_ne_true, hr.startsName_eq,
      if_neg Bool.false_ne_true]
  rw [tokens_of_startsNumber (startsNumber_of_writes hy _), ht, List.take_left, List.drop_left]

/-- A length is read up to the gaps behind it. -/
theorem exists_token_append_gaps (h : WritesLength x word) (hr : WritesLastGaps r) : ∃ l v w,
    r = v ++ w ∧ Spaces v ∧ tokens (word ++ r) = l :: tokens w ∧
      Length.ofToken? l.token = some x := by
  cases h with
  | @dimension y number written unit v hy hn hv =>
    have hname : LengthUnit.ofName? written = some v := LengthUnit.ofName?_eq_some_iff.mpr hv
    have hu : replacement ∉ (name unit).value := by
      rw [hn]
      intro hm
      cases isAlpha_of_ofName? (by rw [hname]; rfl) hm
    obtain ⟨closing, w, hrw, hspaces, hread⟩ := name_append_gaps (by rw [hn]) hu hr
    rw [hn] at hread
    have hl : number.length + (unit.length + closing.length) =
        (number ++ (unit ++ closing)).length := by
      rw [List.length_append, List.length_append]
    refine ⟨⟨.dimension y written, number ++ (unit ++ closing), 0⟩, closing, w, hrw, hspaces, ?_,
      ?_⟩
    · rw [List.append_assoc, tokens_of_startsNumber (startsNumber_of_writes hy _),
        numericToken_unit hy (startsUnit hn hv _), hread, hrw, ← List.append_assoc unit,
        ← List.append_assoc number]
      dsimp only
      rw [hl, List.take_left, List.drop_left]
    · rw [Length.ofToken?, hname]
      rfl
  | @zero y _ hy hz =>
    exact ⟨⟨.number y, word, 0⟩, [], r, rfl, List.forall_mem_nil _, tokens_number_append_gaps hy hr,
      if_pos hz⟩

/-! ### Texts -/

theorem opens?_of_isGap {token : Token} (h : token.isGap = true) : token.opens? = none := by
  cases token <;> first | rfl | cases h

theorem dropGaps_ofLexemes (ls : List Lexeme) :
    (ofLexemes ls).dropGaps = ofLexemes (ls.dropWhile fun l => l.token.isGap) := by
  induction ls with
  | nil => simp [ofLexemes, Components.read, dropGaps]
  | cons l ls ih =>
    rw [List.dropWhile_cons]
    split
    case isTrue hg => rw [ofLexemes_leaf (opens?_of_isGap hg), dropGaps, if_pos hg, ih]
    case isFalse hg =>
      cases ho : l.token.opens? with
      | none => rw [ofLexemes_leaf ho, dropGaps, if_neg hg]
      | some bracket =>
        obtain ⟨inner, closing, rest, h⟩ := ofLexemes_opening ho ls
        rw [h]
        rfl

theorem ofLexemes_eq_nil_iff : ofLexemes ls = nil ↔ ls = [] := by
  constructor
  · intro h
    rw [← lexemes_ofLexemes ls, h]
    rfl
  · rintro rfl
    simp [ofLexemes, Components.read]

/-- A text is a length if the first token behind its gaps is one and only gaps follow it. -/
theorem ofText_eq (text : String) : Length.ofText text = match afterGaps text.toList with
    | [] => .error .unexpectedToken
    | l :: ls => match Length.ofToken? l.token with
      | none => .error .unexpectedToken
      | some x => if ls.all fun m => m.token.isGap then .ok x else .error .trailingInput := by
  have hafter : afterGaps text.toList =
      ((lexemes 1 text.toList).dropWhile fun l => l.token.isGap).map Lexeme.bare := by
    rw [afterGaps, ← map_bare_lexemes 1, List.dropWhile_map]
    rfl
  rw [hafter, Length.ofText, Length.read, Components.ofText, dropGaps_ofLexemes]
  generalize (lexemes 1 text.toList).dropWhile (fun l => l.token.isGap) = ls
  cases ls with
  | nil =>
    rw [ofLexemes_eq_nil_iff.mpr rfl]
    rfl
  | cons l ls =>
    cases ho : l.token.opens? with
    | none =>
      rw [ofLexemes_leaf ho, List.map_cons]
      dsimp only [Lexeme.bare]
      cases Length.ofToken? l.token with
      | none => rfl
      | some x =>
        have hall : (ofLexemes ls).dropGaps = .nil ↔
            ((ls.map Lexeme.bare).all fun m => m.token.isGap) = true := by
          rw [dropGaps_ofLexemes, ofLexemes_eq_nil_iff, List.dropWhile_eq_nil_iff, List.all_map,
            List.all_eq_true]
          rfl
        simp only [hall]
    | some bracket =>
      obtain ⟨inner, closing, rest, h⟩ := ofLexemes_opening ho ls
      have hnone : Length.ofToken? l.token = none := by
        revert ho
        cases l.token <;> simp [Token.opens?, Length.ofToken?]
      rw [h, List.map_cons]
      dsimp only [Lexeme.bare]
      rw [hnone]

theorem afterGaps_eq_cons_iff : afterGaps cs = l :: ls ↔ ∃ gaps, tokens cs = gaps ++ l :: ls ∧
    (∀ g ∈ gaps, g.token.isGap = true) ∧ l.token.isGap = false := by
  rw [afterGaps]
  generalize tokens cs = ts
  constructor
  · intro h
    refine ⟨ts.takeWhile fun l => l.token.isGap, ?_, fun g hg => ?_, ?_⟩
    · rw [← h, List.takeWhile_append_dropWhile]
    · exact List.mem_takeWhile_imp (p := fun l : Lexeme => l.token.isGap) hg
    · have hl := List.head?_dropWhile_not (fun l : Lexeme => l.token.isGap) ts
      rw [h] at hl
      exact hl
  · rintro ⟨gaps, rfl, hg, hl⟩
    rw [List.dropWhile_append_of_pos hg, List.dropWhile_cons_of_neg]
    rw [hl]
    exact Bool.false_ne_true

/-- Among the tokens of a text those are lengths whose texts write one. -/
theorem ofToken?_eq_some_iff {gaps : List Lexeme} (h : tokens cs = gaps ++ l :: ls) :
    Length.ofToken? l.token = some x ↔ WritesLength x l.text :=
  ofToken?_first_iff (tokens_spelled h)

theorem afterGaps_eq_nil_iff_all :
    afterGaps cs = [] ↔ ((tokens cs).all fun l => l.token.isGap) = true := by
  rw [afterGaps, List.dropWhile_eq_nil_iff, List.all_eq_true]

theorem not_isGap_of_ofToken? {token : Token} (h : Length.ofToken? token = some x) :
    token.isGap = false := by
  cases token <;> first | rfl | cases h

namespace Length

variable {text : String} {gaps : List Lexeme} {before number after : List Char} {y : Numeral}

theorem ofText_of_writes (ht : tokens text.toList = gaps ++ l :: ls)
    (hg : ∀ g ∈ gaps, g.token.isGap = true) (hw : WritesLength x l.text) :
    ofText text = if ls.all fun m => m.token.isGap then .ok x else .error .trailingInput := by
  have hx := (ofToken?_eq_some_iff ht).mpr hw
  rw [ofText_eq, afterGaps_eq_cons_iff.mpr ⟨_, ht, hg, not_isGap_of_ofToken? hx⟩]
  dsimp only
  rw [hx]

theorem unexpectedToken_or_exists_writes (text : String) :
    ofText text = .error .unexpectedToken ∨ ∃ gaps l ls x,
      tokens text.toList = gaps ++ l :: ls ∧ (∀ g ∈ gaps, g.token.isGap = true) ∧
      WritesLength x l.text := by
  rw [ofText_eq]
  cases ha : afterGaps text.toList with
  | nil => exact .inl rfl
  | cons l ls =>
    dsimp only
    cases hx : ofToken? l.token with
    | none => exact .inl rfl
    | some x =>
      obtain ⟨gaps, ht, hg, -⟩ := afterGaps_eq_cons_iff.mp ha
      exact .inr ⟨gaps, l, ls, x, ht, hg, (ofToken?_eq_some_iff ht).mp hx⟩

/-- A text with nothing but gaps behind a length has this length written in it. -/
theorem exists_word_of_writes (ht : tokens text.toList = gaps ++ l :: ls)
    (hg : ∀ g ∈ gaps, g.token.isGap = true) (hw : WritesLength x l.text)
    (hall : ls.all (fun m => m.token.isGap) = true) : ∃ before word after,
      text.toList = before ++ (word ++ after) ∧
      WritesGaps before ∧ WritesLength x word ∧ WritesLastGaps after := by
  have hx := (ofToken?_eq_some_iff ht).mpr hw
  obtain ⟨before, r, htext, hb, hr⟩ :=
    exists_of_afterGaps (afterGaps_eq_cons_iff.mpr ⟨_, ht, hg, not_isGap_of_ofToken? hx⟩)
  have hspelled : r = l.text ++ spelled ls := by
    rw [← spelled_cons, ← hr]
    exact (flatMap_text_tokens r).symm
  have hfirst : tokens r = [l] ++ ls := hr
  refine ⟨before, l.text, spelled ls, hspelled ▸ htext, hb, hw, ?_⟩
  rwa [← afterGaps_eq_nil_iff, afterGaps_eq_nil_iff_all, tokens_spelled hfirst]

theorem ofText_of_word (htext : text.toList = before ++ (word ++ after)) (hb : WritesGaps before)
    (hw : WritesLength x word) (hlast : WritesLastGaps after) : ofText text = .ok x := by
  obtain ⟨l, v, w, rfl, hv, ht, hx⟩ := exists_token_append_gaps hw hlast
  have ha : afterGaps text.toList = l :: tokens w := by
    rw [htext, hb.afterGaps_append]
    exact afterGaps_eq_cons_iff.mpr ⟨[], ht, List.forall_mem_nil _, not_isGap_of_ofToken? hx⟩
  have hall := afterGaps_eq_nil_iff_all.mp (afterGaps_eq_nil_iff.mpr (hlast.drop hv))
  rw [ofText_eq, ha]
  dsimp only
  rw [hx]
  exact if_pos hall

theorem ofText_number (htext : text.toList = before ++ (number ++ after)) (hb : WritesGaps before)
    (hy : WritesNumber y number) (hlast : WritesLastGaps after) (hz : (Css.value y == 0) = false) :
    ofText text = .error .unexpectedToken := by
  have ha : afterGaps text.toList = ⟨.number y, number, 0⟩ :: tokens after := by
    rw [htext, hb.afterGaps_append]
    exact afterGaps_eq_cons_iff.mpr
      ⟨[], tokens_number_append_gaps hy hlast, List.forall_mem_nil _, rfl⟩
  rw [ofText_eq, ha]
  dsimp only [ofToken?]
  rw [hz, if_neg Bool.false_ne_true]

/-- A text is a length just if one is written in it and nothing else is but gaps; and where it is
not, this is because the first token behind the gaps is no length, or because more follows it. A
number without a unit and without an exponent is a length if it is zero, and is none if it is not
below `10 ^ -44`. -/
theorem ofText_eq_iff (text : String) :
    (∀ x, ofText text = .ok x ↔ ∃ before word after,
      text.toList = before ++ (word ++ after) ∧
      WritesGaps before ∧ WritesLength x word ∧ WritesLastGaps after) ∧
    (ofText text = .error .trailingInput ↔ ∃ gaps l ls x,
      tokens text.toList = gaps ++ l :: ls ∧ (∀ g ∈ gaps, g.token.isGap = true) ∧
      WritesLength x l.text ∧ ∃ m ∈ ls, m.token.isGap = false) ∧
    (ofText text = .error .unexpectedToken ↔ ∀ gaps l ls x,
      tokens text.toList = gaps ++ l :: ls → (∀ g ∈ gaps, g.token.isGap = true) →
      ¬WritesLength x l.text) ∧
    ∀ before y number after, text.toList = before ++ (number ++ after) → WritesGaps before →
      WritesNumber y number → WritesLastGaps after → y.exponent = 0 →
      (y.toRat = 0 → ofText text = .ok ⟨0, .pixels⟩) ∧
      (10 ^ (-44 : Int) ≤ |y.toRat| → ofText text = .error .unexpectedToken) := by
  refine ⟨fun x => ⟨fun h => ?_, ?_⟩, ⟨fun h => ?_, ?_⟩, ⟨?_, fun h => ?_⟩, ?_⟩
  · obtain he | ⟨gaps, l, ls, y, ht, hg, hw⟩ := unexpectedToken_or_exists_writes text
    · cases h.symm.trans he
    · rw [ofText_of_writes ht hg hw] at h
      split at h
      case isFalse => cases h
      case isTrue hall =>
        cases h
        exact exists_word_of_writes ht hg hw hall
  · rintro ⟨before, word, after, htext, hb, hw, hlast⟩
    exact ofText_of_word htext hb hw hlast
  · obtain he | ⟨gaps, l, ls, y, ht, hg, hw⟩ := unexpectedToken_or_exists_writes text
    · cases h.symm.trans he
    · rw [ofText_of_writes ht hg hw] at h
      split at h
      case isTrue => cases h
      case isFalse hall =>
        rw [List.all_eq_true, not_forall] at hall
        obtain ⟨m, hm⟩ := hall
        rw [Classical.not_imp, Bool.not_eq_true] at hm
        exact ⟨gaps, l, ls, y, ht, hg, hw, m, hm⟩
  · rintro ⟨gaps, l, ls, x, ht, hg, hw, m, hm, hmg⟩
    rw [ofText_of_writes ht hg hw, if_neg]
    rw [List.all_eq_true]
    exact fun hall => Bool.false_ne_true (hmg.symm.trans (hall m hm))
  · rintro h gaps l ls x ht hg hw
    rw [ofText_of_writes ht hg hw] at h
    split at h <;> cases h
  · exact (unexpectedToken_or_exists_writes text).elim id fun ⟨gaps, l, ls, x, ht, hg, hw⟩ =>
      absurd hw (h gaps l ls x ht hg)
  · intro before y number after htext hb hy hlast he
    obtain ⟨hzero, hlarge⟩ := value_beq_zero_of_toRat he hy.isDigit
    exact ⟨fun h => ofText_of_word htext hb (.zero hy (hzero h)) hlast,
      fun h => ofText_number htext hb hy hlast (hlarge h)⟩

/-- A digit in the fiftieth place is lost, and the number counts as zero. -/
theorem exists_lost_digit : ∃ y,
    WritesNumber y "0.00000000000000000000000000000000000000000000000001".toList ∧ y.toRat ≠ 0 ∧
      ofText "0.00000000000000000000000000000000000000000000000001" =
        .ok ⟨0, .pixels⟩ := by
  have hy : WritesNumber ⟨false, ['0'], List.replicate 49 '0' ++ ['1'], 0⟩
      "0.00000000000000000000000000000000000000000000000001".toList :=
    .pointed .none (List.all_eq_true.mp rfl) ⟨List.cons_ne_nil _ _, List.all_eq_true.mp rfl⟩ .none
  have hdigits : Numeral.ofDigits (['0'] ++ (List.replicate 49 '0' ++ ['1'])) ≠ 0 := by
    decide
  have hz : Numeral.toRat ⟨false, ['0'], List.replicate 49 '0' ++ ['1'], 0⟩ ≠ 0 :=
    mul_ne_zero (Nat.cast_ne_zero.mpr hdigits) (zpow_ne_zero _ (by norm_num))
  exact ⟨_, hy, hz, ofText_of_word (List.append_nil _).symm .nil
    (.zero hy (by decide +kernel)) (.closed .nil)⟩
end Length

end ModularScale.Css
