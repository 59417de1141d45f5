import ModularScale.Proofs.Css.Content

/-! # Barriers

A name or a number that ends before a barrier stays the same whatever follows this. The text before
it may hold escapes, and the barrier itself may belong to one of them: then the name does not end
before it.
-/

namespace ModularScale.Css

variable {p : Char → Bool} {c z : Char} {a : List Char}

/-- Whether a character belongs to no token that starts before it, unless this is enclosed or the
character is escaped. -/
def isBarrier (c : Char) : Bool :=
  c == ';' || c == '\x7d' || c == '/' || c == ')'

theorem isBarrier_iff : isBarrier z = true ↔ z = ';' ∨ z = '\x7d' ∨ z = '/' ∨ z = ')' := by
  simp [isBarrier, or_assoc]

/-- What a test that only holds of other characters says of a barrier. -/
theorem eq_false_of_isBarrier (hz : isBarrier z = true)
    (h : (p ';' || p '\x7d' || p '/' || p ')') = false) : p z = false := by
  rw [Bool.or_eq_false_iff, Bool.or_eq_false_iff, Bool.or_eq_false_iff] at h
  rcases isBarrier_iff.mp hz with rfl | rfl | rfl | rfl
  · exact h.1.1.1
  · exact h.1.1.2
  · exact h.1.2
  · exact h.2

theorem ne_of_isBarrier (hz : isBarrier z = true) {d : Char} (hd : isBarrier d = false) :
    z ≠ d := by
  rintro rfl
  rw [hz] at hd
  cases hd

/-- Whether a character belongs to no name and to no number, unless it is escaped. -/
def isEdge (c : Char) : Bool :=
  isBarrier c || isSpace c || c == '\x7b' || c == '!'

theorem isEdge_of_isBarrier (hz : isBarrier z = true) : isEdge z = true := by
  simp [isEdge, hz]

/-- What a test that only holds of other characters says of an edge. -/
theorem eq_false_of_isEdge (hz : isEdge z = true)
    (h : [';', '\x7d', '/', ')', ' ', '\t', '\n', '\r', '\x0c', '\x7b', '!'].all (!p ·) = true) :
    p z = false := by
  rw [List.all_eq_true] at h
  have hm : z ∈ [';', '\x7d', '/', ')', ' ', '\t', '\n', '\r', '\x0c', '\x7b', '!'] := by
    simp only [isEdge, isBarrier, isSpace, isNewline, Bool.or_eq_true, beq_iff_eq] at hz
    simp only [List.mem_cons, List.not_mem_nil]
    tauto
  rw [← Bool.not_eq_true']
  exact h z hm

theorem ne_of_isEdge (hz : isEdge z = true) {d : Char} (hd : isEdge d = false) : z ≠ d := by
  rintro rfl
  rw [hz] at hd
  cases hd

/-! ### Runs and names -/

theorem takeWhile_barrier (hp : p z = false) (a r : List Char) :
    (a ++ z :: r).takeWhile p = a.takeWhile p :=
  takeWhile_append_stop (show startsWith p (z :: r) = false from hp) a

theorem startsWith_append_barrier (hp : p z = false) (a r : List Char) :
    startsWith p (a ++ z :: r) = startsWith p a := by
  cases a with
  | nil => exact hp
  | cons => rfl

theorem spaceLength_barrier (hz : isBarrier z = true) (a r : List Char) :
    spaceLength (a ++ z :: r) = spaceLength a := by
  cases a with
  | nil => rcases isBarrier_iff.mp hz with rfl | rfl | rfl | rfl <;> rfl
  | cons c a =>
    cases a with
    | nil =>
      have hn : z ≠ '\n' := ne_of_isBarrier hz rfl
      unfold spaceLength
      simp [hn]
    | cons d a =>
      rcases Decidable.em (c = '\r' ∧ d = '\n') with ⟨rfl, rfl⟩ | h
      · rfl
      · unfold spaceLength
        grind

theorem isSpace_of_mem_take_spaceLength (h : c ∈ a.take (spaceLength a)) : isSpace c = true := by
  unfold spaceLength at h
  split at h
  case h_1 =>
    simp only [List.take_succ_cons, List.take_zero, List.mem_cons, List.not_mem_nil, or_false] at h
    rcases h with rfl | rfl <;> rfl
  case h_2 d cs _ =>
    split at h
    case isTrue hs =>
      rw [List.take_succ_cons, List.take_zero, List.mem_singleton] at h
      rwa [h]
    case isFalse => cases h
  case h_3 => cases h

/-- An escape of some character ends before a barrier. -/
theorem escape_cons_barrier (hz : isBarrier z = true) (c : Char) (a r : List Char) :
    escape (c :: (a ++ z :: r)) = escape (c :: a) := by
  have hhex : isHexDigit z = false := eq_false_of_isBarrier hz (by decide)
  have hd : ((c :: (a ++ z :: r)).take 6).takeWhile isHexDigit =
      ((c :: a).take 6).takeWhile isHexDigit := by
    rw [← List.take_takeWhile, ← List.take_takeWhile, ← List.cons_append, takeWhile_barrier hhex]
  have hl : (((c :: a).take 6).takeWhile isHexDigit).length ≤ (c :: a).length :=
    Nat.le_trans (List.takeWhile_prefix _).length_le (List.take_prefix _ _).length_le
  simp only [escape, hd]
  rw [← List.cons_append, List.drop_append_of_le_length hl, spaceLength_barrier hz]

/-- A name at the start of a text ends before a barrier behind this, unless the text ends within an
escape. -/
theorem name_append_barrier (hz : isBarrier z = true) (h : replacement ∉ (name a).value)
    (r : List Char) :
    name (a ++ z :: r) = name a := by
  fun_induction name a with
  | case1 => exact name_stop (eq_false_of_isBarrier hz (by decide)) (ne_of_isBarrier hz rfl) r
  | case2 c cs hc ih =>
    rw [List.cons_append, name, if_pos hc, ih fun hm => h (List.mem_cons_of_mem _ hm)]
  | case3 c cs hc hb escaped ih =>
    cases cs with
    | nil => exact absurd List.mem_cons_self h
    | cons d cs =>
      have he : escape (d :: (cs ++ z :: r)) = escaped := escape_cons_barrier hz d cs r
      have hle : escaped.length ≤ (d :: cs).length := length_escape_le _
      have hb : (c = '\\' && !startsWith isNewline (d :: (cs ++ z :: r))) = true := hb
      rw [List.cons_append, List.cons_append, name, if_neg hc, if_pos hb, he, ← List.cons_append]
      dsimp only
      rw [List.drop_append_of_le_length hle, ih fun hm => h (List.mem_cons_of_mem _ hm)]
  | case4 c cs hc hb =>
    rw [List.cons_append, name, if_neg hc, if_neg]
    cases cs with
    | nil =>
      intro hn
      rw [Bool.and_eq_true] at hn
      exact hb (Bool.and_eq_true_iff.mpr ⟨hn.1, rfl⟩)
    | cons => exact hb

theorem startsName_barrier (hz : isBarrier z = true) (a r : List Char) :
    startsName (a ++ z :: r) = startsName a := by
  cases a with
  | nil => rcases isBarrier_iff.mp hz with rfl | rfl | rfl | rfl <;> rfl
  | cons c a =>
    rcases Decidable.em (c = '-') with rfl | hd
    · exact startsWith_append_barrier (eq_false_of_isBarrier hz (by decide)) a r
    · rcases Decidable.em (c = '\\') with rfl | hb
      · exact congrArg not (startsWith_append_barrier (eq_false_of_isBarrier hz (by decide)) a r)
      · rw [List.cons_append, startsName_cons hd hb, startsName_cons hd hb]

/-! ### Numbers -/

theorem signLength_edge (hz : isEdge z = true) (a r : List Char) :
    signLength (a ++ z :: r) = signLength a := by
  cases a with
  | nil =>
    have hplus : z ≠ '+' := ne_of_isEdge hz rfl
    have hminus : z ≠ '-' := ne_of_isEdge hz rfl
    simp [signLength, hplus, hminus]
  | cons c a =>
    have h := signLength_congr (s := z :: r) (r := []) (List.cons_ne_nil c a)
    rwa [List.append_nil] at h

theorem isDigit_of_isEdge (hz : isEdge z = true) : z.isDigit = false :=
  eq_false_of_isEdge hz (by decide)

theorem fractionDigits_edge (hz : isEdge z = true) (a r : List Char) :
    fractionDigits (a ++ z :: r) = fractionDigits a := by
  cases a with
  | nil =>
    have hpoint : z ≠ '.' := ne_of_isEdge hz rfl
    simp [fractionDigits, hpoint]
  | cons c a =>
    rcases Decidable.em (c = '.') with rfl | hc
    · exact takeWhile_barrier (isDigit_of_isEdge hz) a r
    · unfold fractionDigits
      simp [hc]

theorem signedDigits_edge (hz : isEdge z = true) (a r : List Char) :
    signedDigits (a ++ z :: r) = signedDigits a := by
  rw [signedDigits, signedDigits, signLength_edge hz,
    List.drop_append_of_le_length (signLength_le a), takeWhile_barrier (isDigit_of_isEdge hz)]

theorem exponentPart_edge (hz : isEdge z = true) (a r : List Char) :
    exponentPart (a ++ z :: r) = exponentPart a := by
  cases a with
  | nil =>
    have hlower : z ≠ 'e' := ne_of_isEdge hz rfl
    have hupper : z ≠ 'E' := ne_of_isEdge hz rfl
    simp [exponentPart, hlower, hupper]
  | cons c a =>
    rw [List.cons_append, exponentPart_cons, exponentPart_cons, signedDigits_edge hz,
      signLength_edge hz]
    have hneg : startsWith (· == '-') (a ++ z :: r) = startsWith (· == '-') a := by
      cases a with
      | nil => exact eq_false_of_isEdge (p := (· == '-')) hz rfl
      | cons => rfl
    rw [hneg]

theorem numeral_edge (hz : isEdge z = true) (a r : List Char) :
    numeral (a ++ z :: r) = numeral a := by
  have hneg : startsWith (· == '-') (a ++ z :: r) = startsWith (· == '-') a := by
    cases a with
    | nil => exact eq_false_of_isEdge (p := (· == '-')) hz rfl
    | cons => rfl
  have hs := signLength_le a
  have hw : ((a.drop (signLength a)).takeWhile Char.isDigit).length ≤ a.length - signLength a :=
    Nat.le_trans (List.takeWhile_prefix _).length_le (Nat.le_of_eq List.length_drop)
  unfold numeral
  dsimp only
  rw [hneg, signLength_edge hz, List.drop_append_of_le_length hs,
    takeWhile_barrier (isDigit_of_isEdge hz)]
  generalize (a.drop (signLength a)).takeWhile Char.isDigit = whole at *
  rw [List.drop_append_of_le_length (by omega), fractionDigits_edge hz]
  rw [List.drop_append_of_le_length (fractionLength_le _), exponentPart_edge hz]

theorem startsNumber_edge (hz : isEdge z = true) (a r : List Char) :
    startsNumber (a ++ z :: r) = startsNumber a := by
  rw [Bool.eq_iff_iff, startsNumber_iff, startsNumber_iff, numeral_edge hz]

end ModularScale.Css
