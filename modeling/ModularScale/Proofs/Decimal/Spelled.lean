import ModularScale.Css.Character
import ModularScale.Proofs.Decimal.Magnitude

/-! # Written numbers

The texts that are read as numbers: a sign if there is one, digits with or without a point, and an
exponent if there is one. Such a text is a number if the decimal it writes is in the range of the
floats, and no other text is.
-/

namespace ModularScale

open Css (startsWith span_append)

namespace Numeral

variable {c : Char} {cs ds rest sign whole fraction text tail : List Char} {negative : Bool}
  {e : Int} {x : Numeral}

/-! ### Parts of numbers -/

/-- Digits of ASCII, at least one. -/
structure IsDigits (cs : List Char) : Prop where
  ne_nil : cs ≠ []
  isDigit : ∀ c ∈ cs, c.isDigit = true

inductive IsSign : Bool → List Char → Prop
  | none : IsSign false []
  | plus : IsSign false ['+']
  | minus : IsSign true ['-']

/-- An exponent, or nothing in place of an exponent of zero. -/
inductive IsExponent : Int → List Char → Prop
  | none : IsExponent 0 []
  | marked {mark : Char} {negative : Bool} {sign digits : List Char} : mark = 'e' ∨ mark = 'E' →
    IsSign negative sign → IsDigits digits →
    IsExponent (signed negative (ofDigits digits)) (mark :: (sign ++ digits))

/-- Digits before and behind a point. The point may stand at the end, or be left out there. -/
inductive IsMantissa : List Char → List Char → List Char → Prop
  | whole {whole : List Char} : IsDigits whole → IsMantissa whole [] whole
  | pointed {whole fraction : List Char} : IsDigits whole → (∀ c ∈ fraction, c.isDigit = true) →
    IsMantissa whole fraction (whole ++ '.' :: fraction)
  | fraction {fraction : List Char} : IsDigits fraction → IsMantissa [] fraction ('.' :: fraction)

/-- The numbers that a text may write. -/
inductive Spells : Numeral → List Char → Prop
  | mk {negative : Bool} {sign whole fraction text tail : List Char} {e : Int} :
    IsSign negative sign → IsMantissa whole fraction text → IsExponent e tail →
    Spells ⟨negative, whole, fraction, e⟩ (sign ++ (text ++ tail))

/-- The number that a numeral writes. -/
def toRat (x : Numeral) : ℚ :=
  if x.negative then -x.magnitude else x.magnitude

theorem abs_toRat (x : Numeral) : |x.toRat| = x.magnitude := by
  have h : 0 ≤ x.magnitude := by
    unfold magnitude
    positivity
  unfold toRat
  split
  · rw [abs_neg, abs_of_nonneg h]
  · exact abs_of_nonneg h

/-! ### Reading the parts -/

theorem exists_sign (cs : List Char) :
    ∃ sign, IsSign (splitSign cs).1 sign ∧ cs = sign ++ (splitSign cs).2 := by
  unfold splitSign
  split
  · exact ⟨['-'], .minus, rfl⟩
  · exact ⟨['+'], .plus, rfl⟩
  · exact ⟨[], .none, rfl⟩

theorem splitSign_append (h : IsSign negative sign)
    (hr : startsWith (fun c => c == '+' || c == '-') rest = false) :
    splitSign (sign ++ rest) = (negative, rest) := by
  cases h with
  | none =>
    rw [List.nil_append]
    unfold splitSign
    split
    · cases hr
    · cases hr
    · rfl
  | plus => rfl
  | minus => rfl

theorem IsDigits.not_sign (h : IsDigits ds) (rest : List Char) :
    startsWith (fun c => c == '+' || c == '-') (ds ++ rest) = false := by
  obtain ⟨c, ds, rfl⟩ := List.exists_cons_of_ne_nil h.ne_nil
  have hc := h.isDigit c List.mem_cons_self
  show (c == '+' || c == '-') = false
  rw [Bool.or_eq_false_iff, beq_eq_false_iff_ne, beq_eq_false_iff_ne]
  constructor <;> rintro rfl <;> cases hc

theorem readExponent?_eq_some_iff : readExponent? cs = some e ↔ IsExponent e cs := by
  constructor
  · intro h
    cases cs with
    | nil => cases h; exact .none
    | cons c cs =>
      obtain ⟨sign, hs, hcs⟩ := exists_sign cs
      unfold readExponent? at h
      dsimp only at h
      split at h
      case isTrue hc =>
        obtain rfl := Option.some.inj h
        simp only [Bool.and_eq_true, Bool.or_eq_true, decide_eq_true_eq, Bool.not_eq_true',
          List.isEmpty_eq_false_iff, List.all_eq_true] at hc
        obtain ⟨⟨hmark, hne⟩, hd⟩ := hc
        have h := IsExponent.marked hmark hs ⟨hne, hd⟩
        rwa [← hcs] at h
      case isFalse => cases h
  · rintro (_ | ⟨hmark, hs, hd⟩)
    · rfl
    · have hsplit := splitSign_append hs (List.append_nil _ ▸ hd.not_sign [])
      have hall := List.all_eq_true.mpr hd.isDigit
      have hne := List.isEmpty_eq_false_iff.mpr hd.ne_nil
      unfold readExponent?
      simp [hsplit, hall, hne, hmark]

theorem IsExponent.not_numeric (h : IsExponent e tail) :
    startsWith (fun c => c.isDigit || c == '.') tail = false := by
  cases h with
  | none => rfl
  | marked hmark => rcases hmark with rfl | rfl <;> rfl

theorem exists_fraction (cs : List Char) : splitFraction cs = ([], cs) ∨
    (∀ c ∈ (splitFraction cs).1, c.isDigit = true) ∧
      cs = '.' :: ((splitFraction cs).1 ++ (splitFraction cs).2) := by
  unfold splitFraction
  split
  · exact .inr ⟨fun _ => List.mem_takeWhile_imp, by rw [List.takeWhile_append_dropWhile]⟩
  · exact .inl rfl

theorem splitFraction_of_startsWith (h : startsWith (fun c => c.isDigit || c == '.') tail = false) :
    splitFraction tail = ([], tail) := by
  unfold splitFraction
  split
  · cases h
  · rfl

theorem IsMantissa.numeric (h : IsMantissa whole fraction text) (rest : List Char) :
    startsWith (fun c => c.isDigit || c == '.') (text ++ rest) = true := by
  have hdigits : ∀ {ds : List Char}, IsDigits ds → ∀ rest,
      startsWith (fun c => c.isDigit || c == '.') (ds ++ rest) = true := fun hd rest => by
    obtain ⟨c, ds, rfl⟩ := List.exists_cons_of_ne_nil hd.ne_nil
    exact Bool.or_eq_true_iff.mpr (.inl (hd.isDigit c List.mem_cons_self))
  cases h with
  | whole hw => exact hdigits hw rest
  | pointed hw => rw [List.append_assoc]; exact hdigits hw _
  | fraction => rfl

/-- The digits of a number are split off up to what cannot go on with it. -/
theorem IsMantissa.split (h : IsMantissa whole fraction text)
    (ht : startsWith (fun c => c.isDigit || c == '.') tail = false) :
    (text ++ tail).takeWhile Char.isDigit = whole ∧
      splitFraction ((text ++ tail).dropWhile Char.isDigit) = (fraction, tail) ∧
      (whole.isEmpty && fraction.isEmpty) = false ∧
      startsWith (fun c => c == '+' || c == '-') (text ++ tail) = false := by
  have hdigit : startsWith Char.isDigit tail = false := by
    cases tail with
    | nil => rfl
    | cons c tail => exact (Bool.or_eq_false_iff.mp ht).1
  have hpoint : ∀ {ds : List Char}, (∀ c ∈ ds, c.isDigit = true) →
      splitFraction ('.' :: (ds ++ tail)) = (ds, tail) := fun hd => by
    obtain ⟨htake, hdrop⟩ := span_append hd hdigit
    rw [splitFraction, htake, hdrop]
  cases h with
  | whole hw =>
    obtain ⟨htake, hdrop⟩ := span_append hw.isDigit hdigit
    refine ⟨htake, ?_, ?_, hw.not_sign tail⟩
    · rw [hdrop, splitFraction_of_startsWith ht]
    · rw [List.isEmpty_eq_false_iff.mpr hw.ne_nil, Bool.false_and]
  | pointed hw hf =>
    rw [List.append_assoc, List.cons_append]
    have hpointed : startsWith Char.isDigit ('.' :: (fraction ++ tail)) = false := rfl
    obtain ⟨htake, hdrop⟩ := span_append hw.isDigit hpointed
    refine ⟨htake, ?_, ?_, hw.not_sign _⟩
    · rw [hdrop, hpoint hf]
    · rw [List.isEmpty_eq_false_iff.mpr hw.ne_nil, Bool.false_and]
  | fraction hf =>
    refine ⟨rfl, hpoint hf.isDigit, ?_, rfl⟩
    rw [List.isEmpty_eq_false_iff.mpr hf.ne_nil, Bool.and_false]

/-- A text is read as a numeral just if it writes it. -/
theorem read?_eq_some_iff : read? cs = some x ↔ Spells x cs := by
  constructor
  · intro h
    obtain ⟨sign, hs, hcs⟩ := exists_sign cs
    have hw : ∀ c ∈ (splitSign cs).2.takeWhile Char.isDigit, c.isDigit = true :=
      fun _ => List.mem_takeWhile_imp
    have hbody : (splitSign cs).2.takeWhile Char.isDigit ++
      (splitSign cs).2.dropWhile Char.isDigit = (splitSign cs).2 := List.takeWhile_append_dropWhile
    unfold read? at h
    dsimp only at h
    generalize (splitSign cs).1 = negative at hs h
    generalize (splitSign cs).2 = body at hcs hw hbody h
    generalize body.takeWhile Char.isDigit = whole at hw hbody h
    generalize body.dropWhile Char.isDigit = rest at hbody h
    have hf := exists_fraction rest
    generalize (splitFraction rest) = parts at hf h
    obtain ⟨fraction, tail⟩ := parts
    subst hcs hbody
    split at h
    case isTrue => cases h
    case isFalse hne =>
      obtain ⟨e, he, rfl⟩ := Option.map_eq_some_iff.mp h
      have he := readExponent?_eq_some_iff.mp he
      rw [Bool.and_eq_true, List.isEmpty_iff, List.isEmpty_iff, not_and] at hne
      rcases hf with hf | ⟨hf, hrest⟩
      · obtain ⟨rfl, rfl⟩ := Prod.mk.inj hf
        have hw : IsDigits whole := ⟨fun hnil => hne hnil rfl, hw⟩
        exact .mk hs (.whole hw) he
      · dsimp only at hf hrest
        subst hrest
        rw [← List.cons_append]
        by_cases hnil : whole = []
        · subst hnil
          rw [List.nil_append]
          exact .mk hs (.fraction ⟨hne rfl, hf⟩) he
        · rw [← List.append_assoc whole]
          exact .mk hs (.pointed ⟨hnil, hw⟩ hf) he
  · rintro ⟨hs, hm, he⟩
    obtain ⟨htake, hfraction, hne, hstart⟩ := hm.split he.not_numeric
    have hexp := readExponent?_eq_some_iff.mpr he
    unfold read?
    simp only [splitSign_append hs hstart, htake, hfraction, hne, hexp, Bool.false_eq_true,
      if_false, Option.map_some]

end Numeral

namespace Decimal

open Numeral

variable {text : String} {y : Float}

/-- The values without digits are not numbers. -/
theorem isFinite_of_readSpecial? {cs : List Char} (h : readSpecial? cs = some y) :
    y.isFinite = false := by
  have hs : ∀ negative, (withSign negative infinity).isFinite = false := by
    intro negative
    cases negative
    · exact isFinite_infinity
    · exact (BinaryFraction.isFinite_neg infinity).trans isFinite_infinity
  unfold readSpecial? at h
  dsimp only at h
  split at h
  · rw [← Option.some.inj h, hs]
  · split at h
    · rw [← Option.some.inj h]
      rfl
    · cases h

/-- Lower case leaves digits and the point as they are. -/
theorem toLower_of_isNumeric {c : Char} (h : (c.isDigit || c == '.') = true) : c.toLower = c := by
  have hall : ∀ n < 58, ((Char.ofNat n).isDigit || Char.ofNat n == '.') = true →
      (Char.ofNat n).toLower = Char.ofNat n := by
    decide +kernel
  have hlt : c.toNat < 58 := by
    rw [Bool.or_eq_true, beq_iff_eq] at h
    rcases h with h | rfl
    · exact Nat.lt_succ_of_le (Char.isDigit_iff_toNat.mp h).2
    · decide
  have hc := hall c.toNat hlt
  rw [Char.ofNat_toNat] at hc
  exact hc h

/-- The names of infinities and of what is no number start with a letter. -/
theorem not_spells_name {x : Numeral} {negative : Bool} {sign name : List Char}
    (hs : IsSign negative sign) (hn : Text.asciiLower name ∈ ["inf".toList, "infinity".toList,
      "nan".toList]) : ¬Spells x (sign ++ name) := by
  have hhead : ∃ c cs, name = c :: cs ∧ (c.toLower = 'i' ∨ c.toLower = 'n') := by
    simp only [List.mem_cons, List.not_mem_nil, or_false] at hn
    cases name with
    | nil => rcases hn with hn | hn | hn <;> cases hn
    | cons c cs =>
      rcases hn with hn | hn | hn
      · exact ⟨c, cs, rfl, .inl (List.cons.inj hn).1⟩
      · exact ⟨c, cs, rfl, .inl (List.cons.inj hn).1⟩
      · exact ⟨c, cs, rfl, .inr (List.cons.inj hn).1⟩
  obtain ⟨c, cs, rfl, hc⟩ := hhead
  have hsign : startsWith (fun c => c == '+' || c == '-') (c :: cs) = false := by
    show (c == '+' || c == '-') = false
    rw [Bool.or_eq_false_iff, beq_eq_false_iff_ne, beq_eq_false_iff_ne]
    constructor <;> rintro rfl <;> revert hc <;> decide
  generalize hcs : sign ++ c :: cs = text
  rintro ⟨hs', hm, he⟩
  have hsplit := splitSign_append hs' (hm.split he.not_numeric).2.2.2
  rw [← hcs, splitSign_append hs hsign] at hsplit
  obtain ⟨-, htext⟩ := Prod.mk.inj hsplit
  have hstart : startsWith (fun c => c.isDigit || c == '.') (c :: cs) = true := by
    rw [htext]
    exact hm.numeric _
  rw [toLower_of_isNumeric hstart] at hc
  rcases hc with rfl | rfl <;> cases hstart

/-- A text is read as a number just if it writes, apart from white space around it, a decimal whose
magnitude is below the limit of the floats. The names of infinities and of what is no number are
read as such values, and so they are no numbers. -/
theorem readNumber?_eq_some_iff (text : String) :
    (∀ y, readNumber? text = some y ↔ ∃ x, Spells x (Text.trim text.toList) ∧
      |x.toRat| < limit ∧ x.toFloat = y) ∧
    (isNumber text = true ↔ ∃ x, Spells x (Text.trim text.toList) ∧ |x.toRat| < limit) ∧
    ∀ negative sign name, IsSign negative sign → Text.trim text.toList = sign ++ name →
      Text.asciiLower name ∈ ["inf".toList, "infinity".toList, "nan".toList] →
      isNumber text = false := by
  have hread : ∀ y, readNumber? text = some y ↔ ∃ x, Spells x (Text.trim text.toList) ∧
      |x.toRat| < limit ∧ x.toFloat = y := by
    intro y
    unfold readNumber? readFloat?
    rw [Option.filter_eq_some_iff]
    constructor
    · rintro ⟨h, hy⟩
      rcases Option.or_eq_some_iff.mp h with h | ⟨-, h⟩
      · obtain ⟨x, hx, rfl⟩ := Option.map_eq_some_iff.mp h
        rw [isFinite_toFloat_iff (isDigit_of_read? hx), ← abs_toRat] at hy
        exact ⟨x, read?_eq_some_iff.mp hx, hy, rfl⟩
      · rw [isFinite_of_readSpecial? h] at hy
        cases hy
    · rintro ⟨x, hx, hlt, rfl⟩
      have hx := read?_eq_some_iff.mpr hx
      rw [abs_toRat, ← isFinite_toFloat_iff (isDigit_of_read? hx)] at hlt
      rw [hx]
      exact ⟨rfl, hlt⟩
  have hnumber : isNumber text = true ↔
      ∃ x, Spells x (Text.trim text.toList) ∧ |x.toRat| < limit := by
    rw [isNumber, Option.isSome_iff_exists]
    simp only [hread]
    constructor
    · rintro ⟨_, x, hx, hlt, -⟩
      exact ⟨x, hx, hlt⟩
    · rintro ⟨x, hx, hlt⟩
      exact ⟨_, x, hx, hlt, rfl⟩
  refine ⟨hread, hnumber, fun negative sign name hs htrim hn => ?_⟩
  rw [← Bool.not_eq_true, hnumber, htrim]
  rintro ⟨x, hx, -⟩
  exact not_spells_name hs hn hx

end Decimal

end ModularScale
