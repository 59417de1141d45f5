import Mathlib.Data.Nat.Digits.Defs
import ModularScale.Json.Literal
import ModularScale.Proofs.Decimal.Coefficient
import ModularScale.Proofs.Decimal.Rounded

/-! # Numbers that are read back

A finite float is written as a JSON number, and such a number ends where nothing that follows can go
on with it.
-/

namespace ModularScale

open Decimal

namespace Json

variable {c : Char} {cs whole fraction exponent rest : List Char}

/-! ### The form of numbers -/

/-- Whether a character may go on with a number. -/
def isNumeric (c : Char) : Bool :=
  c.isDigit || c == '.' || c == 'e' || c == 'E'

structure IsDigits (cs : List Char) : Prop where
  ne_nil : cs ≠ []
  isDigit : ∀ c ∈ cs, c.isDigit = true

inductive IsWhole : List Char → Prop
  | zero : IsWhole ['0']
  | digits {c : Char} {cs : List Char} : IsDigits (c :: cs) → c ≠ '0' → IsWhole (c :: cs)

inductive IsFraction : List Char → Prop
  | none : IsFraction []
  | digits {cs : List Char} : IsDigits cs → IsFraction ('.' :: cs)

inductive IsExponent : List Char → Prop
  | none : IsExponent []
  | signed {s : Char} {cs : List Char} : s = '+' ∨ s = '-' → IsDigits cs →
    IsExponent ('e' :: s :: cs)

/-- A JSON number as it is written here, with a sign behind each `e`. -/
inductive IsNumber : List Char → Prop
  | mk {sign whole fraction exponent : List Char} : sign = [] ∨ sign = ['-'] → IsWhole whole →
    IsFraction fraction → IsExponent exponent → IsNumber (sign ++ whole ++ fraction ++ exponent)

theorem IsWhole.isDigits (h : IsWhole whole) : IsDigits whole := by
  cases h with
  | zero => exact ⟨List.cons_ne_nil _ _, List.forall_mem_singleton.mpr rfl⟩
  | digits h => exact h

theorem IsNumber.exists_head (h : IsNumber cs) :
    ∃ c rest, cs = c :: rest ∧ (c = '-' ∨ c.isDigit = true) := by
  obtain ⟨rfl | rfl, hw, -, -⟩ := h
  · obtain ⟨hne, hd⟩ := hw.isDigits
    obtain ⟨c, ds, rfl⟩ := List.exists_cons_of_ne_nil hne
    exact ⟨c, _, rfl, .inr (hd c List.mem_cons_self)⟩
  · exact ⟨'-', _, rfl, .inl rfl⟩

/-! ### Reading numbers -/

theorem digitsAfter_append (mark : List Char) (h : IsDigits cs)
    (hr : Css.startsWith Char.isDigit rest = false) :
    digitsAfter mark (cs ++ rest) = (mark ++ cs, rest) := by
  obtain ⟨ht, hd⟩ := Css.span_append h.isDigit hr
  obtain ⟨c, ds, rfl⟩ := List.exists_cons_of_ne_nil h.ne_nil
  have hc : Css.startsWith Char.isDigit (c :: ds ++ rest) = true := h.isDigit c List.mem_cons_self
  rw [digitsAfter, if_pos hc, ht, hd]

theorem wholeLiteral_append (h : IsWhole whole) (hr : Css.startsWith Char.isDigit rest = false) :
    wholeLiteral (whole ++ rest) = (whole, rest) := by
  cases h with
  | zero => rfl
  | digits h hc =>
    obtain ⟨ht, hd⟩ := Css.span_append h.isDigit hr
    unfold wholeLiteral
    split
    case h_1 heq => exact absurd (List.cons.inj heq).1 hc
    case h_2 => rw [ht, hd]

theorem fractionLiteral_append (h : IsFraction fraction)
    (hr : Css.startsWith (fun c => c.isDigit || c == '.') rest = false) :
    fractionLiteral (fraction ++ rest) = (fraction, rest) := by
  cases h with
  | none =>
    cases rest with
    | nil => rfl
    | cons c rest =>
      have hc : c ≠ '.' := by
        rintro rfl
        cases hr
      simp [fractionLiteral, hc]
  | digits h =>
    refine digitsAfter_append ['.'] h ?_
    cases rest with
    | nil => rfl
    | cons c rest => exact (Bool.or_eq_false_iff.mp hr).1

theorem exponentLiteral_append (h : IsExponent exponent)
    (hr : Css.startsWith (fun c => c.isDigit || c == 'e' || c == 'E') rest = false) :
    exponentLiteral (exponent ++ rest) = (exponent, rest) := by
  cases h with
  | none =>
    cases rest with
    | nil => rfl
    | cons c rest =>
      change (c.isDigit || c == 'e' || c == 'E') = false at hr
      simp only [Bool.or_eq_false_iff, beq_eq_false_iff_ne] at hr
      simp [exponentLiteral, hr.1.2, hr.2]
  | @signed s cs hs h =>
    have hd : Css.startsWith Char.isDigit rest = false := by
      cases rest with
      | nil => rfl
      | cons c rest => exact (Bool.or_eq_false_iff.mp (Bool.or_eq_false_iff.mp hr).1).1
    have hmark : (s = '+' || s = '-') = true := by simpa using hs
    simp only [List.cons_append, exponentLiteral, Char.reduceEq, decide_true, Bool.true_or, if_true,
      hmark, digitsAfter_append ['e', s] h hd]
    rfl

theorem startsWith_fraction_append (hf : IsFraction fraction) (he : IsExponent exponent)
    (hr : Css.startsWith isNumeric rest = false) :
    Css.startsWith Char.isDigit (fraction ++ (exponent ++ rest)) = false ∧
      Css.startsWith (fun c => c.isDigit || c == '.') (exponent ++ rest) = false ∧
      Css.startsWith (fun c => c.isDigit || c == 'e' || c == 'E') rest = false := by
  have hnone : ∀ p : Char → Bool, (∀ c, isNumeric c = false → p c = false) →
      Css.startsWith p rest = false := by
    intro p hp
    cases rest with
    | nil => rfl
    | cons c rest => exact hp c hr
  have hparts : ∀ c, isNumeric c = false →
      c.isDigit = false ∧ (c == '.') = false ∧ (c == 'e') = false ∧ (c == 'E') = false := by
    intro c hc
    simpa [isNumeric, and_assoc] using hc
  have hdot : Css.startsWith (fun c => c.isDigit || c == '.') (exponent ++ rest) = false := by
    cases he with
    | none => exact hnone _ fun c hc => by simp [hparts c hc]
    | signed => rfl
  refine ⟨?_, hdot, hnone _ fun c hc => by simp [hparts c hc]⟩
  cases hf with
  | none =>
    generalize exponent ++ rest = r at hdot
    cases r with
    | nil => rfl
    | cons c r => exact (Bool.or_eq_false_iff.mp hdot).1
  | digits => rfl

/-- A number is read up to its end, if nothing that follows can go on with it. -/
theorem numberLiteral?_append (h : IsNumber cs) (hr : Css.startsWith isNumeric rest = false) :
    numberLiteral? (cs ++ rest) = some (cs, rest) := by
  obtain ⟨hs, hw, hf, he⟩ := h
  rename_i sign whole fraction exponent
  obtain ⟨hwhole, hfraction, hexponent⟩ := startsWith_fraction_append hf he hr
  have hsign : ((sign ++ (whole ++ (fraction ++ (exponent ++ rest)))).takeWhile
      (· == '-')).take 1 = sign := by
    rcases hs with rfl | rfl
    · obtain ⟨c, ds, rfl⟩ := List.exists_cons_of_ne_nil hw.isDigits.ne_nil
      have hc : (c == '-') = false := by
        rw [beq_eq_false_iff_ne]
        rintro rfl
        exact absurd (hw.isDigits.isDigit '-' List.mem_cons_self) (by decide)
      simp [hc]
    · simp
  have hne : whole.isEmpty = false := List.isEmpty_eq_false_iff.mpr hw.isDigits.ne_nil
  simp only [List.append_assoc]
  unfold numberLiteral?
  simp only [hsign, List.drop_left, wholeLiteral_append hw hwhole,
    fractionLiteral_append hf hfraction, exponentLiteral_append he hexponent, hne,
    Bool.false_eq_true, if_false, List.append_assoc]

end Json

/-! ### Writing numbers -/

namespace Decimal

open Json

theorem digitChar_ne_zero : ∀ n < 10, n ≠ 0 → Nat.digitChar n ≠ '0' := by
  decide

/-- The digits of a positive number start with none that is zero. -/
theorem exists_toDigits {n : Nat} (hn : n ≠ 0) :
    ∃ c cs, Nat.toDigits 10 n = c :: cs ∧ c ≠ '0' ∧ IsDigits (c :: cs) := by
  have hdigits : ∀ {m : Nat}, IsDigits (Nat.toDigits 10 m) := ⟨Nat.toDigits_ne_nil,
    fun c hc => Nat.isDigit_of_mem_toDigits (by decide) (by decide) hc⟩
  suffices h : ∃ c cs, Nat.toDigits 10 n = c :: cs ∧ c ≠ '0' by
    obtain ⟨c, cs, he, hc⟩ := h
    exact ⟨c, cs, he, hc, he ▸ hdigits⟩
  induction n using Nat.strongRecOn with
  | ind n ih =>
    rcases Nat.lt_or_ge n 10 with h | h
    · exact ⟨_, [], Nat.toDigits_of_lt_base h, digitChar_ne_zero n h hn⟩
    · obtain ⟨c, cs, he, hc⟩ := ih (n / 10) (by omega) (by omega)
      exact ⟨c, _, by rw [Nat.toDigits_of_base_le (by decide) h, he, List.cons_append], hc⟩

variable {sign cs : List Char} {c : Char}

/-- The digits of a positive decimal with a point make up a number. -/
theorem isNumber_positional (hs : sign = [] ∨ sign = ['-']) (hc : c ≠ '0')
    (hd : IsDigits (c :: cs)) (exponent : Int) :
    IsNumber (sign ++ positional ".0".toList (c :: cs) exponent) := by
  unfold positional
  dsimp only
  split
  case isTrue =>
    have hw : IsWhole (c :: (cs ++ zeros exponent.toNat)) := by
      refine .digits ⟨List.cons_ne_nil _ _, fun d hm => ?_⟩ hc
      rw [← List.cons_append, List.mem_append] at hm
      exact hm.elim (hd.isDigit d) (isDigit_zeros _ d)
    have hf : IsFraction ".0".toList :=
      .digits ⟨List.cons_ne_nil _ _, List.forall_mem_singleton.mpr rfl⟩
    simpa using IsNumber.mk hs hw hf .none
  case isFalse =>
    split
    case isTrue hlen =>
      obtain ⟨k, hk⟩ : ∃ k, (c :: cs).length - (-exponent).toNat = k + 1 :=
        ⟨_, (Nat.succ_pred_eq_of_pos (Nat.sub_pos_of_lt hlen)).symm⟩
      have hw : IsWhole (c :: cs.take k) := by
        refine .digits ⟨List.cons_ne_nil _ _, fun d hm => hd.isDigit d ?_⟩ hc
        rw [← List.take_succ_cons] at hm
        exact List.mem_of_mem_take hm
      have hf : IsFraction ('.' :: cs.drop k) := by
        refine .digits ⟨fun hnil => ?_, fun d hm => hd.isDigit d ?_⟩
        · rw [List.drop_eq_nil_iff] at hnil
          simp only [List.length_cons] at hlen hk
          omega
        · exact List.mem_cons_of_mem _ (List.mem_of_mem_drop hm)
      rw [hk, List.take_succ_cons, List.drop_succ_cons]
      simpa using IsNumber.mk hs hw hf .none
    case isFalse =>
      have hf : IsFraction ('.' :: (zeros ((-exponent).toNat - (c :: cs).length) ++ c :: cs)) := by
        refine .digits ⟨by simp, fun d hm => ?_⟩
        exact (List.mem_append.mp hm).elim (isDigit_zeros _ d) (hd.isDigit d)
      simpa using IsNumber.mk hs .zero hf .none

theorem isNumber_scientific (hs : sign = [] ∨ sign = ['-']) (hc : c ≠ '0')
    (hd : IsDigits (c :: cs)) (exponent : Int) :
    IsNumber (sign ++ scientific (c :: cs) exponent) := by
  have he : IsExponent ('e' :: (if exponent < 0 then '-' else '+') ::
      Nat.toDigits 10 exponent.natAbs) := by
    refine .signed ?_ ⟨Nat.toDigits_ne_nil,
      fun d hm => Nat.isDigit_of_mem_toDigits (by decide) (by decide) hm⟩
    split
    · exact .inr rfl
    · exact .inl rfl
  have hw : IsWhole [c] := .digits
    ⟨List.cons_ne_nil _ _, List.forall_mem_singleton.mpr (hd.isDigit c List.mem_cons_self)⟩ hc
  unfold scientific
  cases cs with
  | nil => simpa using IsNumber.mk hs hw .none he
  | cons d ds =>
    have hf : IsFraction ('.' :: d :: ds) :=
      .digits ⟨List.cons_ne_nil _ _, fun x hx => hd.isDigit x (List.mem_cons_of_mem _ hx)⟩
    simpa using IsNumber.mk hs hw hf he

/-- A finite float is written as a number. -/
theorem isNumber_write {x : Float} (h : x.isFinite = true) :
    IsNumber (write numberFormat x).toList := by
  obtain ⟨b, hb⟩ : ∃ b, BinaryFraction.ofFloat? x = some b := by
    rw [← Option.ne_none_iff_exists', Ne, BinaryFraction.ofFloat?_eq_none_iff, h]
    decide
  generalize hsign : (if b.negative then ['-'] else []) = sign
  have hs : sign = [] ∨ sign = ['-'] := by
    rw [← hsign]
    cases b.negative
    · exact .inl rfl
    · exact .inr rfl
  unfold write writeMagnitude
  simp only [hb, hsign, String.toList_ofList]
  split
  case isTrue =>
    have hf : IsFraction ['.', '0'] :=
      .digits ⟨List.cons_ne_nil _ _, List.forall_mem_singleton.mpr rfl⟩
    simpa [numberFormat] using IsNumber.mk hs .zero hf .none
  case isFalse hm =>
    obtain ⟨c, cs, hdigits, hc, hd⟩ := exists_toDigits (coefficient_shortest_ne_zero hb hm)
    rw [hdigits]
    split
    · exact isNumber_positional hs hc hd _
    · exact isNumber_scientific hs hc hd _

end Decimal

end ModularScale
