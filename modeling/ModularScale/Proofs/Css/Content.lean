import Mathlib.Data.List.TakeWhile
import ModularScale.Proofs.Css.Scanning

/-! # The characters of tokens

A token takes no more than there is, and unless it is enclosed by marks it consists of characters of
few kinds.
-/

namespace ModularScale.Css

variable {p : Char → Bool} {c : Char} {cs : List Char}

/-- A character of a name, a number or a mark, but not the one that marks importance. -/
def isWordChar (c : Char) : Bool :=
  !isSpace c && c != '!'

theorem isWordChar_of_isNameChar (h : isNameChar c = true) : isWordChar c = true := by
  rw [isWordChar, Bool.and_eq_true, Bool.not_eq_true', ← Bool.not_eq_true, bne_iff_ne]
  constructor
  · intro hs
    rw [isNameChar_of_isStop (by simp [isStop, hs])] at h
    cases h
  · rintro rfl
    revert h
    decide

theorem isWordChar_of_isDigit (h : c.isDigit = true) : isWordChar c = true :=
  isWordChar_of_isNameChar (by simp [isNameChar, h])

/-! ### Lengths -/

theorem length_spaceLength_le (cs : List Char) : spaceLength cs ≤ cs.length := by
  unfold spaceLength
  split
  · simp
  · split <;> simp
  · exact Nat.zero_le _

theorem length_escape_le (cs : List Char) : (escape cs).length ≤ cs.length := by
  unfold escape
  split
  case h_1 => exact Nat.le_refl _
  case h_2 c cs =>
    split
    · have hd : (((c :: cs).take 6).takeWhile isHexDigit).length ≤ (c :: cs).length :=
        Nat.le_trans (List.takeWhile_prefix _).length_le (List.take_prefix _ _).length_le
      have hs := length_spaceLength_le
        ((c :: cs).drop (((c :: cs).take 6).takeWhile isHexDigit).length)
      rw [List.length_drop] at hs
      dsimp only
      omega
    · exact Nat.le_add_left 1 _

theorem length_name_le (cs : List Char) : (name cs).length ≤ cs.length := by
  fun_induction name cs with
  | case1 => exact Nat.le_refl _
  | case2 c cs _ ih =>
    simp only [Scan.cons, List.length_cons]
    omega
  | case3 c cs _ _ escaped ih =>
    have he : escaped.length ≤ cs.length := length_escape_le cs
    rw [List.length_drop] at ih
    simp only [Scan.cons, List.length_cons]
    omega
  | case4 => exact Nat.zero_le _

theorem length_quoted_le (quote : Char) (cs : List Char) :
    (quoted quote cs).length ≤ cs.length := by
  fun_induction quoted quote cs with
  | case1 => exact Nat.le_refl _
  | case2 => exact Nat.le_add_left 1 _
  | case3 => exact Nat.zero_le _
  | case4 cs _ _ _ ih =>
    have hs := length_spaceLength_le cs
    rw [List.length_drop] at ih
    simp only [Quoted.skip, List.length_cons]
    omega
  | case5 => exact Nat.le_add_left 1 _
  | case6 cs _ _ escaped _ _ ih =>
    have he : escaped.length ≤ cs.length := length_escape_le cs
    rw [List.length_drop] at ih
    simp only [Quoted.cons, List.length_cons]
    omega
  | case7 c cs _ _ _ ih =>
    simp only [Quoted.cons, List.length_cons]
    omega

theorem length_comment_le (cs : List Char) : (comment cs).length ≤ cs.length := by
  fun_induction comment cs with
  | case1 => simp
  | case2 => simp
  | case3 c cs _ ih =>
    simp only [Scan.cons, List.length_cons]
    omega

theorem brokenLength_le (cs : List Char) : brokenLength cs ≤ cs.length := by
  fun_induction brokenLength cs with
  | case1 => simp
  | case2 => simp
  | case3 => simp only [List.length_cons]; omega
  | case4 => simp only [List.length_cons]; omega
  | case5 => simp only [List.length_cons]; omega

theorem length_addressEnd_le (cs : List Char) : (addressEnd cs).length ≤ cs.length := by
  have hs := (List.takeWhile_prefix (l := cs) isSpace).length_le
  have hd := List.length_drop (i := (cs.takeWhile isSpace).length) (l := cs)
  unfold addressEnd
  generalize (cs.takeWhile isSpace).length = n at *
  dsimp only
  split
  case h_1 => exact hs
  case h_2 c tail ht =>
    rw [ht, List.length_cons] at hd
    have hb := brokenLength_le tail
    split
    · dsimp only
      omega
    · simp only [Address.broken]
      omega

theorem length_address_le (cs : List Char) : (address cs).length ≤ cs.length := by
  have hbroken : ∀ cs : List Char, (Address.broken 1 cs).length ≤ cs.length + 1 := by
    intro cs
    have := brokenLength_le cs
    simp only [Address.broken]
    omega
  fun_induction address cs with
  | case1 => exact Nat.le_refl _
  | case2 => exact Nat.le_add_left 1 _
  | case3 => exact length_addressEnd_le _
  | case4 c cs => exact hbroken cs
  | case5 cs => exact hbroken cs
  | case6 cs _ escaped _ _ _ ih =>
    have he : escaped.length ≤ cs.length := length_escape_le cs
    rw [List.length_drop] at ih
    simp only [Address.cons, List.length_cons]
    omega
  | case7 c cs _ _ _ _ ih =>
    simp only [Address.cons, List.length_cons]
    omega

theorem fractionLength_le (cs : List Char) : fractionLength (fractionDigits cs) ≤ cs.length := by
  unfold fractionDigits fractionLength
  split
  case h_1 cs =>
    have := (List.takeWhile_prefix (l := cs) Char.isDigit).length_le
    split
    · exact Nat.zero_le _
    · rw [List.length_cons]
      omega
  case h_2 => exact Nat.zero_le _

theorem length_exponentPart_le (cs : List Char) : (exponentPart cs).length ≤ cs.length := by
  cases cs with
  | nil => exact Nat.le_refl _
  | cons c cs =>
    have hs := signLength_le cs
    have hd := (List.takeWhile_prefix (l := cs.drop (signLength cs)) Char.isDigit).length_le
    rw [List.length_drop] at hd
    rw [exponentPart_cons]
    split
    · simp only [signedDigits, List.length_cons]
      omega
    · exact Nat.zero_le _

theorem length_numeral_le (cs : List Char) : (numeral cs).length ≤ cs.length := by
  have hs := signLength_le cs
  unfold numeral
  dsimp only
  have hw := (List.takeWhile_prefix (l := cs.drop (signLength cs)) Char.isDigit).length_le
  generalize (cs.drop (signLength cs)).takeWhile Char.isDigit = whole at *
  have hf := fractionLength_le (cs.drop (signLength cs + whole.length))
  generalize fractionDigits (cs.drop (signLength cs + whole.length)) = fraction at *
  have he := length_exponentPart_le
    ((cs.drop (signLength cs + whole.length)).drop (fractionLength fraction))
  rw [List.length_drop] at hw hf
  rw [List.length_drop, List.length_drop] at he
  omega

theorem length_numericToken_le (cs : List Char) : (numericToken cs).length ≤ cs.length := by
  have hn := length_numeral_le cs
  have hd := List.length_drop (i := (numeral cs).length) (l := cs)
  have hname := length_name_le (cs.drop (numeral cs).length)
  fun_cases numericToken cs with
  | case1 _ _ hp =>
    have hpos : 0 < (cs.drop (numeral cs).length).length := by
      rw [List.length_pos_iff]
      intro he
      rw [show startsWith (· == '%') (cs.drop (numeral cs).length) = false by rw [he]; rfl] at hp
      cases hp
    show (numeral cs).length + 1 ≤ _
    omega
  | case2 =>
    show (numeral cs).length + (name (cs.drop (numeral cs).length)).length ≤ _
    omega
  | case3 => exact hn

theorem length_bracketToken_le (n : Scan (List Char)) (hne : cs ≠ []) :
    (bracketToken n cs).length ≤ n.length + cs.length := by
  have ht := (List.takeWhile_prefix (l := cs.tail) isSpace).length_le
  have hpos := List.length_pos_iff.mpr hne
  rw [List.length_tail] at ht
  fun_cases bracketToken n cs with
  | case1 start content =>
    have := length_address_le content
    rw [List.length_drop] at this
    dsimp only
    omega
  | case2 =>
    dsimp only
    omega

theorem length_nameToken_le (cs : List Char) : (nameToken cs).length ≤ cs.length := by
  have hn := length_name_le cs
  rw [nameToken_eq]
  split
  case isTrue hs =>
    have := length_bracketToken_le (name cs)
      (show cs.drop (name cs).length ≠ [] by rintro he; rw [he] at hs; cases hs)
    rw [List.length_drop] at this
    omega
  · exact hn

theorem length_signToken_le (c : Char) (cs : List Char) :
    (signToken c cs).length ≤ cs.length + 1 := by
  have hname := length_name_le cs
  have hcons : ∀ m, startsWith (· == m) cs = true → 1 ≤ cs.length := by
    intro m hm
    cases cs with
    | nil => cases hm
    | cons => exact Nat.succ_pos _
  fun_cases signToken c cs with
  | case1 hs => exact Nat.succ_le_succ (hcons _ (Bool.and_eq_true_iff.mp hs).2)
  | case2 | case3 =>
    show 1 + (name cs).length ≤ _
    omega
  | case4 _ _ _ hs =>
    have := hcons _ (Bool.and_eq_true_iff.mp hs).2
    have hc := length_comment_le cs.tail
    rw [List.length_tail] at hc
    show 2 + (comment cs.tail).length ≤ _
    omega
  | case5 _ _ _ _ hs =>
    have := congrArg List.length (of_decide_eq_true (Bool.and_eq_true_iff.mp hs).2)
    rw [List.length_take] at this
    simp only [List.length_cons, List.length_nil] at this ⊢
    omega
  | case6 => exact Nat.succ_le_succ (Nat.zero_le _)

/-- The next token lies within its text. -/
theorem length_nextToken_le (c : Char) (cs : List Char) :
    (nextToken c cs).length ≤ cs.length + 1 := by
  fun_cases nextToken c cs with
  | case1 =>
    have := (List.takeWhile_prefix (l := cs) isSpace).length_le
    dsimp only
    omega
  | case2 =>
    have := length_quoted_le c cs
    show 1 + (quoted c cs).length ≤ _
    omega
  | case3 => exact length_numericToken_le (c :: cs)
  | case4 _ _ _ hs =>
    have := congrArg List.length (of_decide_eq_true (Bool.and_eq_true_iff.mp hs).2)
    rw [List.length_take] at this
    simp only [List.length_cons, List.length_nil] at this ⊢
    omega
  | case5 => exact length_nameToken_le (c :: cs)
  | case6 => exact length_signToken_le c cs

/-! ### Characters -/

theorem take_length_takeWhile (p : Char → Bool) (cs : List Char) :
    cs.take (cs.takeWhile p).length = cs.takeWhile p :=
  (List.prefix_iff_eq_take.mp (List.takeWhile_prefix p)).symm

theorem isNameChar_of_mem_name (h : '\\' ∉ cs) {d : Char} (hd : d ∈ cs.take (name cs).length) :
    isNameChar d = true := by
  induction cs with
  | nil => simp at hd
  | cons c cs ih =>
    obtain ⟨hc, h⟩ := List.ne_and_not_mem_of_not_mem_cons h
    cases hn : isNameChar c with
    | false =>
      rw [name_stop hn hc.symm] at hd
      cases hd
    | true =>
      rw [name_cons hn, Scan.cons, Nat.add_comm 1, List.take_succ_cons] at hd
      rcases List.mem_cons.mp hd with rfl | hd
      · exact hn
      · exact ih h hd

/-- A character of a number, which may have a sign, a point and an exponent. -/
def isNumeralChar (c : Char) : Bool :=
  c.isDigit || ['+', '-', '.', 'e', 'E'].contains c

theorem isNumeralChar_of_isDigit (h : c.isDigit = true) : isNumeralChar c = true := by
  rw [isNumeralChar, h, Bool.true_or]

theorem isWordChar_of_isNumeralChar (h : isNumeralChar c = true) : isWordChar c = true := by
  rw [isNumeralChar, Bool.or_eq_true, List.contains_iff_mem] at h
  rcases h with h | h
  · exact isWordChar_of_isDigit h
  · simp only [List.mem_cons, List.not_mem_nil, or_false] at h
    rcases h with rfl | rfl | rfl | rfl | rfl <;> rfl

theorem isNumeralChar_of_mem_sign {d : Char} (hd : d ∈ cs.take (signLength cs)) :
    isNumeralChar d = true := by
  unfold signLength at hd
  split at hd
  · simp at hd
    rw [hd]
    rfl
  · simp at hd
    rw [hd]
    rfl
  · cases hd

theorem isNumeralChar_of_mem_digits {d : Char} (hd : d ∈ cs.take (cs.takeWhile Char.isDigit).length) :
    isNumeralChar d = true := by
  rw [take_length_takeWhile] at hd
  exact isNumeralChar_of_isDigit (List.mem_takeWhile_imp hd)

theorem isNumeralChar_of_mem_fraction {d : Char}
    (hd : d ∈ cs.take (fractionLength (fractionDigits cs))) : isNumeralChar d = true := by
  unfold fractionDigits fractionLength at hd
  split at hd
  case h_1 cs =>
    split at hd
    · cases hd
    · rw [Nat.add_comm 1, List.take_succ_cons] at hd
      rcases List.mem_cons.mp hd with rfl | hd
      · rfl
      · exact isNumeralChar_of_mem_digits hd
  case h_2 => cases hd

theorem isNumeralChar_of_mem_exponent {d : Char} (hd : d ∈ cs.take (exponentPart cs).length) :
    isNumeralChar d = true := by
  cases cs with
  | nil => simp at hd
  | cons c cs =>
    rw [exponentPart_cons] at hd
    split at hd
    case isTrue he =>
      rw [Bool.and_eq_true, Bool.or_eq_true, decide_eq_true_eq, decide_eq_true_eq] at he
      dsimp only at hd
      rw [Nat.add_assoc, Nat.add_comm 1, List.take_succ_cons, List.take_add] at hd
      rcases List.mem_cons.mp hd with rfl | hd
      · rcases he.1 with rfl | rfl
        · rfl
        · rfl
      · rcases List.mem_append.mp hd with hd | hd
        · exact isNumeralChar_of_mem_sign hd
        · exact isNumeralChar_of_mem_digits hd
    case isFalse => cases hd

theorem isNumeralChar_of_mem_numeral {d : Char} (hd : d ∈ cs.take (numeral cs).length) :
    isNumeralChar d = true := by
  unfold numeral at hd
  dsimp only at hd
  rw [List.take_add, List.take_add, List.take_add, List.mem_append, List.mem_append,
    List.mem_append] at hd
  rcases hd with ((hd | hd) | hd) | hd
  · exact isNumeralChar_of_mem_sign hd
  · exact isNumeralChar_of_mem_digits hd
  · exact isNumeralChar_of_mem_fraction hd
  · simp only [← List.drop_drop] at hd
    exact isNumeralChar_of_mem_exponent hd

theorem isWordChar_of_mem_numeral {d : Char} (hd : d ∈ cs.take (numeral cs).length) :
    isWordChar d = true :=
  isWordChar_of_isNumeralChar (isNumeralChar_of_mem_numeral hd)

theorem isWordChar_of_mem_numericToken (h : '\\' ∉ cs) {d : Char}
    (hd : d ∈ cs.take (numericToken cs).length) : isWordChar d = true := by
  have hnum : d ∈ cs.take (numeral cs).length → isWordChar d = true := isWordChar_of_mem_numeral
  have hname : d ∈ (cs.drop (numeral cs).length).take (name (cs.drop (numeral cs).length)).length →
      isNameChar d = true := isNameChar_of_mem_name fun hm => h (List.mem_of_mem_drop hm)
  revert hd
  fun_cases numericToken cs with
  | case1 number rest hp =>
    intro hd
    rw [List.take_add, List.mem_append] at hd
    rcases hd with hd | hd
    · exact hnum hd
    · cases hr : cs.drop number.length with
      | nil =>
        rw [hr] at hd
        cases hd
      | cons e tail =>
        dsimp only [rest] at hp
        rw [hr] at hp hd
        obtain rfl : e = '%' := beq_iff_eq.mp hp
        rw [List.take_succ_cons, List.take_zero, List.mem_singleton] at hd
        subst hd
        rfl
  | case2 =>
    intro hd
    rw [List.take_add, List.mem_append] at hd
    rcases hd with hd | hd
    · exact hnum hd
    · exact isWordChar_of_isNameChar (hname hd)
  | case3 => exact hnum

theorem length_numeral_pos (h : startsNumber cs = true) : 0 < (numeral cs).length := by
  rw [startsNumber_iff, ← List.length_pos_iff, ← List.length_pos_iff] at h
  unfold numeral at h ⊢
  dsimp only at h ⊢
  generalize fractionDigits _ = fraction at *
  rcases h with h | h
  · omega
  · have : 0 < fractionLength fraction := by
      unfold fractionLength
      split
      case isTrue he => simp [List.isEmpty_iff.mp he] at h
      case isFalse => omega
    omega

theorem length_name_pos (hc : c ≠ '\\') (h : startsName (c :: cs) = true) :
    0 < (name (c :: cs)).length := by
  rw [name_cons (isNameChar_of_startsName hc h)]
  exact Nat.lt_of_lt_of_le Nat.one_pos (Nat.le_add_right _ _)

/-- What the text of a token can be: white space, a word, the mark of importance, or a text with a
mark at its end. -/
inductive Token.Shape : Token → List Char → Prop
  | space {text : List Char} : (∀ d ∈ text, isSpace d = true) → Shape .whiteSpace text
  | word {token : Token} {text : List Char} : token ≠ .whiteSpace → token.closes? = none →
    text ≠ [] → (∀ d ∈ text, isWordChar d = true) → Shape token text
  | mark : Shape (.delimiter '!') ['!']
  | enclosed {token : Token} {text : List Char} {d : Char} : token ≠ .whiteSpace →
    text.getLast? = some d → isWordChar d = true → d.isAlpha = false → Shape token text

open Token

theorem shape_nameToken (hb : c ≠ '\\') (h : '\\' ∉ cs) (hs : startsName (c :: cs) = true)
    (hc : (nameToken (c :: cs)).value.isClosed
      ((c :: cs).take (nameToken (c :: cs)).length) = true) :
    Shape (nameToken (c :: cs)).value ((c :: cs).take (nameToken (c :: cs)).length) := by
  have hca : '\\' ∉ c :: cs := List.not_mem_cons_of_ne_of_not_mem hb.symm h
  have hpos := length_name_pos hb hs
  have hchars := fun d hd => isNameChar_of_mem_name (d := d) hca hd
  rw [nameToken_eq] at hc ⊢
  generalize name (c :: cs) = name at *
  split
  case isFalse =>
    refine .word (by simp) rfl ?_ fun d hd => isWordChar_of_isNameChar (hchars d hd)
    dsimp only
    rw [List.take_cons hpos]
    exact List.cons_ne_nil _ _
  case isTrue hp =>
    rw [if_pos hp] at hc
    cases hr : (c :: cs).drop name.length with
    | nil =>
      rw [hr] at hp
      cases hp
    | cons e rest =>
      rw [hr] at hp hc
      obtain rfl : e = '(' := beq_iff_eq.mp hp
      unfold bracketToken at hc ⊢
      dsimp only at hc ⊢
      split
      case isFalse =>
        rw [List.take_add, hr]
        refine .word (by simp) rfl (by simp) fun d hd => ?_
        rcases List.mem_append.mp hd with hd | hd
        · exact isWordChar_of_isNameChar (hchars d hd)
        · rw [List.take_succ_cons, List.take_zero, List.mem_singleton] at hd
          subst hd
          rfl
      case isTrue hu =>
        rw [if_pos hu] at hc
        dsimp only at hc ⊢
        split at hc
        · exact .enclosed (by simp) (beq_iff_eq.mp hc) rfl rfl
        · cases hc

theorem shape_signToken (h : '\\' ∉ cs) (hs : isSpace c = false)
    (hc : (signToken c cs).value.isClosed (c :: cs.take ((signToken c cs).length - 1)) = true) :
    Shape (signToken c cs).value (c :: cs.take ((signToken c cs).length - 1)) := by
  have hword : c ≠ '!' → isWordChar c = true := by
    intro hne
    simp [isWordChar, hs, hne]
  have hname : c ≠ '!' → ∀ d ∈ c :: cs.take (name cs).length, isWordChar d = true := by
    intro hne d hd
    rcases List.mem_cons.mp hd with rfl | hd
    · exact hword hne
    · exact isWordChar_of_isNameChar (isNameChar_of_mem_name h hd)
  revert hc
  fun_cases signToken c cs with
  | case1 hp =>
    intro
    obtain ⟨hsign, heq⟩ := Bool.and_eq_true_iff.mp hp
    cases cs with
    | nil => cases heq
    | cons e cs =>
      obtain rfl : e = '=' := beq_iff_eq.mp heq
      refine .word (by simp) rfl (by simp) fun d hd => ?_
      simp only [Nat.add_one_sub_one, List.take_succ_cons, List.take_zero, List.mem_cons,
        List.not_mem_nil, or_false] at hd
      rcases hd with rfl | rfl
      · refine hword ?_
        rintro rfl
        cases hsign
      · rfl
  | case2 _ hp =>
    intro
    obtain rfl : c = '#' := of_decide_eq_true (Bool.and_eq_true_iff.mp hp).1
    rw [Nat.add_sub_cancel_left]
    exact .word (by simp) rfl (by simp) (hname (by decide))
  | case3 _ _ hp =>
    intro
    obtain rfl : c = '@' := of_decide_eq_true (Bool.and_eq_true_iff.mp hp).1
    rw [Nat.add_sub_cancel_left]
    exact .word (by simp) rfl (by simp) (hname (by decide))
  | case4 =>
    intro hc
    rw [beq_iff_eq.mp hc]
    refine .enclosed (d := '/') (by simp) ?_ rfl rfl
    exact List.getLast?_append_of_ne_nil _ (List.cons_ne_nil _ _)
  | case5 _ _ _ _ hp =>
    intro
    obtain ⟨-, ht⟩ := Bool.and_eq_true_iff.mp hp
    show Shape _ (c :: cs.take 3)
    rw [of_decide_eq_true ht]
    exact .enclosed (d := '-') (by simp) rfl rfl rfl
  | case6 =>
    intro
    rw [Nat.sub_self, List.take_zero]
    dsimp only
    split
    case h_7 => exact .enclosed (d := ')') (by simp) rfl rfl rfl
    case h_8 => exact .enclosed (d := ']') (by simp) rfl rfl rfl
    case h_9 => exact .enclosed (d := '\x7d') (by simp) rfl rfl rfl
    case h_10 =>
      rcases Decidable.em (c = '!') with rfl | hne
      · exact .mark
      · exact .word (by simp) rfl (by simp) fun d hd => List.mem_singleton.mp hd ▸ hword hne
    all_goals exact .word (by simp) rfl (by simp) fun d hd => List.mem_singleton.mp hd ▸ rfl

/-- Each closed token has one of the shapes. -/
theorem shape_nextToken (hb : c ≠ '\\') (h : '\\' ∉ cs)
    (hc : (nextToken c cs).value.isClosed (c :: cs.take ((nextToken c cs).length - 1)) = true) :
    Shape (nextToken c cs).value (c :: cs.take ((nextToken c cs).length - 1)) := by
  have hca : '\\' ∉ c :: cs := List.not_mem_cons_of_ne_of_not_mem hb.symm h
  revert hc
  fun_cases nextToken c cs with
  | case1 hs =>
    intro
    rw [Nat.add_sub_cancel_left, take_length_takeWhile]
    refine .space fun d hd => ?_
    rcases List.mem_cons.mp hd with rfl | hd
    · exact hs
    · exact List.mem_takeWhile_imp hd
  | case2 _ hquote =>
    dsimp only
    split
    case isFalse => nofun
    case isTrue hq =>
      intro hc
      have hend := beq_iff_eq.mp (Bool.and_eq_true_iff.mp hc).2
      rw [Bool.or_eq_true, decide_eq_true_eq, decide_eq_true_eq] at hquote
      rcases hquote with rfl | rfl
      · exact .enclosed (by simp) hend rfl rfl
      · exact .enclosed (by simp) hend rfl rfl
  | case3 _ _ hn =>
    intro
    have hpos := Nat.lt_of_lt_of_le (length_numeral_pos hn) (length_numeral_le_numericToken _)
    rw [← List.take_cons hpos]
    have hne : (c :: cs).take (numericToken (c :: cs)).length ≠ [] := by
      rw [List.take_cons hpos]
      exact List.cons_ne_nil _ _
    obtain ⟨hw, ho⟩ : (numericToken (c :: cs)).value ≠ .whiteSpace ∧
        (numericToken (c :: cs)).value.closes? = none :=
      value_numericToken (P := fun t => t ≠ .whiteSpace ∧ t.closes? = none)
        (fun _ => ⟨nofun, rfl⟩) (fun _ _ => ⟨nofun, rfl⟩) (fun _ => ⟨nofun, rfl⟩) _
    exact .word hw ho hne fun d hd => isWordChar_of_mem_numericToken hca hd
  | case4 _ _ _ hp =>
    intro
    obtain ⟨hd, ht⟩ := Bool.and_eq_true_iff.mp hp
    obtain rfl := of_decide_eq_true hd
    show Shape _ ('-' :: cs.take 2)
    rw [of_decide_eq_true ht]
    exact .word (by simp) rfl (by simp) (List.all_eq_true.mp rfl)
  | case5 _ _ _ _ hn =>
    have hpos := Nat.lt_of_lt_of_le (length_name_pos hb hn) (length_name_le_nameToken _)
    rw [← List.take_cons hpos]
    exact shape_nameToken hb h hn
  | case6 hs => exact shape_signToken h (Bool.eq_false_iff.mpr hs)

end ModularScale.Css
