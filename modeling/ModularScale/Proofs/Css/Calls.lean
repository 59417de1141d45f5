import ModularScale.Proofs.Css.Barrier
import ModularScale.Proofs.Css.Names

/-! # Calls in a text

Where the characters `t-ms(` come in a text, a token takes them all, or takes the name and leaves
the bracket to the next one. It is a function whose name ends so, a token that has a name behind a
sign or a number, or one that is enclosed by marks.
-/

namespace ModularScale.Css

variable {c z : Char} {a b cs x y : List Char} {n : Nat}

/-! ### Texts with a call -/

/-- A text that starts with `t-ms(`, in any case. -/
inductive StartsCall : List Char → Prop
  | intro {t m s : Char} (rest : List Char) : t = 't' ∨ t = 'T' → m = 'm' ∨ m = 'M' →
    s = 's' ∨ s = 'S' → StartsCall (t :: '-' :: m :: s :: '(' :: rest)

/-- A text with `t-ms(` in it, in any case. -/
def HoldsCall (cs : List Char) : Prop :=
  ∃ a b, cs = a ++ b ∧ StartsCall b

theorem eq_or_of_toLower {l u : Char} (h : c.toLower = l) (hu : u.toNat + 32 = l.toNat) :
    c = l ∨ c = u := by
  delta Char.toLower at h
  split at h
  case isTrue hc =>
    subst h
    right
    have hsum : (c.val + ('a'.val - 'A'.val)).toNat = (c.val.toNat + 32) % 2 ^ 32 :=
      UInt32.toNat_add _ _
    have hle : c.val.toNat ≤ 90 := UInt32.le_iff_toNat_le.mp hc.2
    refine Char.toNat_inj.mp ?_
    change u.toNat + 32 = (c.val + ('a'.val - 'A'.val)).toNat at hu
    change c.val.toNat = u.toNat
    omega
  case isFalse => exact .inl h

theorem startsCall_iff :
    Text.eqIgnoringCase (cs.take 5) "t-ms(".toList = true ↔ StartsCall cs := by
  constructor
  · intro h
    rcases cs with _ | ⟨t, _ | ⟨d, _ | ⟨m, _ | ⟨s, _ | ⟨p, rest⟩⟩⟩⟩⟩
    case cons.cons.cons.cons.cons =>
      obtain ⟨ht, hd, hm, hs, hp⟩ : t.toLower = 't' ∧ d.toLower = '-' ∧ m.toLower = 'm' ∧
          s.toLower = 's' ∧ p.toLower = '(' := by
        simpa [Text.eqIgnoringCase, Text.asciiLower] using h
      obtain rfl := Text.eq_of_toLower_eq hd rfl
      obtain rfl := Text.eq_of_toLower_eq hp rfl
      exact .intro rest (eq_or_of_toLower ht rfl) (eq_or_of_toLower hm rfl)
        (eq_or_of_toLower hs rfl)
    all_goals simp [Text.eqIgnoringCase, Text.asciiLower] at h
  · rintro ⟨rest, rfl | rfl, rfl | rfl, rfl | rfl⟩ <;> rfl

theorem StartsCall.take (hb : StartsCall b) (k : Nat) : StartsCall (b.take (5 + k)) := by
  obtain ⟨rest, ht, hm, hs⟩ := hb
  rw [Nat.add_comm]
  exact .intro (rest.take k) ht hm hs

theorem HoldsCall.append (h : HoldsCall cs) (x y : List Char) : HoldsCall (x ++ cs ++ y) := by
  obtain ⟨a, _, rfl, ⟨rest, ht, hm, hs⟩⟩ := h
  exact ⟨x ++ a, _, by simp, .intro (rest ++ y) ht hm hs⟩

/-! ### Scans beside a call -/

/-- The characters that a call consists of. -/
def isCallChar (c : Char) : Bool :=
  ['t', 'T', '-', 'm', 'M', 's', 'S', '('].contains c

theorem isCallChar_of_startsCall (hb : StartsCall b) (h : a ++ b = x ++ z :: y)
    (hle : a.length ≤ x.length) (hlt : x.length < a.length + 5) : isCallChar z = true := by
  obtain ⟨v, rfl⟩ : a <+: x :=
    List.prefix_of_prefix_length_le ⟨b, h⟩ (List.prefix_append x _) hle
  rw [List.append_assoc, List.append_cancel_left_eq] at h
  rw [List.length_append] at hlt
  obtain ⟨rest, ht, hm, hs⟩ := hb
  rcases v with _ | ⟨_, _ | ⟨_, _ | ⟨_, _ | ⟨_, _ | ⟨_, v⟩⟩⟩⟩⟩
  case nil => cases h; rcases ht with rfl | rfl <;> rfl
  case cons.nil => cases h; rfl
  case cons.cons.nil => cases h; rcases hm with rfl | rfl <;> rfl
  case cons.cons.cons.nil => cases h; rcases hs with rfl | rfl <;> rfl
  case cons.cons.cons.cons.nil => cases h; rfl
  case cons.cons.cons.cons.cons => simp only [List.length_cons] at hlt; omega

/-- A scan ends with the text or beside a character that is no part of a call. -/
def Ended (cs : List Char) (n : Nat) : Prop :=
  cs.length ≤ n ∨ ∃ x z y, cs = x ++ z :: y ∧ x.length ≤ n ∧ n ≤ x.length + 1 ∧
    isCallChar z = false

/-- A scan that comes upon a call takes all of it if it ends in this way. -/
theorem Ended.length_le (h : Ended (a ++ b) n) (hb : StartsCall b) (hlt : a.length < n) :
    a.length + 5 ≤ n := by
  rcases h with h | ⟨x, z, y, he, hxn, hnx, hz⟩
  · obtain ⟨rest, -, -, -⟩ := hb
    simp only [List.length_append, List.length_cons] at h
    omega
  · by_contra hn
    rw [isCallChar_of_startsCall hb he (by omega) (by omega)] at hz
    cases hz

theorem Ended.cons (h : Ended cs n) (c : Char) : Ended (c :: cs) (1 + n) := by
  rcases h with h | ⟨x, z, y, rfl, hxn, hnx, hz⟩
  · exact .inl (by rw [List.length_cons]; omega)
  · refine .inr ⟨c :: x, z, y, rfl, ?_, ?_, hz⟩ <;> rw [List.length_cons] <;> omega

theorem Ended.of_drop {m : Nat} (h : Ended (cs.drop m) n) : Ended cs (m + n) := by
  rcases h with h | ⟨x, z, y, he, hxn, hnx, hz⟩
  · rw [List.length_drop] at h
    exact .inl (by omega)
  · have hm : m ≤ cs.length := by
      have hlen := congrArg List.length he
      simp only [List.length_drop, List.length_append, List.length_cons] at hlen
      omega
    refine .inr ⟨cs.take m ++ x, z, y, ?_, ?_, ?_, hz⟩
    · rw [List.append_assoc, ← he, List.take_append_drop]
    all_goals rw [List.length_append, List.length_take_of_le hm]; omega

theorem ended_of_head (hz : isCallChar c = false) (cs : List Char) {n : Nat} (hn : n ≤ 1) :
    Ended (c :: cs) n :=
  .inr ⟨[], c, cs, rfl, Nat.zero_le _, hn, hz⟩

theorem ended_comment (cs : List Char) : Ended cs (comment cs).length := by
  fun_induction comment cs with
  | case1 => exact .inl (Nat.le_refl _)
  | case2 cs => exact .inr ⟨['*'], '/', cs, rfl, Nat.le_succ 1, Nat.le_refl _, rfl⟩
  | case3 c cs _ ih => exact ih.cons c

theorem isCallChar_of_isNewline (h : isNewline c = true) : isCallChar c = false := by
  simp only [isNewline, Bool.or_eq_true, beq_iff_eq] at h
  rcases h with (rfl | rfl) | rfl <;> rfl

theorem ended_quoted {quote : Char} (hq : isCallChar quote = false) (cs : List Char) :
    Ended cs (quoted quote cs).length := by
  fun_induction quoted quote cs with
  | case1 => exact .inl (Nat.le_refl _)
  | case2 cs => exact ended_of_head hq cs (Nat.le_refl _)
  | case3 c cs _ hc => exact ended_of_head (isCallChar_of_isNewline hc) cs (Nat.zero_le _)
  | case4 cs _ _ _ ih =>
    rw [Quoted.skip, Nat.add_assoc]
    exact ih.of_drop.cons _
  | case5 cs _ hnil =>
    rw [List.isEmpty_iff.mp hnil]
    exact .inl (Nat.le_refl _)
  | case6 cs _ _ _ _ escaped ih =>
    rw [Quoted.cons, Nat.add_assoc]
    exact ih.of_drop.cons _
  | case7 c cs _ _ _ ih => exact ih.cons c

theorem ended_brokenLength (cs : List Char) : Ended cs (brokenLength cs) := by
  fun_induction brokenLength cs with
  | case1 => exact .inl (Nat.le_refl _)
  | case2 cs => exact ended_of_head rfl cs (Nat.le_refl _)
  | case3 cs ih => exact Ended.of_drop (show Ended (('\\' :: ')' :: cs).drop 2) _ from ih)
  | case4 cs ih => exact Ended.of_drop (show Ended (('\\' :: '\\' :: cs).drop 2) _ from ih)
  | case5 c cs _ _ _ ih => exact ih.cons c

theorem ended_broken (c : Char) (cs : List Char) : Ended (c :: cs) (Address.broken 1 cs).length :=
  (ended_brokenLength cs).cons c

theorem ended_addressEnd (cs : List Char) : Ended cs (addressEnd cs).length := by
  unfold addressEnd
  dsimp only
  generalize (cs.takeWhile isSpace).length = spaces
  split
  case h_1 h => exact .inl (by simpa using h)
  case h_2 c rest h =>
    split
    case isTrue hc =>
      refine Ended.of_drop ?_
      rw [h, hc]
      exact ended_of_head rfl rest (Nat.le_refl _)
    case isFalse =>
      rw [Address.broken, Nat.add_assoc]
      refine Ended.of_drop ?_
      rw [h]
      exact (ended_brokenLength rest).cons c

theorem ended_address (cs : List Char) : Ended cs (address cs).length := by
  fun_induction address cs with
  | case1 => exact .inl (Nat.le_refl _)
  | case2 cs => exact ended_of_head rfl cs (Nat.le_refl _)
  | case3 c cs => exact ended_addressEnd (c :: cs)
  | case4 c cs => exact ended_broken c cs
  | case5 cs => exact ended_broken '\\' cs
  | case6 cs _ escaped _ _ _ ih =>
    rw [Address.cons, Nat.add_assoc]
    exact ih.of_drop.cons _
  | case7 c cs _ _ _ _ ih => exact ih.cons c

/-! ### Names that a call ends -/

/-- A text that ends as given, in any case. -/
def EndsWith (mark : String) (cs : List Char) : Prop :=
  ∃ v w, cs = v ++ w ∧ Text.eqIgnoringCase w mark.toList = true

theorem EndsWith.cons {mark : String} (h : EndsWith mark cs) (c : Char) :
    EndsWith mark (c :: cs) := by
  obtain ⟨v, w, rfl, hw⟩ := h
  exact ⟨c :: v, w, rfl, hw⟩

theorem length_of_eqIgnoringCase (h : Text.eqIgnoringCase x y = true) : x.length = y.length := by
  have hlen := congrArg List.length (beq_iff_eq.mp h)
  rwa [Text.asciiLower, Text.asciiLower, List.length_map, List.length_map] at hlen

/-- A text that is no longer than its end is this end. -/
theorem EndsWith.eq_of_length_le {mark : String} (h : EndsWith mark cs)
    (hle : cs.length ≤ mark.toList.length) : Text.eqIgnoringCase cs mark.toList = true := by
  obtain ⟨v, w, rfl, hw⟩ := h
  have hlen := length_of_eqIgnoringCase hw
  rw [List.length_append] at hle
  obtain rfl : v = [] := List.eq_nil_of_length_eq_zero (by omega)
  exact hw

theorem EndsWith.ne_url (h : EndsWith "t-ms" cs) : Text.asciiLower cs ≠ ['u', 'r', 'l'] := by
  intro hurl
  have hlen : cs.length = 3 := by
    have hlen := congrArg List.length hurl
    rwa [Text.asciiLower, List.length_map] at hlen
  have hms := length_of_eqIgnoringCase (h.eq_of_length_le (by rw [hlen]; decide))
  rw [hlen] at hms
  cases hms

theorem mem_take_of_startsCall (hb : StartsCall b) (hlt : a.length < n) :
    ∃ t, (t = 't' ∨ t = 'T') ∧ t ∈ (a ++ b).take n := by
  obtain ⟨rest, ht, -, -⟩ := hb
  refine ⟨_, ht, ?_⟩
  obtain ⟨k, rfl⟩ := Nat.exists_eq_add_of_lt hlt
  rw [List.take_append, List.mem_append, show a.length + k + 1 - a.length = k + 1 by omega]
  exact .inr List.mem_cons_self

theorem name_dash {m s : Char} (hm : m = 'm' ∨ m = 'M') (hs : s = 's' ∨ s = 'S')
    (rest : List Char) : name ('-' :: m :: s :: '(' :: rest) = ⟨['-', m, s], 3⟩ := by
  rcases hm with rfl | rfl <;> rcases hs with rfl | rfl <;>
    rw [name_cons rfl, name_cons rfl, name_cons rfl, name_stop rfl (by decide)] <;> rfl

theorem name_of_startsCall (hb : StartsCall b) :
    (name b).length = 4 ∧ EndsWith "t-ms" (name b).value := by
  obtain ⟨rest, ht, hm, hs⟩ := hb
  rcases ht with rfl | rfl <;> rw [name_cons rfl, name_dash hm hs] <;>
    refine ⟨rfl, [], _, rfl, ?_⟩ <;>
    rcases hm with rfl | rfl <;> rcases hs with rfl | rfl <;> rfl

theorem mem_take_escape {d : Char} (h : d ∈ cs.take (escape cs).length) :
    isHexDigit d = true ∨ isSpace d = true ∨ (escape cs).length = 1 := by
  cases cs with
  | nil => cases h
  | cons c cs =>
    rw [escape] at h ⊢
    split
    case isFalse => exact .inr (.inr rfl)
    case isTrue hc =>
      rw [if_pos hc] at h
      dsimp only at h
      rw [List.take_add, List.mem_append] at h
      have hdigits : ((c :: cs).take 6).takeWhile isHexDigit <+: c :: cs :=
        (List.takeWhile_prefix _).trans (List.take_prefix _ _)
      rcases h with h | h
      · rw [← List.prefix_iff_eq_take.mp hdigits] at h
        exact .inl (List.mem_takeWhile_imp h)
      · exact .inr (.inl (isSpace_of_mem_take_spaceLength h))

/-- An escape that comes upon a call starts with it. -/
theorem eq_nil_of_escape (hb : StartsCall b) (hlt : a.length < (escape (a ++ b)).length) :
    a = [] := by
  obtain ⟨t, ht, hmem⟩ := mem_take_of_startsCall hb hlt
  rcases mem_take_escape hmem with h | h | h
  · rcases ht with rfl | rfl <;> cases h
  · rcases ht with rfl | rfl <;> cases h
  · exact List.eq_nil_of_length_eq_zero (by omega)

/-- A name that comes upon a call ends before its bracket. -/
theorem name_call (hb : StartsCall b) (h : cs = a ++ b) (hlt : a.length < (name cs).length) :
    (name cs).length = a.length + 4 ∧ EndsWith "t-ms" (name cs).value := by
  fun_induction name cs generalizing a
  case case1 => exact absurd hlt (Nat.not_lt_zero _)
  case case2 c cs hc ih =>
    cases a with
    | nil =>
      obtain rfl : c :: cs = b := h
      obtain ⟨hlen, hends⟩ := name_of_startsCall hb
      rw [name_cons hc] at hlen hends
      exact ⟨hlen, hends⟩
    | cons d a =>
      obtain ⟨rfl, rfl⟩ := List.cons.inj h
      simp only [Scan.cons, List.length_cons] at hlt ⊢
      obtain ⟨hlen, hends⟩ := ih rfl (by omega)
      exact ⟨by omega, hends.cons _⟩
  case case3 c cs _ hc escaped ih =>
    obtain rfl : c = '\\' := of_decide_eq_true (Bool.and_eq_true_iff.mp hc).1
    cases a with
    | nil =>
      obtain rfl : '\\' :: cs = b := h
      rcases hb with ⟨_, ht | ht, -, -⟩ <;> cases ht
    | cons d a =>
      obtain ⟨rfl, rfl⟩ := List.cons.inj h
      simp only [Scan.cons, List.length_cons] at hlt ⊢
      by_cases he : a.length < escaped.length
      · obtain rfl := eq_nil_of_escape hb he
        obtain ⟨rest, ht, hm, hs⟩ := hb
        rcases ht with rfl | rfl
        all_goals
          change 1 + 1 + (name ('-' :: _ :: _ :: '(' :: rest)).length = _ ∧
            EndsWith _ (_ :: (name ('-' :: _ :: _ :: '(' :: rest)).value)
          rw [name_dash hm hs]
          refine ⟨rfl, [], _, rfl, ?_⟩
          rcases hm with rfl | rfl <;> rcases hs with rfl | rfl <;> rfl
      · have hdrop : (a ++ b).drop escaped.length = a.drop escaped.length ++ b :=
          List.drop_append_of_le_length (Nat.le_of_not_lt he)
        obtain ⟨hlen, hends⟩ := ih hdrop (by rw [List.length_drop]; omega)
        rw [List.length_drop] at hlen
        exact ⟨by omega, hends.cons _⟩
  case case4 => exact absurd hlt (Nat.not_lt_zero _)

/-! ### Tokens that come upon a call -/

namespace Token

/-- Tokens that are enclosed by marks, of which the last may be missing. -/
def isEnclosed : Token → Bool
  | comment _ => true
  | string _ => true
  | brokenString _ => true
  | address _ => true
  | brokenAddress => true
  | _ => false

/-- Tokens that have a name behind a sign or a number. -/
def isPrefixed : Token → Bool
  | hash _ _ => true
  | atKeyword _ => true
  | dimension _ _ => true
  | _ => false

end Token

/-- What a token is that comes upon a call behind its first `n` characters. -/
inductive Takes (n : Nat) (token : Scan Token) : Prop
  | function {name : List Char} : token.value = .function name → EndsWith "t-ms" name →
    token.length = n + 5 → Takes n token
  | enclosed : token.value.isEnclosed = true → n + 5 ≤ token.length → Takes n token
  | prefixed : token.value.isPrefixed = true → token.length = n + 4 → Takes n token

/-- A token without a letter of a call does not come upon one. -/
theorem absurd_of_letters {p : Char → Bool} (hb : StartsCall b) (hlt : a.length < n)
    (hp : ∀ d ∈ (a ++ b).take n, p d = true) (ht : p 't' = false) (hT : p 'T' = false) : False := by
  obtain ⟨t, rfl | rfl, hmem⟩ := mem_take_of_startsCall hb hlt
  · rw [hp _ hmem] at ht
    cases ht
  · rw [hp _ hmem] at hT
    cases hT

theorem numericToken_call (hb : StartsCall b) (hlt : a.length < (numericToken (a ++ b)).length) :
    Takes a.length (numericToken (a ++ b)) := by
  have hle : (numeral (a ++ b)).length ≤ a.length := Nat.le_of_not_lt fun hlt =>
    absurd_of_letters hb hlt (fun d => isNumeralChar_of_mem_numeral) rfl rfl
  unfold numericToken at hlt ⊢
  generalize numeral (a ++ b) = number at hle hlt ⊢
  dsimp only at hlt ⊢
  rw [List.drop_append_of_le_length hle] at hlt ⊢
  split at hlt
  case isTrue hp =>
    dsimp only at hlt
    have hnil : a.drop number.length = [] := List.drop_of_length_le (by omega)
    rw [hnil, List.nil_append] at hp
    rcases hb with ⟨_, rfl | rfl, -, -⟩ <;> cases hp
  case isFalse hp =>
    rw [if_neg hp]
    split at hlt
    case isTrue hs =>
      rw [if_pos hs]
      dsimp only at hlt ⊢
      obtain ⟨hlen, -⟩ := name_call hb (a := a.drop number.length) rfl
        (by rw [List.length_drop]; omega)
      rw [List.length_drop] at hlen
      exact .prefixed rfl (by dsimp only; omega)
    case isFalse => exact absurd hlt (Nat.not_lt_of_le hle)

theorem nameToken_call (hb : StartsCall b) (hlt : a.length < (nameToken (a ++ b)).length) :
    Takes a.length (nameToken (a ++ b)) := by
  rw [nameToken_eq] at hlt ⊢
  by_cases hname : a.length < (name (a ++ b)).length
  · obtain ⟨hlen, hends⟩ := name_call hb rfl hname
    obtain ⟨rest, hrest⟩ : ∃ rest, (a ++ b).drop (name (a ++ b)).length = '(' :: rest := by
      rw [hlen, List.drop_length_add_append]
      cases hb with
      | intro rest => exact ⟨rest, rfl⟩
    have hbracket : startsWith (· == '(') ('(' :: rest) = true := rfl
    rw [hrest, if_pos hbracket, bracketToken, if_neg (by simp [hends.ne_url])]
    exact .function rfl hends (by dsimp only; omega)
  · have hle := Nat.le_of_not_lt hname
    generalize name (a ++ b) = n at hle hlt ⊢
    split at hlt
    case isFalse => exact absurd hlt (Nat.not_lt_of_le hle)
    case isTrue hp =>
      rw [if_pos hp]
      unfold bracketToken at hlt ⊢
      dsimp only at hlt ⊢
      split at hlt
      case isTrue hurl =>
        rw [if_pos hurl]
        refine .enclosed ?_ ?_
        · dsimp only
          split <;> rfl
        · refine Ended.length_le (Ended.of_drop ?_) hb hlt
          rw [← List.drop_drop]
          exact ended_address _
      case isFalse =>
        -- the bracket would be the first character of the call
        have hdrop : (a ++ b).drop n.length = b := by
          rw [show n.length = a.length by dsimp only at hlt; omega, List.drop_left]
        rw [hdrop] at hp
        rcases hb with ⟨_, rfl | rfl, -, -⟩ <;> cases hp

theorem signToken_call (hb : StartsCall b) (h : c :: cs = a ++ b)
    (hc : startsName (c :: cs) = false) (hlt : a.length < (signToken c cs).length) :
    Takes a.length (signToken c cs) := by
  obtain ⟨a, rfl, rfl⟩ : ∃ a', a = c :: a' ∧ cs = a' ++ b := by
    cases a with
    | nil =>
      obtain rfl : c :: cs = b := h
      rcases hb with ⟨_, rfl | rfl, -, -⟩ <;> cases hc
    | cons d a =>
      obtain ⟨rfl, rfl⟩ := List.cons.inj h
      exact ⟨a, rfl, rfl⟩
  have hprefixed : a.length < (name (a ++ b)).length →
      1 + (name (a ++ b)).length = (c :: a).length + 4 := fun hname => by
    obtain ⟨hlen, -⟩ := name_call hb rfl hname
    rw [List.length_cons]
    omega
  rw [List.length_cons] at hlt
  revert hlt
  fun_cases signToken c (a ++ b) with
  | case1 hcompare =>
    intro hlt
    obtain ⟨hsign, heq⟩ := Bool.and_eq_true_iff.mp hcompare
    refine (absurd_of_letters (a := c :: a) (p := fun d => !d.isAlpha) hb hlt ?_ rfl rfl).elim
    have hc : (!c.isAlpha) = true := by
      simp only [Bool.or_eq_true, decide_eq_true_eq] at hsign
      rcases hsign with (((rfl | rfl) | rfl) | rfl) | rfl <;> rfl
    rw [List.cons_append]
    cases hrest : a ++ b with
    | nil => rw [hrest] at heq; cases heq
    | cons e rest =>
      rw [hrest] at heq
      obtain rfl : e = '=' := beq_iff_eq.mp heq
      exact List.forall_mem_cons.mpr ⟨hc, List.forall_mem_cons.mpr ⟨rfl, List.forall_mem_nil _⟩⟩
  | case2 | case3 =>
    intro (hlt : a.length + 1 < 1 + (name (a ++ b)).length)
    exact .prefixed rfl (hprefixed (by omega))
  | case4 =>
    intro hlt
    refine .enclosed rfl (Ended.length_le (b := b) (a := c :: a) (Ended.of_drop ?_) hb hlt)
    rw [List.cons_append, List.drop_succ_cons, List.drop_one]
    exact ended_comment _
  | case5 _ _ _ _ hmark =>
    intro hlt
    obtain ⟨hc, htake⟩ := Bool.and_eq_true_iff.mp hmark
    refine (absurd_of_letters (a := c :: a) (p := fun d => !d.isAlpha) hb hlt ?_ rfl rfl).elim
    rw [List.cons_append, List.take_succ_cons, of_decide_eq_true htake, of_decide_eq_true hc]
    simp only [List.forall_mem_cons]
    exact ⟨rfl, rfl, rfl, rfl, List.forall_mem_nil _⟩
  | case6 => exact fun hlt => absurd hlt (by dsimp only; omega)

theorem nextToken_call (hb : StartsCall b) (h : c :: cs = a ++ b)
    (hlt : a.length < (nextToken c cs).length) : Takes a.length (nextToken c cs) := by
  revert hlt
  fun_cases nextToken c cs with
  | case1 hspace =>
    intro hlt
    refine (absurd_of_letters (p := isSpace) hb hlt ?_ rfl rfl).elim
    rw [← h]
    dsimp only
    rw [Nat.add_comm, List.take_succ_cons, take_length_takeWhile]
    exact List.forall_mem_cons.mpr ⟨hspace, fun d => List.mem_takeWhile_imp⟩
  | case2 _ hquote =>
    intro hlt
    rw [Bool.or_eq_true, decide_eq_true_eq, decide_eq_true_eq] at hquote
    have hq : isCallChar c = false := by rcases hquote with rfl | rfl <;> rfl
    refine .enclosed ?_ (Ended.length_le (h ▸ (ended_quoted hq cs).cons c) hb hlt)
    dsimp only
    split <;> rfl
  | case3 =>
    rw [h]
    exact numericToken_call hb
  | case4 _ _ _ hmark =>
    intro hlt
    obtain ⟨hc, htake⟩ := Bool.and_eq_true_iff.mp hmark
    refine (absurd_of_letters (p := fun d => !d.isAlpha) hb hlt ?_ rfl rfl).elim
    rw [← h, List.take_succ_cons, of_decide_eq_true htake, of_decide_eq_true hc]
    simp only [List.forall_mem_cons]
    exact ⟨rfl, rfl, rfl, List.forall_mem_nil _⟩
  | case5 =>
    rw [h]
    exact nameToken_call hb
  | case6 _ _ _ _ hname => exact signToken_call hb h (Bool.eq_false_iff.mpr hname)

/-! ### Texts with a call -/

/-- A function called `t-ms`, written without escapes. -/
def Lexeme.IsCall (l : Lexeme) : Prop :=
  ∃ name, l.token = .function name ∧ Text.eqIgnoringCase name "t-ms".toList = true ∧
    EndsWith "t-ms(" l.text

/-- Tokens that spell a call but are none. -/
inductive Lookalike (ls : List Lexeme) : Prop
  /-- A function with a longer name. -/
  | function {l : Lexeme} {name : List Char} : l ∈ ls → l.token = .function name →
    4 < name.length → EndsWith "t-ms" name → EndsWith "t-ms(" l.text → Lookalike ls
  /-- A comment, a string or an address. -/
  | enclosed {l : Lexeme} : l ∈ ls → l.token.isEnclosed = true → HoldsCall l.text → Lookalike ls
  /-- A name behind a sign or a number, with a bracket right behind it. -/
  | prefixed {before behind : List Lexeme} {l : Lexeme} {line : Nat} :
    ls = before ++ l :: ⟨.opening .round, ['('], line⟩ :: behind → l.token.isPrefixed = true →
    EndsWith "t-ms" l.text → Lookalike ls

theorem Lookalike.cons {ls : List Lexeme} (h : Lookalike ls) (l : Lexeme) :
    Lookalike (l :: ls) := by
  cases h with
  | function hl ht hn he htext => exact .function (List.mem_cons_of_mem _ hl) ht hn he htext
  | enclosed hl ht htext => exact .enclosed (List.mem_cons_of_mem _ hl) ht htext
  | prefixed hls ht htext =>
    have hls := congrArg (l :: ·) hls
    rw [← List.cons_append] at hls
    exact .prefixed hls ht htext

theorem length_nextToken_pos (hb : StartsCall (c :: cs)) : 0 < (nextToken c cs).length := by
  have hc : nextToken c cs = nameToken (c :: cs) := by
    rcases hb with ⟨_, rfl | rfl, -, -⟩ <;> rfl
  have hlen := length_name_le_nameToken (c :: cs)
  rw [(name_of_startsCall hb).1, ← hc] at hlen
  omega

theorem endsWith_take (hb : StartsCall b) (a : List Char) :
    EndsWith "t-ms(" ((a ++ b).take (a.length + 5)) ∧
      EndsWith "t-ms" ((a ++ b).take (a.length + 4)) := by
  rw [List.take_length_add_append, List.take_length_add_append]
  exact ⟨⟨a, b.take 5, rfl, startsCall_iff.mpr hb⟩, a, b.take 4, rfl, by
    rcases hb with ⟨rest, rfl | rfl, rfl | rfl, rfl | rfl⟩ <;> rfl⟩

theorem lexemes_bracket (line : Nat) (cs : List Char) :
    lexemes line ('(' :: cs) = ⟨.opening .round, ['('], line⟩ :: lexemes line cs := by
  rw [lexemes]
  rfl

/-- Where a text has a call, its tokens have one or spell one. -/
theorem lexemes_call (hb : StartsCall b) (line : Nat) (h : cs = a ++ b) :
    (∃ l ∈ lexemes line cs, l.IsCall) ∨ Lookalike (lexemes line cs) := by
  fun_induction lexemes line cs generalizing a
  case case1 =>
    obtain ⟨-, rfl⟩ := List.append_eq_nil_iff.mp h.symm
    cases hb
  case case2 line c cs next text ih =>
    have hmem : ⟨next.value, text, line⟩ ∈ ⟨next.value, text, line⟩ ::
      lexemes (line + newlines text) (cs.drop (next.length - 1)) := List.mem_cons_self
    by_cases hlt : a.length < next.length
    · have htake : text = (a ++ b).take next.length := by
        rw [← h, List.take_cons (Nat.lt_of_le_of_lt (Nat.zero_le _) hlt)]
      cases nextToken_call hb h hlt with
      | @function name hname hends hlen =>
        have htext : EndsWith "t-ms(" text := by
          rw [htake, hlen]
          exact (endsWith_take hb a).1
        by_cases hlong : 4 < name.length
        · exact .inr (.function hmem hname hlong hends htext)
        · exact .inl ⟨_, hmem, name, hname, hends.eq_of_length_le (Nat.le_of_not_lt hlong), htext⟩
      | enclosed henclosed hlen =>
        refine .inr (.enclosed hmem henclosed ?_)
        obtain ⟨k, hk⟩ := Nat.exists_eq_add_of_le hlen
        rw [htake, hk, Nat.add_assoc, List.take_length_add_append]
        exact ⟨a, _, rfl, hb.take k⟩
      | prefixed hprefixed hlen =>
        have hlen : next.length = a.length + 4 := hlen
        have htext : EndsWith "t-ms" text := by
          rw [htake, hlen]
          exact (endsWith_take hb a).2
        obtain ⟨rest, hrest⟩ : ∃ rest, cs.drop (next.length - 1) = '(' :: rest := by
          rw [← List.drop_succ_cons (a := c), h, show next.length - 1 + 1 = a.length + 4 by omega,
            List.drop_length_add_append]
          cases hb with
          | intro rest => exact ⟨rest, rfl⟩
        rw [hrest, lexemes_bracket, ← List.nil_append (Lexeme.mk next.value text line :: _)]
        exact .inr (.prefixed rfl hprefixed htext)
    · cases a with
      | nil =>
        obtain rfl : c :: cs = b := h
        exact absurd (length_nextToken_pos hb) hlt
      | cons d a =>
        obtain ⟨rfl, rfl⟩ := List.cons.inj h
        have hdrop : (a ++ b).drop (next.length - 1) = a.drop (next.length - 1) ++ b :=
          List.drop_append_of_le_length (by rw [List.length_cons] at hlt; omega)
        rcases ih hdrop with ⟨l, hl, hcall⟩ | hlook
        · exact .inl ⟨l, List.mem_cons_of_mem _ hl, hcall⟩
        · exact .inr (hlook.cons _)

theorem EndsWith.holdsCall (h : EndsWith "t-ms(" cs) : HoldsCall cs := by
  obtain ⟨v, w, rfl, hw⟩ := h
  have hlen : w.length = 5 := length_of_eqIgnoringCase hw
  exact ⟨v, w, rfl, startsCall_iff.mp (by rwa [List.take_of_length_le (Nat.le_of_eq hlen)])⟩

/-- A text has a call exactly if its tokens have one or spell one. -/
theorem holdsCall_iff (line : Nat) (cs : List Char) : HoldsCall cs ↔
    (∃ l ∈ lexemes line cs, l.IsCall) ∨ Lookalike (lexemes line cs) := by
  have hsplit : ∀ before ls behind, lexemes line cs = before ++ ls ++ behind →
      HoldsCall (ls.flatMap Lexeme.text) → HoldsCall cs := by
    intro before ls behind h hcall
    rw [← flatMap_text_lexemes line cs, h, List.flatMap_append, List.flatMap_append]
    exact hcall.append _ _
  have hmem : ∀ l ∈ lexemes line cs, HoldsCall l.text → HoldsCall cs := by
    intro l hl hcall
    obtain ⟨before, behind, h⟩ := List.append_of_mem hl
    exact hsplit before [l] behind (by rw [h, List.append_assoc]; rfl) (by simpa using hcall)
  constructor
  · rintro ⟨a, b, h, hb⟩
    exact lexemes_call hb line h
  · rintro (⟨l, hl, -, -, -, htext⟩ | hlook)
    · exact hmem l hl htext.holdsCall
    · cases hlook with
      | function hl _ _ _ htext => exact hmem _ hl htext.holdsCall
      | enclosed hl _ htext => exact hmem _ hl htext
      | @prefixed before behind l line' hls _ htext =>
        refine hsplit before [l, ⟨.opening .round, ['('], line'⟩] behind (by simp [hls]) ?_
        obtain ⟨v, w, hvw, hw⟩ := htext
        refine EndsWith.holdsCall ⟨v, w ++ ['('], by simp [hvw], ?_⟩
        rw [Text.eqIgnoringCase, Text.asciiLower_append, beq_iff_eq.mp hw]
        rfl

end ModularScale.Css
