import Mathlib
import ModularScale.Proofs.Text.Trim

/-! # Spellings of a text

A text in camel case, with dashes or in any case is the same text once its dashes are dropped and
its letters of ASCII are in lower case. Behind a dash, camel case takes the full upper case of a
letter; for ten letters outside ASCII that is made of letters of ASCII.
-/

namespace ModularScale.Text

variable {c d : Char} {cs ds : List Char}

/-! ## Lower case -/

theorem isAlpha_of_isLower (h : c.isLower = true) : c.isAlpha = true :=
  Bool.or_eq_true_iff.mpr (.inr h)

theorem toLower_cases (c : Char) :
    c.toLower = c ∨ (c.isAlpha = true ∧ c.toLower.isLower = true) := by
  by_cases h : c.isUpper = true
  · have ha : c.isAlpha = true := by simp [Char.isAlpha, h]
    exact .inr ⟨ha, by rw [Char.isLower_toLower_eq_isAlpha, ha]⟩
  · exact .inl (Char.toLower_eq_of_not_isUpper h)

theorem asciiLower_asciiLower (cs : List Char) : asciiLower (asciiLower cs) = asciiLower cs := by
  simp [asciiLower]

theorem asciiLower_append (cs ds : List Char) :
    asciiLower (cs ++ ds) = asciiLower cs ++ asciiLower ds :=
  List.map_append

@[simp] theorem toLower_eq_dash : c.toLower = '-' ↔ c = '-' :=
  ⟨fun h => eq_of_toLower_eq h (by decide), fun h => by rw [h]; decide⟩

/-! ## Characters of ASCII -/

def isAscii (c : Char) : Bool :=
  c.toNat < 128

/-- All of ASCII is checked by its codes. -/
theorem of_isAscii {p : Char → Prop} (hp : ∀ n < 128, p (Char.ofNat n)) (h : isAscii c = true) :
    p c := by
  have hc := hp c.toNat (of_decide_eq_true h)
  rwa [Char.ofNat_toNat] at hc

theorem isAscii_of_isAlpha (h : c.isAlpha = true) : isAscii c = true := by
  delta Char.isAlpha Char.isUpper Char.isLower at h
  unfold isAscii Char.toNat
  simp [UInt32.le_iff_toNat_le] at h ⊢
  omega

@[simp] theorem isAscii_toLower (c : Char) : isAscii c.toLower = isAscii c := by
  rcases toLower_cases c with h | ⟨hc, hl⟩
  · rw [h]
  · rw [isAscii_of_isAlpha hc, isAscii_of_isAlpha (isAlpha_of_isLower hl)]

@[simp] theorem all_isAscii_asciiLower (cs : List Char) :
    (asciiLower cs).all isAscii = cs.all isAscii := by
  rw [asciiLower, List.all_map]
  exact congrArg (cs.all ·) (funext isAscii_toLower)

/-! ## Texts without dashes -/

/-- What is left of a text without its dashes, in lower case. -/
def dashless (cs : List Char) : List Char :=
  asciiLower (cs.filter (· != '-'))

@[simp] theorem dashless_dash (cs : List Char) : dashless ('-' :: cs) = dashless cs := rfl

theorem dashless_cons (h : c ≠ '-') (cs : List Char) :
    dashless (c :: cs) = c.toLower :: dashless cs := by
  rw [dashless, List.filter_cons_of_pos (by simpa using h)]
  rfl

theorem dashless_eq_filter (cs : List Char) : dashless cs = (asciiLower cs).filter (· != '-') := by
  have hf : (fun c : Char => c != '-') ∘ Char.toLower = (· != '-') := by
    funext c
    rw [Function.comp_apply, Bool.eq_iff_iff, bne_iff_ne, bne_iff_ne, ne_eq, toLower_eq_dash]
  rw [dashless, asciiLower, asciiLower, List.filter_map, hf]

theorem dashless_congr (h : asciiLower cs = asciiLower ds) : dashless cs = dashless ds := by
  rw [dashless_eq_filter, dashless_eq_filter, h]

theorem dash_not_mem_dashless (cs : List Char) : '-' ∉ dashless cs := by
  simp [dashless_eq_filter]

theorem all_dashless {p : Char → Bool} (hl : ∀ c, p c.toLower = p c) (hd : p '-' = true)
    (cs : List Char) : (dashless cs).all p = cs.all p := by
  induction cs with
  | nil => rfl
  | cons c cs ih =>
    by_cases hc : c = '-'
    · subst hc
      rw [dashless_dash, ih, List.all_cons, hd, Bool.true_and]
    · rw [dashless_cons hc, List.all_cons, List.all_cons, ih, hl]

/-- Writing a text with dashes adds dashes and changes the case. -/
theorem dashless_splitCapitals (previous : Option Char) (cs : List Char) :
    dashless (splitCapitals previous cs) = dashless cs := by
  induction cs generalizing previous with
  | nil => rfl
  | cons c cs ih =>
    have hc : dashless (c.toLower :: splitCapitals (some c.toLower) cs) = dashless (c :: cs) := by
      by_cases hd : c = '-'
      · subst hd
        exact ih _
      · rw [dashless_cons (by simpa), dashless_cons hd, ih,
          Char.toLower_toLower_eq_toLower]
    unfold splitCapitals
    split
    · exact hc
    · exact hc

/-! ## Upper case behind a dash -/

/-- The letters outside ASCII whose upper case is made of letters of ASCII, with those in lower
case. -/
def outsiders : List (Char × List Char) := [
  ('ı', ['i']), ('ſ', ['s']), ('ß', ['s', 's']), ('ﬀ', ['f', 'f']), ('ﬁ', ['f', 'i']),
  ('ﬂ', ['f', 'l']), ('ﬃ', ['f', 'f', 'i']), ('ﬄ', ['f', 'f', 'l']), ('ﬅ', ['s', 't']),
  ('ﬆ', ['s', 't'])]

/-- A letter as camel case takes it behind a dash, up to the case. -/
def spelling (c : Char) : List Char :=
  (outsiders.lookup c).getD [c]

/-- Puts letters of ASCII in the place of an outsider directly behind a dash. -/
def spellOut (afterDash : Bool) : List Char → List Char
  | [] => []
  | c :: cs =>
    if c = '-' then c :: spellOut true cs
    else if afterDash then spelling c ++ spellOut false cs
    else c :: spellOut false cs

theorem upperCase_of_isAscii (h : isAscii c = true) : asciiLower (upperCase c) = [c.toLower] :=
  of_isAscii (p := fun c => asciiLower (upperCase c) = [c.toLower]) (by decide +kernel) h

theorem lookup_outsiders_of_isAscii (h : isAscii c = true) : outsiders.lookup c = none :=
  of_isAscii (p := fun c => outsiders.lookup c = none) (by decide +kernel) h

theorem upperCase_of_outsider (h : (outsiders.lookup c).isSome) :
    asciiLower (upperCase c) = spelling c := by
  have ho : ∀ o ∈ outsiders, asciiLower (upperCase o.1) = spelling o.1 := by decide +kernel
  obtain ⟨ds, hd⟩ := Option.isSome_iff_exists.mp h
  obtain ⟨l₁, l₂, hl, -⟩ := List.lookup_eq_some_iff.mp hd
  exact ho (c, ds) (by simp [hl])

/-- Letters and their upper case are outside ASCII in every run but that of ASCII itself and those
of an outsider. -/
theorem CaseRun.outside : ∀ run ∈ all, 128 ≤ run.last →
    (run.first = run.last ∧ (outsiders.lookup (Char.ofNat run.first)).isSome) ∨
      (128 ≤ run.first + run.shift ∧
        (run.last + run.shift < 0xD800 ∨
          0xDFFF < run.first + run.shift ∧ run.last + run.shift < 0x110000)) := by
  decide +kernel

theorem longUpperCases_outside : ∀ entry ∈ longUpperCases,
    (outsiders.lookup (Char.ofNat entry.1)).isSome ∨
      (entry.2.map Char.ofNat).all isAscii = false := by
  decide +kernel

/-- Upper case leads from outside ASCII into it for the outsiders alone. -/
theorem upperCase_outside (ha : isAscii c = false) (ho : outsiders.lookup c = none) :
    (upperCase c).all isAscii = false := by
  have hno : ∀ n, c.toNat = n → ¬(outsiders.lookup (Char.ofNat n)).isSome := by
    rintro n rfl
    simp [Char.ofNat_toNat, ho]
  have hc : 128 ≤ c.toNat := Nat.le_of_not_lt (of_decide_eq_false ha)
  unfold upperCase
  split
  case h_1 ns h =>
    obtain ⟨l₁, l₂, hl, -⟩ := List.lookup_eq_some_iff.mp h
    exact (longUpperCases_outside (c.toNat, ns) (by simp [hl])).resolve_left (hno _ rfl)
  case h_2 =>
    split
    case h_1 run h =>
      have hcov := List.find?_some h
      simp only [CaseRun.covers, Bool.and_eq_true, decide_eq_true_eq] at hcov
      obtain ⟨⟨hfirst, hlast⟩, -⟩ := hcov
      rcases CaseRun.outside run (List.mem_of_find?_eq_some h) (by omega) with
        ⟨hs, hout⟩ | ⟨hlow, hhigh⟩
      · exact absurd hout (hno run.first (by omega))
      · have hv : (c.toNat + run.shift).toNat.isValidChar := by
          unfold Nat.isValidChar
          omega
        have hn : (Char.ofNat (c.toNat + run.shift).toNat).toNat = (c.toNat + run.shift).toNat := by
          rw [Char.ofNat, dif_pos hv]
          rfl
        simp [isAscii, hn]
        omega
    case h_2 => simp [ha]

/-! ## Camel case -/

/-- Two texts are the same up to the case, or neither is made of ASCII. -/
def Alike (cs ds : List Char) : Prop :=
  asciiLower cs = asciiLower ds ∨ (cs.all isAscii = false ∧ ds.all isAscii = false)

theorem Alike.append {cs' ds' : List Char} (h : Alike cs ds) (h' : Alike cs' ds') :
    Alike (cs ++ cs') (ds ++ ds') := by
  have hall : ∀ {as bs : List Char}, asciiLower as = asciiLower bs →
      as.all isAscii = bs.all isAscii := by
    intro as bs he
    rw [← all_isAscii_asciiLower, he, all_isAscii_asciiLower]
  rcases h with h | ⟨hc, hd⟩
  · rcases h' with h' | ⟨hc, hd⟩
    · exact .inl (by rw [asciiLower_append, asciiLower_append, h, h'])
    · exact .inr (by simp [hc, hd])
  · exact .inr (by simp [hc, hd])

theorem alike_upperCase (c : Char) : Alike (upperCase c) (spelling c) := by
  cases ha : isAscii c with
  | true =>
    left
    rw [upperCase_of_isAscii ha, spelling, lookup_outsiders_of_isAscii ha]
    rfl
  | false =>
    cases ho : outsiders.lookup c with
    | none => exact .inr ⟨upperCase_outside ha ho, by simp [spelling, ho, ha]⟩
    | some ds =>
      left
      rw [← upperCase_of_outsider (by simp [ho]), asciiLower_asciiLower]

theorem dash_not_mem_spelling (h : c ≠ '-') : '-' ∉ spelling c := by
  have ho : ∀ o ∈ outsiders, '-' ∉ o.2 := by decide
  unfold spelling
  cases hl : outsiders.lookup c with
  | none => simpa using h.symm
  | some ds =>
    obtain ⟨l₁, l₂, hl, -⟩ := List.lookup_eq_some_iff.mp hl
    exact ho (c, ds) (by simp [hl])

/-- Camel case spells a text out and drops its dashes. -/
theorem alike_joinDashed (afterDash : Bool) (cs : List Char) :
    Alike (joinDashed afterDash cs) ((spellOut afterDash cs).filter (· != '-')) := by
  have hspelling : ∀ {c}, c ≠ '-' → (spelling c).filter (· != '-') = spelling c := by
    intro c hc
    refine List.filter_eq_self.mpr fun d hd => bne_iff_ne.mpr ?_
    exact ne_of_mem_of_not_mem hd (dash_not_mem_spelling hc)
  have hcons : ∀ c, Alike [c] [c] := fun c => .inl rfl
  induction cs generalizing afterDash with
  | nil => exact .inl rfl
  | cons c cs ih =>
    unfold joinDashed spellOut
    split
    case isTrue hc =>
      subst hc
      exact ih true
    case isFalse hc =>
      split
      · rw [List.filter_append, hspelling hc]
        exact (alike_upperCase c).append (ih false)
      · rw [List.filter_cons_of_pos (by simpa using hc)]
        exact (hcons c).append (ih false)

theorem asciiLower_camelCase_eq_iff (hd : ds.all isAscii = true) :
    asciiLower (camelCase cs) = dashless ds ↔
      dashless (spellOut false (trim cs)) = dashless ds := by
  rcases alike_joinDashed false (trim cs) with h | ⟨hc, ho⟩
  · rw [camelCase, h]
    rfl
  · have hne : ∀ as : List Char, as.all isAscii = false → asciiLower as ≠ dashless ds := by
      intro as ha he
      rw [← all_isAscii_asciiLower, he, all_dashless isAscii_toLower rfl, hd] at ha
      cases ha
    exact iff_of_false (hne _ hc) (hne _ ho)

/-- Nothing is spelled out where no outsider stands directly behind a dash. -/
theorem spellOut_eq_self {afterDash : Bool} (h : ∀ c, ['-', c] <:+: cs → outsiders.lookup c = none)
    (hd : afterDash = true → ∀ c, cs.head? = some c → outsiders.lookup c = none) :
    spellOut afterDash cs = cs := by
  induction cs generalizing afterDash with
  | nil => rfl
  | cons c cs ih =>
    have hcs : ∀ d, ['-', d] <:+: cs → outsiders.lookup d = none :=
      fun d hi => h d (hi.trans (List.suffix_cons c cs).isInfix)
    unfold spellOut
    split
    case isTrue hc =>
      subst hc
      rw [ih hcs]
      rintro - d hd
      obtain ⟨ds, rfl⟩ := List.head?_eq_some_iff.mp hd
      exact h d ⟨[], ds, rfl⟩
    case isFalse =>
      rw [@ih false hcs nofun]
      split
      case isTrue ha => rw [spelling, hd ha c rfl, Option.getD_none, List.singleton_append]
      case isFalse => rfl

theorem spellOut_of_isAscii (h : cs.all isAscii = true) : spellOut false cs = cs := by
  refine spellOut_eq_self (fun c hc => ?_) nofun
  exact lookup_outsiders_of_isAscii (List.all_eq_true.mp h c (hc.subset (by simp)))

/-- For texts of ASCII, camel case drops the dashes up to the case. -/
theorem asciiLower_camelCase (h : (trim cs).all isAscii = true) :
    asciiLower (camelCase cs) = dashless (trim cs) := by
  rw [asciiLower_camelCase_eq_iff h, spellOut_of_isAscii h]

theorem dashless_camelCase (h : (trim cs).all isAscii = true) :
    dashless (camelCase cs) = dashless (trim cs) := by
  rw [dashless_eq_filter, asciiLower_camelCase h, List.filter_eq_self]
  intro c hc
  exact bne_iff_ne.mpr (ne_of_mem_of_not_mem hc (dash_not_mem_dashless _))

end ModularScale.Text
