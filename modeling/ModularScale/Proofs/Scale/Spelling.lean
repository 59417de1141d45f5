import ModularScale.Proofs.Scale.Acceptance
import ModularScale.Proofs.Text.Casing
import ModularScale.Sizing.Measure

/-! # Spellings of breakpoint names

In an accepted table a breakpoint is found by its name in every spelling, and no spelling stands for
two breakpoints. A name that is looked up may also have some letters outside ASCII behind a dash.
-/

namespace ModularScale

open Text

variable {settings : Settings} {table : Breakpoints} {a b : Breakpoint} {c : Char}
  {cs s : List Char} {p : String}

namespace Breakpoint

/-! ## Names -/

theorem isAscii_of_isNameChar (h : isNameChar c = true) : isAscii c = true := by
  unfold isNameChar at h
  delta Char.isAlphanum Char.isDigit at h
  simp only [Bool.or_eq_true, Bool.and_eq_true, decide_eq_true_eq, beq_iff_eq] at h
  rcases h with ((h | h) | rfl) | rfl
  · exact isAscii_of_isAlpha h
  · have hc := UInt32.le_iff_toNat_le.mp h.2
    exact decide_eq_true (Nat.lt_of_le_of_lt hc (by decide))
  · rfl
  · rfl

/-- Names hold no white space and no parentheses. -/
theorem not_isNameChar_of_isBlank (h : isBlank c = true) : isNameChar c = false := by
  by_contra hn
  rw [Bool.not_eq_false] at hn
  have hc : isNameChar c = false :=
    of_isAscii (p := fun c => isBlank c = true → isNameChar c = false) (by decide +kernel)
      (isAscii_of_isNameChar hn) h
  rw [hn] at hc
  cases hc

theorem isNameChar_toLower (c : Char) : isNameChar c.toLower = isNameChar c := by
  have halpha : ∀ {d : Char}, d.isAlpha = true → isNameChar d = true := by
    intro d hd
    simp [isNameChar, Char.isAlphanum, hd]
  rcases toLower_cases c with h | ⟨hc, hl⟩
  · rw [h]
  · rw [halpha hc, halpha (isAlpha_of_isLower hl)]

theorem all_isAscii (h : cs.all isNameChar = true) : cs.all isAscii = true := by
  rw [List.all_eq_true] at h ⊢
  exact fun c hc => isAscii_of_isNameChar (h c hc)

theorem trimmed_of_all_isNameChar (h : cs.all isNameChar = true) : Trimmed cs := by
  refine .of_forall fun c hc => ?_
  by_contra hb
  have hn := List.all_eq_true.mp h c hc
  rw [not_isNameChar_of_isBlank ((Bool.not_eq_false _).mp hb)] at hn
  cases hn

/-- The ways to write a name, each of them in any case. -/
inductive Spells (name s : List Char) : Prop
  | plain (h : asciiLower s = asciiLower name)
  | dashed (h : asciiLower s = asciiLower (kebabCase name))
  | camel (h : asciiLower s = asciiLower (camelCase name))

/-- A parameter that holds a text with white space around it, in parentheses or not. -/
inductive Encloses (s : List Char) : List Char → Prop
  | bare {v w : List Char} (hv : ∀ c ∈ v, isBlank c = true) (hw : ∀ c ∈ w, isBlank c = true) :
    Encloses s (v ++ s ++ w)
  | parenthesized {t u v w : List Char} (ht : ∀ c ∈ t, isBlank c = true)
      (hu : ∀ c ∈ u, isBlank c = true) (hv : ∀ c ∈ v, isBlank c = true)
      (hw : ∀ c ∈ w, isBlank c = true) :
    Encloses s (t ++ ('(' :: (u ++ s ++ v) ++ [')']) ++ w)

theorem Spells.dashless_eq {name : List Char} (hn : name.all isNameChar = true)
    (h : Spells name s) : dashless s = dashless name := by
  have ht : trim name = name := (trimmed_of_all_isNameChar hn).trim_eq
  cases h with
  | plain h => exact dashless_congr h
  | dashed h => rw [dashless_congr h, kebabCase, dashless_splitCapitals, ht]
  | camel h =>
    have ha : (trim name).all isAscii = true := by
      rw [ht]
      exact all_isAscii hn
    rw [dashless_congr h, dashless_camelCase ha, ht]

theorem Spells.all_isNameChar {name : List Char} (hn : name.all isNameChar = true)
    (h : Spells name s) : s.all isNameChar = true := by
  rw [← all_dashless isNameChar_toLower rfl, h.dashless_eq hn, all_dashless isNameChar_toLower rfl,
    hn]

theorem nameKey_ofList (h : cs.all isNameChar = true) :
    nameKey (String.ofList cs) = dashless cs := by
  have ht : trim cs = cs := (trimmed_of_all_isNameChar h).trim_eq
  have ha : (trim cs).all isAscii = true := by
    rw [ht]
    exact all_isAscii h
  rw [nameKey, String.toList_ofList, asciiLower_camelCase ha, ht]

end Breakpoint

namespace Breakpoints

open Breakpoint

theorem bareParameter_of_encloses (hs : s.all isNameChar = true) (h : Encloses s p.toList) :
    bareParameter p = String.ofList s := by
  have ht := trimmed_of_all_isNameChar hs
  generalize hp : p.toList = q at h
  unfold bareParameter
  rw [hp]
  cases h with
  | bare hv hw =>
    rw [ht.trim_append hv hw]
    cases s with
    | nil => rfl
    | cons c s =>
      have hc : c ≠ '(' := by
        rintro rfl
        exact absurd (List.all_eq_true.mp hs _ List.mem_cons_self) (by decide)
      dsimp only
      split
      case h_1 he => exact absurd (List.cons.inj he).1 hc
      case h_2 => rfl
  | parenthesized htb hu hv hw =>
    have hparens : ∀ {inner : List Char}, Trimmed ('(' :: inner ++ [')']) := by
      intro inner
      refine ⟨fun c hc => ?_, fun c hc => ?_⟩
      · cases hc
        rfl
      · rw [List.getLast?_append_cons] at hc
        cases hc
        rfl
    rw [hparens.trim_append htb hw]
    have htrim := ht.trim_append hu hv
    rw [List.append_assoc] at htrim
    simp [htrim]

/-! ## Lists of names -/

/-- A separator of two characters is one of a single character, the other being in front of every
text but the first. -/
theorem intercalate_comma (l : List Char) (ls : List (List Char)) :
    [',', ' '].intercalate (l :: ls) = [','].intercalate (l :: ls.map (' ' :: ·)) := by
  induction ls generalizing l with
  | nil => rw [List.intercalate_singleton, List.map_nil, List.intercalate_singleton]
  | cons l' ls ih =>
    rw [List.intercalate_cons_cons, ih, List.map_cons, List.intercalate_cons_cons,
      List.intercalate_cons_cons_left]
    simp

theorem eq_of_intercalate_eq {ns ms : List String} (hn : ∀ n ∈ ns, ',' ∉ n.toList)
    (hm : ∀ m ∈ ms, ',' ∉ m.toList) (hns : ns ≠ []) (hms : ms ≠ [])
    (h : ", ".intercalate ns = ", ".intercalate ms) : ns = ms := by
  obtain ⟨n, ns, rfl⟩ := List.exists_cons_of_ne_nil hns
  obtain ⟨m, ms, rfl⟩ := List.exists_cons_of_ne_nil hms
  have hsplit : ∀ {l : String} {ls : List String}, (∀ k ∈ l :: ls, ',' ∉ k.toList) →
      ([','].intercalate (l.toList :: (ls.map String.toList).map (' ' :: ·))).splitOn ',' =
        l.toList :: (ls.map String.toList).map (' ' :: ·) := by
    intro l ls hl
    refine List.splitOn_intercalate ',' ?_ (List.cons_ne_nil _ _)
    simpa using hl
  have hlist := congrArg String.toList h
  rw [String.toList_intercalate, String.toList_intercalate] at hlist
  change [',', ' '].intercalate (n.toList :: ns.map String.toList) =
    [',', ' '].intercalate (m.toList :: ms.map String.toList) at hlist
  rw [intercalate_comma, intercalate_comma] at hlist
  have hsplit := (hsplit hn).symm.trans ((congrArg (List.splitOn ',') hlist).trans (hsplit hm))
  obtain ⟨hhead, htail⟩ := List.cons.inj hsplit
  have hs : Function.Injective (fun l : List Char => ' ' :: l) := fun _ _ he => (List.cons.inj he).2
  have htail := List.map_injective_iff.mpr hs htail
  have hstring : Function.Injective String.toList := fun _ _ => String.toList_injective
  rw [hstring hhead, List.map_injective_iff.mpr hstring htail]

/-! ## Tables -/

/-- Every breakpoint has a name, and no two names have a spelling in common. -/
structure Named (table : Breakpoints) : Prop where
  isName : ∀ b ∈ table.items, isName b.name.toList = true
  distinct : table.items.Pairwise fun a b => nameKey a.name ≠ nameKey b.name

theorem named_of_ofSettings (h : ofSettings settings = .ok table) : table.Named := by
  obtain ⟨hv, ha⟩ := arranges_of_ofSettings h
  obtain ⟨bs, hbs, hp, -⟩ := ha.sorted
  have hkeys := BreakpointSettings.Resolves.map_nameKey hbs
  constructor
  · intro b hb
    obtain ⟨entry, hentry, hr⟩ := exists_resolves_of_mem h hb
    have hn := BreakpointSettings.isName_trimmedName.mpr hentry.name
    rwa [hr.name, String.toList_ofList]
  · have hd : (bs.map fun b => nameKey b.name).Pairwise (· ≠ ·) := by
      rw [hkeys]
      exact List.pairwise_map.mpr hv.names
    exact hp.symm.pairwise (List.pairwise_map.mp hd) fun h => h.symm

namespace Named

theorem all_isNameChar (h : table.Named) (hb : b ∈ table.items) :
    b.name.toList.all isNameChar = true :=
  (Bool.and_eq_true_iff.mp (h.isName b hb)).2

theorem trim_name (h : table.Named) (hb : b ∈ table.items) :
    trim b.name.toList = b.name.toList :=
  (trimmed_of_all_isNameChar (h.all_isNameChar hb)).trim_eq

theorem nameKey_eq (h : table.Named) (hb : b ∈ table.items) :
    nameKey b.name = dashless b.name.toList := by
  have hk := nameKey_ofList (h.all_isNameChar hb)
  rwa [String.ofList_toList] at hk

theorem find?_eq_some_iff (h : table.Named) :
    table.find? p = some b ↔ b ∈ table.items ∧ nameKey b.name = nameKey p := by
  unfold find?
  rw [List.find?_eq_some_iff_append]
  constructor
  · rintro ⟨hk, as, bs, he, -⟩
    exact ⟨by simp [he], beq_iff_eq.mp hk⟩
  · rintro ⟨hb, hk⟩
    obtain ⟨as, bs, he⟩ := List.append_of_mem hb
    have hd := h.distinct
    rw [he, List.pairwise_append] at hd
    refine ⟨beq_iff_eq.mpr hk, as, bs, he, fun a ha => ?_⟩
    have hne := hd.2.2 a ha b List.mem_cons_self
    simpa [← hk] using hne

/-- A breakpoint is found by what is the same as its name but for dashes and the case. -/
theorem find?_of_dashless (h : table.Named) (hb : b ∈ table.items)
    (hd : dashless (trim p.toList) = dashless b.name.toList) : table.find? p = some b := by
  have ha : (trim p.toList).all isAscii = true := by
    rw [← all_dashless isAscii_toLower rfl, hd, all_dashless isAscii_toLower rfl]
    exact all_isAscii (h.all_isNameChar hb)
  rw [h.find?_eq_some_iff]
  exact ⟨hb, by rw [h.nameKey_eq hb, nameKey, asciiLower_camelCase ha, hd]⟩

theorem findParameter?_of_spells (h : table.Named) (hb : b ∈ table.items)
    (hs : Spells b.name.toList s) (hp : Encloses s p.toList) : table.findParameter? p = some b := by
  have hn := hs.all_isNameChar (h.all_isNameChar hb)
  rw [findParameter?, bareParameter_of_encloses hn hp]
  apply h.find?_of_dashless hb
  rw [String.toList_ofList, (trimmed_of_all_isNameChar hn).trim_eq,
    hs.dashless_eq (h.all_isNameChar hb)]

theorem customProperty_ne (h : table.Named) :
    table.items.Pairwise fun a b => a.customProperty ≠ b.customProperty := by
  refine h.distinct.imp_of_mem fun {a b} ha hb hne he => hne ?_
  unfold customProperty at he
  have hk : kebabCase a.name.toList = kebabCase b.name.toList := by
    simpa using congrArg String.toList he
  have hd := congrArg dashless hk
  rw [kebabCase, kebabCase, dashless_splitCapitals, dashless_splitCapitals, h.trim_name ha,
    h.trim_name hb] at hd
  rw [h.nameKey_eq ha, h.nameKey_eq hb, hd]

/-- A name that is looked up may hold outsiders behind its dashes. -/
theorem find?_iff_spellOut (h : table.Named) :
    table.find? p = some b ↔ b ∈ table.items ∧
      dashless (spellOut false (trim p.toList)) = dashless (trim b.name.toList) := by
  rw [h.find?_eq_some_iff]
  refine and_congr_right fun hb => ?_
  rw [h.nameKey_eq hb, h.trim_name hb, nameKey, eq_comm,
    asciiLower_camelCase_eq_iff (all_isAscii (h.all_isNameChar hb))]

end Named

/-- A parameter resolves to the breakpoint it names, or all names are reported. -/
theorem target_of_isSome {node : NodeId} {name : String} (h : (Responsive.ofName? name).isSome)
    (table : Breakpoints) (p : String) :
    Sizing.Measure.target table (.atRule node name p) =
      match table.findParameter? p with
      | some b => .ok (some b.name)
      | none => .error (.excising node (.unknownBreakpoint (bareParameter p) table.listing)) := by
  have hn : ¬(Responsive.ofName? name).isNone := by
    simpa [Option.isSome_iff_ne_none] using h
  simp only [Sizing.Measure.target]
  cases table.findParameter? p with
  | none => exact if_neg hn
  | some b => exact if_neg hn

theorem listing_of_target {scope : Scope} {node : NodeId} {param listing : String}
    (h : Sizing.Measure.target table scope = .error (.excising node (.unknownBreakpoint param listing))) :
    listing = table.listing := by
  unfold Sizing.Measure.target at h
  split at h
  case h_1 => cases h
  case h_2 =>
    split at h
    case isTrue => simp [Rejection.excising] at h
    case isFalse =>
      split at h
      case h_1 => cases h
      case h_2 =>
        simp only [Rejection.excising, Except.error.injEq, Rejection.mk.injEq,
          SizingError.unknownBreakpoint.injEq] at h
        exact h.2.2.symm

/-- Each breakpoint answers to its name in every spelling, and so does the list of names that is
reported where none is found. -/
structure Unambiguous (table : Breakpoints) : Prop where
  spellings : ∀ b ∈ table.items, ∀ s p, Spells b.name.toList s → Encloses s p.toList →
    table.findParameter? p = some b
  listed : ∀ scope node param listing,
    Sizing.Measure.target table scope =
      .error (.excising node (.unknownBreakpoint param listing)) →
    ∀ names : List String, (∀ n ∈ names, ',' ∉ n.toList) → ", ".intercalate names = listing →
    ∀ n ∈ names, ∀ p, Encloses n.toList p.toList →
    ∃ b ∈ table.items, table.findParameter? p = some b ∧ table.target (some b.name) = .ok b ∧
      ∀ node name, (Responsive.ofName? name).isSome →
        Sizing.Measure.target table (.atRule node name p) = .ok (some b.name)
  properties : table.items.Pairwise fun a b => a.customProperty ≠ b.customProperty

theorem unambiguous_of_ofSettings (h : ofSettings settings = .ok table) : table.Unambiguous := by
  have hn := named_of_ofSettings h
  refine ⟨fun b hb s p => hn.findParameter?_of_spells hb, ?_, hn.customProperty_ne⟩
  intro scope node param listing ht names hcomma hjoin n hmem p hp
  rw [listing_of_target ht] at hjoin
  have hnames : names = table.items.map fun b => String.ofList (kebabCase b.name.toList) := by
    refine eq_of_intercalate_eq hcomma ?_ (List.ne_nil_of_mem hmem)
      (by simpa using table.items_ne_nil) hjoin
    simp only [List.forall_mem_map, String.toList_ofList]
    intro b hb hm
    have hk : Spells b.name.toList (kebabCase b.name.toList) := .dashed rfl
    exact absurd (List.all_eq_true.mp (hk.all_isNameChar (hn.all_isNameChar hb)) _ hm) (by decide)
  rw [hnames] at hmem
  obtain ⟨b, hb, rfl⟩ := List.mem_map.mp hmem
  rw [String.toList_ofList] at hp
  have hfound := hn.findParameter?_of_spells hb (.dashed rfl) hp
  have htarget : table.target (some b.name) = .ok b := by
    unfold target
    simp only [hn.find?_of_dashless hb (congrArg dashless (hn.trim_name hb))]
  refine ⟨b, hb, hfound, htarget, fun node name hr => ?_⟩
  rw [target_of_isSome hr, hfound]

theorem unambiguous_of_ofSettings_default :
    ofSettings {} = .ok standard ∧ standard.Unambiguous :=
  ⟨ofSettings_default, unambiguous_of_ofSettings ofSettings_default⟩

/-- A text is looked up as the breakpoint whose name it is but for dashes, the case and outsiders
directly behind a dash, and otherwise it is reported. -/
structure LooksUp (table : Breakpoints) (p : String) : Prop where
  find? : ∀ b, table.find? p = some b ↔ b ∈ table.items ∧
    dashless (spellOut false (trim p.toList)) = dashless (trim b.name.toList)
  /-- Without such outsiders only the dashes and the case count. -/
  regular : (∀ c, ['-', c] <:+: trim p.toList → outsiders.lookup c = none) →
    ∀ b, table.find? p = some b ↔ b ∈ table.items ∧
      dashless (trim p.toList) = dashless (trim b.name.toList)
  spelling : ∀ b ∈ table.items, dashless (trim p.toList) = dashless (trim b.name.toList) →
    table.find? p = some b
  reported : ∀ node name, (Responsive.ofName? name).isSome →
    (Sizing.Measure.target table (.atRule node name p) =
        .error (.excising node (.unknownBreakpoint (bareParameter p) table.listing)) ↔
      ∀ b ∈ table.items, dashless (spellOut false (trim (bareParameter p).toList)) ≠
        dashless (trim b.name.toList))

theorem looksUp_of_ofSettings (h : ofSettings settings = .ok table) (p : String) :
    table.LooksUp p := by
  have hn := named_of_ofSettings h
  refine ⟨fun b => hn.find?_iff_spellOut, fun hp b => ?_, fun b hb hd => ?_, fun node name hr => ?_⟩
  · rw [hn.find?_iff_spellOut, @spellOut_eq_self _ false hp nofun]
  · rw [hn.trim_name hb] at hd
    exact hn.find?_of_dashless hb hd
  · rw [target_of_isSome hr, findParameter?]
    cases hf : table.find? (bareParameter p) with
    | none =>
      refine iff_of_true rfl fun b hb hd => ?_
      rw [hn.find?_iff_spellOut.mpr ⟨hb, hd⟩] at hf
      cases hf
    | some b =>
      obtain ⟨hb, hd⟩ := hn.find?_iff_spellOut.mp hf
      exact iff_of_false nofun fun hall => hall b hb hd

theorem looksUp_of_ofSettings_default :
    ofSettings {} = .ok standard ∧ standard.LooksUp "Tab-Let" :=
  ⟨ofSettings_default, looksUp_of_ofSettings ofSettings_default "Tab-Let"⟩

theorem exists_found_outsider :
    ofSettings {} = .ok standard ∧
    (standard.find? "mob-ıle").map (·.name) = some "mobile" ∧
    dashless (trim "mob-ıle".toList) ≠ dashless (trim "mobile".toList) := by
  refine ⟨ofSettings_default, by decide +kernel, by decide +kernel⟩

end Breakpoints

end ModularScale
