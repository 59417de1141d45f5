import Mathlib.Data.List.Forall2
import Mathlib.Data.List.Induction
import ModularScale.Proofs.Text.Trim
import ModularScale.Scale.Breakpoint

/-! # Faults of settings

An entry is valid or has a first fault on its own, and behind other entries it may repeat a name or
be a second base. The entries are all collected, or the first one with a fault is reported.
-/

namespace ModularScale

variable {settings : Settings} {entry : BreakpointSettings}
  {entries before after : List BreakpointSettings} {b : Breakpoint} {bs : List Breakpoint}
  {e : SettingsError}

namespace BreakpointSettings

def trimmedName (entry : BreakpointSettings) : List Char :=
  Text.trim entry.name.toList

def trimmedValue (entry : BreakpointSettings) : List Char :=
  Text.trim entry.value.toList

/-- What all spellings of the name have in common. -/
def key (entry : BreakpointSettings) : List Char :=
  Breakpoint.nameKey (String.ofList entry.trimmedName)

/-- Whether the entry is meant to be the base breakpoint. -/
def claimsZero (entry : BreakpointSettings) : Bool :=
  entry.trimmedValue.head? == some '0'

structure ValidName (entry : BreakpointSettings) : Prop where
  ne_nil : entry.trimmedName ≠ []
  chars : ∀ c ∈ entry.trimmedName, c.isAlphanum = true ∨ c = '-' ∨ c = '_'

/-- The width in pixels is `w`, where the font size has single precision. -/
def HasWidth (settings : Settings) (entry : BreakpointSettings) (w : Float) : Prop :=
  ∃ length, Css.Length.ofText (String.ofList entry.trimmedValue) = .ok length ∧
    length.toPixels (Decimal.toSingle settings.documentFontSize) = w

/-- The width of the base breakpoint is zero, that of any other is positive. -/
def FitsClaim (entry : BreakpointSettings) (w : Float) : Prop :=
  if entry.claimsZero then (w == 0) = true else 0 < w

def ValidWidth (settings : Settings) (entry : BreakpointSettings) : Prop :=
  ∃ w, entry.HasWidth settings w ∧ entry.FitsClaim w

def ValidRoot (settings : Settings) (entry : BreakpointSettings) : Prop :=
  (settings.rootOf entry).isFinite = true ∧ 0 < settings.rootOf entry

structure Valid (settings : Settings) (entry : BreakpointSettings) : Prop where
  name : entry.ValidName
  width : entry.ValidWidth settings
  root : entry.ValidRoot settings

/-- The breakpoint that a trimmed entry describes. -/
structure Resolves (settings : Settings) (entry : BreakpointSettings) (b : Breakpoint) : Prop where
  name : b.name = String.ofList entry.trimmedName
  value : b.value = String.ofList entry.trimmedValue
  root : b.root = settings.rootOf entry
  width : entry.HasWidth settings b.width

/-- The first fault of an entry on its own. -/
inductive Fault (settings : Settings) (entry : BreakpointSettings) : SettingsError → Prop
  | name (h : ¬entry.ValidName) : Fault settings entry (.invalidName entry.name)
  | width (hn : entry.ValidName) (h : ¬entry.ValidWidth settings) :
    Fault settings entry (.invalidWidth (String.ofList entry.trimmedName) entry.value)
  | root (hn : entry.ValidName) (hw : entry.ValidWidth settings) (h : ¬entry.ValidRoot settings) :
    Fault settings entry
      (.invalidRoot (String.ofList entry.trimmedName) (settings.rootOf entry))

/-- The first fault of an entry behind others without a fault. -/
inductive FaultBehind (settings : Settings) (before : List BreakpointSettings)
    (entry : BreakpointSettings) : SettingsError → Prop
  | entry {e : SettingsError} (h : entry.Fault settings e) : FaultBehind settings before entry e
  | duplicate {other : BreakpointSettings} (h : entry.Valid settings) (hm : other ∈ before)
      (hk : other.key = entry.key) :
    FaultBehind settings before entry (.duplicateName (String.ofList entry.trimmedName))
  | secondBase {first : BreakpointSettings} (h : entry.Valid settings)
      (hk : ∀ other ∈ before, other.key ≠ entry.key) (hb : entry.claimsZero = true)
      (hm : first ∈ before) (hf : first.claimsZero = true) :
    FaultBehind settings before entry
      (.multipleBases first.name (String.ofList entry.trimmedName))

theorem isName_trimmedName : Breakpoint.isName entry.trimmedName = true ↔ entry.ValidName := by
  unfold Breakpoint.isName Breakpoint.isNameChar
  simp only [Bool.and_eq_true, Bool.not_eq_true', List.isEmpty_eq_false_iff, List.all_eq_true,
    Bool.or_eq_true, beq_iff_eq, or_assoc]
  exact ⟨fun h => ⟨h.1, h.2⟩, fun h => ⟨h.1, h.2⟩⟩

theorem startsWithZero_trimmedValue :
    Breakpoint.startsWithZero entry.trimmedValue = entry.claimsZero := by
  unfold Breakpoint.startsWithZero claimsZero trimmedValue
  rw [Text.trimStart_trim]
  cases Text.trim entry.value.toList <;> simp [Css.startsWith]

theorem HasWidth.unique {v w : Float} (hv : entry.HasWidth settings v)
    (hw : entry.HasWidth settings w) : v = w := by
  obtain ⟨x, hx, rfl⟩ := hv
  obtain ⟨y, hy, rfl⟩ := hw
  rw [hx] at hy
  cases hy
  rfl

theorem width?_eq_some {w : Float} :
    Breakpoint.width? settings.documentFontSize entry.trimmedValue = some w ↔
      entry.HasWidth settings w ∧ entry.FitsClaim w := by
  unfold Breakpoint.width? HasWidth FitsClaim
  rw [startsWithZero_trimmedValue]
  cases Css.Length.ofText (String.ofList entry.trimmedValue) with
  | error => simp
  | ok length =>
    simp only [Except.ok.injEq, exists_eq_left', Option.ite_none_right_eq_some, Option.some.injEq]
    constructor
    · rintro ⟨h, rfl⟩
      exact ⟨rfl, by simpa using h⟩
    · rintro ⟨rfl, h⟩
      exact ⟨by simpa using h, rfl⟩

theorem width?_eq_none :
    Breakpoint.width? settings.documentFontSize entry.trimmedValue = none ↔
      ¬entry.ValidWidth settings := by
  rw [Option.eq_none_iff_forall_ne_some]
  simp only [ne_eq, width?_eq_some, ValidWidth, not_exists]

theorem isPositive_rootOf :
    Decimal.isPositive (settings.rootOf entry) = true ↔ entry.ValidRoot settings := by
  simp [Decimal.isPositive, ValidRoot]

/-- A valid entry describes one breakpoint, and any other entry has a fault. -/
theorem ofSettings_cases (settings : Settings) (entry : BreakpointSettings) :
    (∃ b, Breakpoint.ofSettings settings entry = .ok b ∧ entry.Valid settings ∧
      entry.Resolves settings b) ∨
    ∃ e, Breakpoint.ofSettings settings entry = .error e ∧ entry.Fault settings e := by
  unfold Breakpoint.ofSettings
  by_cases hn : entry.ValidName
  · have hname : Breakpoint.isName (Text.trim entry.name.toList) = true := isName_trimmedName.mpr hn
    cases hw : Breakpoint.width? settings.documentFontSize (Text.trim entry.value.toList) with
    | none =>
      simp only [hname, hw]
      exact .inr ⟨_, rfl, .width hn (width?_eq_none.mp hw)⟩
    | some w =>
      simp only [hname, hw]
      have hw := width?_eq_some.mp hw
      by_cases hr : entry.ValidRoot settings
      · rw [isPositive_rootOf.mpr hr]
        exact .inl ⟨_, rfl, ⟨hn, ⟨w, hw⟩, hr⟩, rfl, rfl, rfl, hw.1⟩
      · rw [(Bool.not_eq_true _).mp (mt isPositive_rootOf.mp hr)]
        exact .inr ⟨_, rfl, .root hn ⟨w, hw⟩ hr⟩
  · have hname : Breakpoint.isName (Text.trim entry.name.toList) = false :=
      (Bool.not_eq_true _).mp (mt isName_trimmedName.mp hn)
    simp only [hname]
    exact .inr ⟨_, rfl, .name hn⟩

theorem Fault.not_valid (h : entry.Fault settings e) : ¬entry.Valid settings := by
  intro hv
  cases h with
  | name h => exact h hv.name
  | width hn h => exact h hv.width
  | root hn hw h => exact h hv.root

theorem Fault.unique {e' : SettingsError} (h : entry.Fault settings e)
    (h' : entry.Fault settings e') : e = e' := by
  cases h <;> cases h' <;> first | rfl | contradiction

theorem ofSettings_of_valid (h : entry.Valid settings) :
    ∃ b, Breakpoint.ofSettings settings entry = .ok b ∧ entry.Resolves settings b := by
  rcases ofSettings_cases settings entry with ⟨b, hb, -, hr⟩ | ⟨e, -, he⟩
  · exact ⟨b, hb, hr⟩
  · exact absurd h he.not_valid

theorem ofSettings_of_fault (h : entry.Fault settings e) :
    Breakpoint.ofSettings settings entry = .error e := by
  rcases ofSettings_cases settings entry with ⟨b, -, hv, -⟩ | ⟨e', he, hf⟩
  · exact absurd hv h.not_valid
  · rw [he, hf.unique h]

namespace Resolves

theorem nameKey_eq (h : entry.Resolves settings b) : Breakpoint.nameKey b.name = entry.key := by
  rw [h.name]
  rfl

theorem isBase_eq (h : entry.Resolves settings b) : b.isBase = entry.claimsZero := by
  rw [Breakpoint.isBase, h.value, String.toList_ofList, startsWithZero_trimmedValue]

theorem fitsClaim (h : entry.Resolves settings b) (hv : entry.Valid settings) :
    entry.FitsClaim b.width := by
  obtain ⟨w, hw, hf⟩ := hv.width
  rwa [h.width.unique hw]

theorem map_nameKey (h : List.Forall₂ (Resolves settings) entries bs) :
    bs.map (fun b => Breakpoint.nameKey b.name) = entries.map key := by
  induction h with
  | nil => rfl
  | cons h _ ih => rw [List.map_cons, List.map_cons, h.nameKey_eq, ih]

theorem exists_of_mem (h : List.Forall₂ (Resolves settings) entries bs) (hb : b ∈ bs) :
    ∃ entry ∈ entries, entry.Resolves settings b := by
  induction h with
  | nil => cases hb
  | cons h _ ih =>
    rcases List.mem_cons.mp hb with rfl | hb
    · exact ⟨_, List.mem_cons_self, h⟩
    · obtain ⟨entry, hm, hr⟩ := ih hb
      exact ⟨entry, List.mem_cons_of_mem _ hm, hr⟩

theorem filter (h : List.Forall₂ (Resolves settings) entries bs) :
    List.Forall₂ (Resolves settings) (entries.filter claimsZero) (bs.filter Breakpoint.isBase) := by
  induction h with
  | nil => exact .nil
  | cons h _ ih =>
    rw [List.filter_cons, List.filter_cons, h.isBase_eq]
    split
    · exact .cons h ih
    · exact ih

end Resolves

end BreakpointSettings

namespace Settings

open BreakpointSettings

/-- Entries without a fault. -/
structure Admissible (settings : Settings) (entries : List BreakpointSettings) : Prop where
  valid : ∀ entry ∈ entries, entry.Valid settings
  distinct : entries.Pairwise fun a b => a.key ≠ b.key
  single : entries.countP claimsZero ≤ 1

structure ValidScale (settings : Settings) : Prop where
  ratio : settings.ratio.isFinite = true ∧ 1 < settings.ratio
  documentFontSize : settings.documentFontSize.isFinite = true ∧ 0 < settings.documentFontSize

structure Valid (settings : Settings) : Prop where
  scale : settings.ValidScale
  entries : ∀ entry ∈ settings.breakpoints, entry.Valid settings
  names : settings.breakpoints.Pairwise fun a b => a.key ≠ b.key
  base : settings.breakpoints.countP claimsZero = 1

/-- The first fault of settings. -/
inductive Fault (settings : Settings) : SettingsError → Prop
  | ratio (h : ¬(settings.ratio.isFinite = true ∧ 1 < settings.ratio)) :
    Fault settings (.invalidRatio settings.ratio)
  | documentFontSize (hr : settings.ratio.isFinite = true ∧ 1 < settings.ratio)
      (h : ¬(settings.documentFontSize.isFinite = true ∧ 0 < settings.documentFontSize)) :
    Fault settings (.invalidDocumentFontSize settings.documentFontSize)
  | entry {before after : List BreakpointSettings} {entry : BreakpointSettings} {e : SettingsError}
      (hs : settings.ValidScale) (he : settings.breakpoints = before ++ entry :: after)
      (hb : settings.Admissible before) (h : entry.FaultBehind settings before e) :
    Fault settings e
  | missingBase (hs : settings.ValidScale) (he : settings.Admissible settings.breakpoints)
      (h : settings.breakpoints.countP claimsZero = 0) : Fault settings .missingBase

namespace Admissible

theorem nil : settings.Admissible [] := by
  constructor <;> simp

theorem append_singleton (h : settings.Admissible before) (hv : entry.Valid settings)
    (hk : ∀ other ∈ before, other.key ≠ entry.key)
    (hb : entry.claimsZero = true → ∀ other ∈ before, other.claimsZero = false) :
    settings.Admissible (before ++ [entry]) := by
  refine ⟨?_, ?_, ?_⟩
  · simp only [List.mem_append, List.mem_singleton]
    rintro other (ho | rfl)
    · exact h.valid other ho
    · exact hv
  · refine List.pairwise_append.mpr ⟨h.distinct, List.pairwise_singleton _ _, ?_⟩
    rintro other ho _ hm
    rw [List.mem_singleton.mp hm]
    exact hk other ho
  · rw [List.countP_append, List.countP_singleton]
    split
    case isTrue hz =>
      have h0 : before.countP claimsZero = 0 := by
        rw [List.countP_eq_zero]
        intro other ho
        rw [hb hz other ho]
        exact Bool.false_ne_true
      omega
    case isFalse => exact h.single

end Admissible

theorem Admissible.of_append (h : settings.Admissible (before ++ after)) :
    settings.Admissible before := by
  refine ⟨fun entry hm => h.valid entry (List.mem_append_left _ hm),
    (List.pairwise_append.mp h.distinct).1, ?_⟩
  have hs := h.single
  rw [List.countP_append] at hs
  omega

/-- The name of the base entry, as it is written. -/
def baseName (entries : List BreakpointSettings) : Option String :=
  (entries.find? claimsZero).map (·.name)

theorem baseName_append (entries : List BreakpointSettings) (entry : BreakpointSettings) :
    baseName (entries ++ [entry]) =
      (baseName entries).or (if entry.claimsZero then some entry.name else none) := by
  unfold baseName
  rw [List.find?_append, Option.map_or, List.find?_singleton]
  split <;> rfl

theorem baseName_eq_none : baseName entries = none ↔ ∀ entry ∈ entries, entry.claimsZero = false := by
  simp [baseName]

theorem Admissible.baseName_eq (h : settings.Admissible entries) {first : BreakpointSettings}
    (hm : first ∈ entries) (hf : first.claimsZero = true) : baseName entries = some first.name := by
  have hl : (entries.filter claimsZero).length ≤ 1 := by
    rw [← List.countP_eq_length_filter]
    exact h.single
  have hmf : first ∈ entries.filter claimsZero := List.mem_filter.mpr ⟨hm, hf⟩
  unfold baseName
  rw [← List.head?_filter]
  cases hs : entries.filter claimsZero with
  | nil => rw [hs] at hmf; cases hmf
  | cons x xs =>
    rw [hs] at hmf hl
    cases xs with
    | nil => rw [List.mem_singleton.mp hmf]; rfl
    | cons => simp at hl

end Settings

namespace BreakpointSettings

theorem FaultBehind.not_admissible (h : entry.FaultBehind settings before e) :
    ¬settings.Admissible (before ++ [entry]) := by
  intro ha
  have hm : entry ∈ [entry] := List.mem_singleton.mpr rfl
  cases h with
  | entry hf => exact hf.not_valid (ha.valid entry (List.mem_append_right _ hm))
  | duplicate hv ho hk =>
    exact (List.pairwise_append.mp ha.distinct).2.2 _ ho entry hm hk
  | secondBase hv hk hb hf hz =>
    have hs := ha.single
    have hpos : 0 < before.countP claimsZero := List.countP_pos_iff.mpr ⟨_, hf, hz⟩
    rw [List.countP_append, List.countP_singleton, if_pos hb] at hs
    omega

theorem FaultBehind.unique {e' : SettingsError} (hb : settings.Admissible before)
    (h : entry.FaultBehind settings before e) (h' : entry.FaultBehind settings before e') :
    e = e' := by
  cases h with
  | entry hf =>
    cases h' with
    | entry hf' => exact hf.unique hf'
    | duplicate hv => exact absurd hv hf.not_valid
    | secondBase hv => exact absurd hv hf.not_valid
  | duplicate hv hm hk =>
    cases h' with
    | entry hf => exact absurd hv hf.not_valid
    | duplicate => rfl
    | secondBase _ hn => exact absurd hk (hn _ hm)
  | secondBase hv hn hz hm hf =>
    cases h' with
    | entry hf => exact absurd hv hf.not_valid
    | duplicate _ ho hk => exact absurd hk (hn _ ho)
    | secondBase _ _ _ hm' hf' =>
      have heq := (hb.baseName_eq hm hf).symm.trans (hb.baseName_eq hm' hf')
      rw [Option.some.inj heq]

end BreakpointSettings

namespace Breakpoints

open Settings BreakpointSettings

theorem collect_append (seen : List Breakpoint) (base : Option String)
    (before after : List BreakpointSettings) :
    collect settings seen base (before ++ after) =
      match collect settings seen base before with
      | .error e => .error e
      | .ok (seen, base) => collect settings seen base after := by
  induction before generalizing seen base with
  | nil => rfl
  | cons entry before ih =>
    rw [List.cons_append]
    simp only [collect]
    split
    · rfl
    · split
      · rfl
      · split
        · split
          · rfl
          · exact ih _ _
        · exact ih _ _

theorem any_nameKey (h : List.Forall₂ (Resolves settings) before bs)
    (hb : entry.Resolves settings b) :
    (bs.any fun a => Breakpoint.nameKey a.name == Breakpoint.nameKey b.name) = true ↔
      ∃ other ∈ before, other.key = entry.key := by
  have hm : bs.any (fun a => Breakpoint.nameKey a.name == Breakpoint.nameKey b.name) =
      before.any fun other => other.key == entry.key := by
    rw [hb.nameKey_eq]
    have h := congrArg (List.any · (· == entry.key)) (Resolves.map_nameKey h)
    simpa only [List.any_map, Function.comp_def] using h
  rw [hm]
  simp

/-- What one more entry adds to those that were collected. -/
theorem collect_singleton (hb : settings.Admissible before)
    (h : List.Forall₂ (Resolves settings) before bs) (entry : BreakpointSettings) :
    (settings.Admissible (before ++ [entry]) ∧ ∃ b, entry.Resolves settings b ∧
      collect settings bs (baseName before) [entry] =
        .ok (bs ++ [b], baseName (before ++ [entry]))) ∨
    ∃ e, entry.FaultBehind settings before e ∧
      collect settings bs (baseName before) [entry] = .error e := by
  rcases ofSettings_cases settings entry with ⟨b, hok, hv, hr⟩ | ⟨e, he, hf⟩
  · by_cases hk : ∃ other ∈ before, other.key = entry.key
    · have hany := (any_nameKey h hr).mpr hk
      obtain ⟨other, hm, hk⟩ := hk
      refine .inr ⟨.duplicateName b.name, ?_, ?_⟩
      · rw [hr.name]
        exact .duplicate hv hm hk
      · simp only [collect, hok, hany, if_true]
    · have hany := mt (any_nameKey h hr).mp hk
      have hk : ∀ other ∈ before, other.key ≠ entry.key := by simpa using hk
      cases hz : entry.claimsZero with
      | false =>
        refine .inl ⟨hb.append_singleton hv hk (by simp [hz]), b, hr, ?_⟩
        simp only [collect, hok, hany, hr.isBase_eq, hz, if_false, Bool.false_eq_true]
        rw [baseName_append, hz]
        simp
      | true =>
        cases hn : baseName before with
        | none =>
          refine .inl ⟨hb.append_singleton hv hk fun _ => baseName_eq_none.mp hn, b, hr, ?_⟩
          simp only [collect, hok, hany, hr.isBase_eq, hz, if_true, if_false, Bool.false_eq_true]
          rw [baseName_append, hn, hz]
          rfl
        | some name =>
          obtain ⟨first, hf, rfl⟩ := Option.map_eq_some_iff.mp hn
          have hm := List.mem_of_find?_eq_some hf
          refine .inr ⟨.multipleBases first.name b.name, ?_, ?_⟩
          · rw [hr.name]
            exact .secondBase hv hk hz hm (List.find?_some hf)
          · simp only [collect, hok, hany, hr.isBase_eq, hz, if_true, if_false, Bool.false_eq_true]
  · exact .inr ⟨e, .entry hf, by simp only [collect, he]⟩

/-- Entries are all collected, or the first that has a fault behind those before it is reported. -/
theorem collect_cases (settings : Settings) (entries : List BreakpointSettings) :
    (settings.Admissible entries ∧ ∃ bs, List.Forall₂ (Resolves settings) entries bs ∧
      collect settings [] none entries = .ok (bs, baseName entries)) ∨
    ∃ before entry after e, entries = before ++ entry :: after ∧ settings.Admissible before ∧
      entry.FaultBehind settings before e ∧ collect settings [] none entries = .error e := by
  induction entries using List.reverseRecOn with
  | nil => exact .inl ⟨.nil, [], .nil, rfl⟩
  | append_singleton entries entry ih =>
    rw [collect_append]
    rcases ih with ⟨ha, bs, hbs, hc⟩ | ⟨before, first, after, e, rfl, ha, hf, hc⟩
    · rw [hc]
      rcases collect_singleton ha hbs entry with ⟨ha, b, hb, hc⟩ | ⟨e, hf, hc⟩
      · exact .inl ⟨ha, bs ++ [b], List.rel_append hbs (.cons hb .nil), hc⟩
      · exact .inr ⟨entries, entry, [], e, rfl, ha, hf, hc⟩
    · rw [hc]
      exact .inr ⟨before, first, after ++ [entry], e, by simp, ha, hf, rfl⟩

theorem collect_of_admissible (h : settings.Admissible entries) :
    ∃ bs, List.Forall₂ (Resolves settings) entries bs ∧
      collect settings [] none entries = .ok (bs, baseName entries) := by
  rcases collect_cases settings entries with ⟨-, h⟩ | ⟨before, entry, after, e, rfl, ha, hf, -⟩
  · exact h
  · rw [List.append_cons] at h
    exact absurd h.of_append hf.not_admissible

theorem collect_of_faultBehind (hb : settings.Admissible before)
    (hf : entry.FaultBehind settings before e) (after : List BreakpointSettings) :
    collect settings [] none (before ++ entry :: after) = .error e := by
  obtain ⟨bs, hbs, hc⟩ := collect_of_admissible hb
  rw [collect_append, hc, ← List.singleton_append]
  dsimp only
  rw [collect_append]
  rcases collect_singleton hb hbs entry with ⟨ha, -⟩ | ⟨e', hf', hc⟩
  · exact absurd ha hf.not_admissible
  · rw [hc, hf.unique hb hf']

end Breakpoints

end ModularScale
