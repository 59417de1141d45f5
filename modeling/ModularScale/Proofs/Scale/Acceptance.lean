import ModularScale.Proofs.Scale.EntryFaults
import ModularScale.Proofs.Scale.Widest

/-! # Accepted settings

Settings are accepted just if the scale and every entry are valid, no two names have the same key
and exactly one width claims to be zero. Their table holds the trimmed entries in a stable order of
their widths. All other settings are rejected with the fault that is met first.
-/

namespace ModularScale

variable {settings : Settings} {entries : List BreakpointSettings} {b : Breakpoint}
  {bs : List Breakpoint} {e : SettingsError}

namespace Breakpoint

/-- The width is zero if it starts with zero, and otherwise it is positive. -/
def Fits (b : Breakpoint) : Prop :=
  if b.isBase then (b.width == 0) = true else 0 < b.width

namespace Fits

variable {a : Breakpoint}

theorem beq_zero (h : b.Fits) (hb : b.isBase = true) : (b.width == 0) = true := by
  rwa [Fits, if_pos hb] at h

theorem pos (h : b.Fits) (hb : b.isBase = false) : 0 < b.width := by
  rwa [Fits, hb, if_neg Bool.false_ne_true] at h

theorem isNaN (h : b.Fits) : b.width.isNaN = false := by
  cases hb : b.isBase with
  | true => exact isNaN_of_beq_zero (h.beq_zero hb)
  | false => exact isNaN_of_pos (h.pos hb)

theorem isBase_of_le (h : b.Fits) (ha : (a.width == 0) = true) (hl : le b a = true) :
    b.isBase = true := by
  by_contra hb
  have hk := orderKey_of_pos (h.pos ((Bool.not_eq_true _).mp hb))
  have hl : Decimal.orderKey b.width ≤ Decimal.orderKey a.width := of_decide_eq_true hl
  have hz := orderKey_of_beq_zero ha
  omega

theorem width_le_of_le (ha : a.Fits) (hb : b.Fits) (hl : le a b = true) : a.width ≤ b.width := by
  cases hza : a.isBase with
  | true =>
    have hz := ha.beq_zero hza
    cases hzb : b.isBase with
    | true => exact le_of_beq_zero hz (nonneg_of_beq_zero (hb.beq_zero hzb))
    | false => exact le_of_beq_zero hz (nonneg_of_pos (hb.pos hzb))
  | false =>
    cases hzb : b.isBase with
    | true =>
      have := ha.isBase_of_le (hb.beq_zero hzb) hl
      rw [hza] at this
      cases this
    | false => exact (le_iff_orderKey_le (ha.pos hza) (hb.pos hzb)).mpr (of_decide_eq_true hl)

/-- Two zeros may differ in their sign, so one of the breakpoints must not be a base one. -/
theorem le_of_width_le (ha : a.Fits) (hb : b.Fits) (hn : a.isBase = true → b.isBase = false)
    (hl : a.width ≤ b.width) : le a b = true := by
  cases hza : a.isBase with
  | true =>
    have hz := orderKey_of_beq_zero (ha.beq_zero hza)
    have hk := orderKey_of_pos (hb.pos (hn hza))
    exact decide_eq_true (by omega)
  | false =>
    cases hzb : b.isBase with
    | true => exact absurd hl (not_le_of_beq_zero (ha.pos hza) (hb.beq_zero hzb))
    | false => exact decide_eq_true ((le_iff_orderKey_le (ha.pos hza) (hb.pos hzb)).mp hl)

end Fits

end Breakpoint

namespace Breakpoints

open Settings BreakpointSettings

/-- What the table of accepted settings is. -/
structure Arranges (settings : Settings) (table : Breakpoints) : Prop where
  scale : table.scale = ⟨settings.ratio, settings.documentFontSize⟩
  /-- The order is stable: entries stay in order where their widths allow it. -/
  sorted : ∃ bs, List.Forall₂ (Resolves settings) settings.breakpoints bs ∧ table.items.Perm bs ∧
    ∀ a b, [a, b].Sublist bs → a.width ≤ b.width → [a, b].Sublist table.items
  ascending : table.items.Pairwise (·.width ≤ ·.width)
  isNaN : ∀ b ∈ table.items, b.width.isNaN = false
  base : ∃ entry, settings.breakpoints.filter claimsZero = [entry] ∧
    entry.Resolves settings table.base
  base_width : (table.base.width == 0) = true
  items : table.items = table.base :: table.responsive

theorem fits_of_resolves (hv : ∀ entry ∈ entries, entry.Valid settings)
    (h : List.Forall₂ (Resolves settings) entries bs) : ∀ b ∈ bs, b.Fits := by
  induction h with
  | nil => simp
  | cons hb _ ih =>
    obtain ⟨hv, hvs⟩ := List.forall_mem_cons.mp hv
    refine List.forall_mem_cons.mpr ⟨?_, ih hvs⟩
    have hf := hb.fitsClaim hv
    rwa [FitsClaim, ← hb.isBase_eq] at hf

section Sorted

variable {z : Breakpoint}

/-- The only base breakpoint comes first in the order of the widths. -/
theorem mergeSort_eq_cons (hb : bs.filter Breakpoint.isBase = [z]) (hf : ∀ b ∈ bs, b.Fits) :
    ∃ cs, bs.mergeSort Breakpoint.le = z :: cs ∧ cs.filter Breakpoint.isBase = [] := by
  have hp : (bs.mergeSort Breakpoint.le).Perm bs := List.mergeSort_perm bs _
  have hs : (bs.mergeSort Breakpoint.le).Pairwise (Breakpoint.le · ·) :=
    List.pairwise_mergeSort Breakpoint.le_trans Breakpoint.le_total bs
  have hpb := hp.filter Breakpoint.isBase
  rw [hb, List.perm_singleton] at hpb
  have hz : z ∈ bs.mergeSort Breakpoint.le ∧ z.isBase = true := by
    rw [← List.mem_filter, hpb]
    exact List.mem_singleton.mpr rfl
  cases hm : bs.mergeSort Breakpoint.le with
  | nil => rw [hm] at hz; cases hz.1
  | cons c cs =>
    rw [hm] at hp hs hpb hz
    have hc : c.isBase = true := by
      rcases List.mem_cons.mp hz.1 with rfl | hzc
      · exact hz.2
      · have hcf := hf c (hp.mem_iff.mp List.mem_cons_self)
        have hzf := hf z (hp.mem_iff.mp hz.1)
        exact hcf.isBase_of_le (hzf.beq_zero hz.2) (List.rel_of_pairwise_cons hs hzc)
    rw [List.filter_cons_of_pos hc, List.cons.injEq] at hpb
    exact ⟨cs, by rw [hpb.1], hpb.2⟩

/-- Sorting keeps the order of two breakpoints where their widths allow it. -/
theorem sublist_mergeSort {a b : Breakpoint} (hb : bs.filter Breakpoint.isBase = [z])
    (hf : ∀ b ∈ bs, b.Fits) (hs : [a, b].Sublist bs) (hl : a.width ≤ b.width) :
    [a, b].Sublist (bs.mergeSort Breakpoint.le) := by
  have hn : a.isBase = true → b.isBase = false := by
    intro hza
    by_contra hzb
    rw [Bool.not_eq_false] at hzb
    have hsf := hs.filter Breakpoint.isBase
    rw [hb, List.filter_cons_of_pos hza, List.filter_cons_of_pos hzb] at hsf
    exact absurd hsf.length_le (by simp)
  refine List.pair_sublist_mergeSort Breakpoint.le_trans Breakpoint.le_total ?_ hs
  exact (hf a (hs.subset (by simp))).le_of_width_le (hf b (hs.subset (by simp))) hn hl

end Sorted

theorem ofParameters_of_validScale (h : settings.ValidScale) :
    Scale.ofParameters settings.ratio settings.documentFontSize =
      .ok ⟨settings.ratio, settings.documentFontSize⟩ := by
  simp [Scale.ofParameters, Decimal.isPositive, h.ratio.1, h.ratio.2, h.documentFontSize.1,
    h.documentFontSize.2]

theorem ofSettings_of_valid (h : settings.Valid) :
    ∃ table, ofSettings settings = .ok table ∧ table.Arranges settings := by
  obtain ⟨bs, hbs, hc⟩ := collect_of_admissible ⟨h.entries, h.names, h.base.le⟩
  have hfits := fits_of_resolves h.entries hbs
  have hbase := h.base
  rw [List.countP_eq_length_filter, List.length_eq_one_iff] at hbase
  obtain ⟨entry, hentry⟩ := hbase
  have hfilter := Resolves.filter hbs
  rw [hentry] at hfilter
  obtain ⟨z, zs, hz, hzs, hbz⟩ := List.forall₂_cons_left_iff.mp hfilter
  rw [List.forall₂_nil_left_iff.mp hzs] at hbz
  have hname : baseName settings.breakpoints = some entry.name := by
    rw [baseName, ← List.head?_filter, hentry]
    rfl
  obtain ⟨cs, hsort, hcs⟩ := mergeSort_eq_cons hbz hfits
  have hp := List.mergeSort_perm bs Breakpoint.le
  have hs : (bs.mergeSort Breakpoint.le).Pairwise (Breakpoint.le · ·) :=
    List.pairwise_mergeSort Breakpoint.le_trans Breakpoint.le_total bs
  have hstable : ∀ a b, [a, b].Sublist bs → a.width ≤ b.width →
      [a, b].Sublist (bs.mergeSort Breakpoint.le) := fun a b => sublist_mergeSort hbz hfits
  rw [hsort] at hp hs hstable
  have hmem : ∀ b ∈ z :: cs, b.Fits := fun b hb => hfits b (hp.mem_iff.mp hb)
  have hzb : z.isBase = true := by
    have hz : z ∈ bs.filter Breakpoint.isBase := by rw [hbz]; exact List.mem_singleton.mpr rfl
    exact (List.mem_filter.mp hz).2
  have hresponsive : (z :: cs).filter (!·.isBase) = cs := by
    rw [List.filter_cons_of_neg (by simp [hzb]), List.filter_eq_self]
    intro c hc
    have hn := List.filter_eq_nil_iff.mp hcs c hc
    simpa using hn
  refine ⟨⟨z :: cs, ⟨settings.ratio, settings.documentFontSize⟩, List.cons_ne_nil _ _⟩, ?_, rfl,
    ⟨bs, hbs, hp, hstable⟩, ?_, fun b hb => (hmem b hb).isNaN, ⟨entry, hentry, hz⟩,
    (hmem z List.mem_cons_self).beq_zero hzb, ?_⟩
  · unfold ofSettings
    simp only [ofParameters_of_validScale h.scale, hc, hname, hsort]
  · exact hs.imp_of_mem fun ha hb hl => (hmem _ ha).width_le_of_le (hmem _ hb) hl
  · rw [responsive, hresponsive]
    rfl

theorem ofSettings_of_fault (h : settings.Fault e) : ofSettings settings = .error e := by
  unfold ofSettings
  cases h with
  | ratio h =>
    have hr : (settings.ratio.isFinite && decide (1 < settings.ratio)) = false := by
      rwa [Bool.eq_false_iff, ne_eq, Bool.and_eq_true, decide_eq_true_eq]
    simp only [Scale.ofParameters, hr, Bool.not_false, if_true]
  | documentFontSize hr h =>
    have hr : (settings.ratio.isFinite && decide (1 < settings.ratio)) = true := by
      rwa [Bool.and_eq_true, decide_eq_true_eq]
    have hd : Decimal.isPositive settings.documentFontSize = false := by
      rwa [Decimal.isPositive, Bool.eq_false_iff, ne_eq, Bool.and_eq_true, decide_eq_true_eq]
    simp only [Scale.ofParameters, hr, hd, Bool.not_true, Bool.not_false, Bool.false_eq_true,
      if_false, if_true]
  | entry hs he hb hf =>
    rw [ofParameters_of_validScale hs, he]
    simp only [collect_of_faultBehind hb hf]
  | missingBase hs he h =>
    obtain ⟨bs, -, hc⟩ := collect_of_admissible he
    have hn : baseName settings.breakpoints = none := by
      rw [baseName_eq_none]
      intro entry hm
      simpa using List.countP_eq_zero.mp h entry hm
    simp only [ofParameters_of_validScale hs, hc, hn]

theorem valid_or_fault (settings : Settings) : settings.Valid ∨ ∃ e, settings.Fault e := by
  by_cases hr : settings.ratio.isFinite = true ∧ 1 < settings.ratio
  case neg => exact .inr ⟨_, .ratio hr⟩
  by_cases hd : settings.documentFontSize.isFinite = true ∧ 0 < settings.documentFontSize
  case neg => exact .inr ⟨_, .documentFontSize hr hd⟩
  rcases collect_cases settings settings.breakpoints with
    ⟨ha, -⟩ | ⟨before, entry, after, e, he, hb, hf, -⟩
  · have hs := ha.single
    by_cases h0 : settings.breakpoints.countP claimsZero = 0
    · exact .inr ⟨_, .missingBase ⟨hr, hd⟩ ha h0⟩
    · exact .inl ⟨⟨hr, hd⟩, ha.valid, ha.distinct, by omega⟩
  · exact .inr ⟨e, .entry ⟨hr, hd⟩ he hb hf⟩

theorem arranges_of_ofSettings {table : Breakpoints} (h : ofSettings settings = .ok table) :
    settings.Valid ∧ table.Arranges settings := by
  rcases valid_or_fault settings with hv | ⟨e, hf⟩
  · obtain ⟨table', hok, ha⟩ := ofSettings_of_valid hv
    rw [h] at hok
    cases hok
    exact ⟨hv, ha⟩
  · rw [ofSettings_of_fault hf] at h
    cases h

/-- Every breakpoint of an accepted table stands for a valid entry. -/
theorem exists_resolves_of_mem {table : Breakpoints} (h : ofSettings settings = .ok table)
    (hb : b ∈ table.items) :
    ∃ entry : BreakpointSettings, entry.Valid settings ∧ entry.Resolves settings b := by
  obtain ⟨hv, ha⟩ := arranges_of_ofSettings h
  obtain ⟨bs, hbs, hp, -⟩ := ha.sorted
  obtain ⟨entry, hm, hr⟩ := Resolves.exists_of_mem hbs (hp.mem_iff.mp hb)
  exact ⟨entry, hv.entries entry hm, hr⟩

/-- Just the valid settings are accepted, with their entries in order as the table; all others are
rejected with their first fault. -/
theorem ofSettings_spec (settings : Settings) :
    ((∃ table, ofSettings settings = .ok table) ↔ settings.Valid) ∧
    (∀ table, ofSettings settings = .ok table → table.Arranges settings) ∧
    ∀ e, ofSettings settings = .error e ↔ settings.Fault e := by
  rcases valid_or_fault settings with hv | ⟨e, hf⟩
  · obtain ⟨table, hok, ha⟩ := ofSettings_of_valid hv
    refine ⟨⟨fun _ => hv, fun _ => ⟨table, hok⟩⟩, fun other ho => ?_, fun e => ⟨fun he => ?_, ?_⟩⟩
    · rw [hok] at ho
      cases ho
      exact ha
    · rw [hok] at he
      cases he
    · exact ofSettings_of_fault
  · have herror := ofSettings_of_fault hf
    have hn : ∀ table, ofSettings settings ≠ .ok table := by simp [herror]
    refine ⟨⟨fun ⟨table, hok⟩ => absurd hok (hn table), fun hv => ?_⟩,
      fun table hok => absurd hok (hn table), fun e' => ⟨fun he => ?_, ofSettings_of_fault⟩⟩
    · obtain ⟨table, hok, -⟩ := ofSettings_of_valid hv
      exact absurd hok (hn table)
    · rw [herror] at he
      cases he
      exact hf

theorem ofSettings_spec_default : Settings.Valid {} ∧ standard.Arranges {} :=
  ⟨(ofSettings_spec {}).1.mp ⟨standard, ofSettings_default⟩,
    (ofSettings_spec {}).2.1 standard ofSettings_default⟩

end Breakpoints

end ModularScale
