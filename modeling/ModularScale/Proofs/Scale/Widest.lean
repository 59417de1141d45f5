import ModularScale.Proofs.Decimal.Order
import ModularScale.Proofs.Scale.Table
import ModularScale.Scale.Conversion

/-! # The breakpoint in force

In a viewport the widest breakpoint is in force that fits into it. In an accepted table, whose
breakpoints are in ascending order of their widths, this is the last one that fits.
-/

namespace ModularScale

variable {settings : Settings} {table : Breakpoints} {b : Breakpoint} {w : Float}

namespace Breakpoint

theorem width?_spec {fontSize : Float} {value : List Char} (h : width? fontSize value = some w) :
    if startsWithZero value then (w == 0) = true else 0 < w := by
  unfold width? at h
  split at h
  case h_1 =>
    simp only [Option.ite_none_right_eq_some, Option.some.injEq] at h
    obtain ⟨hw, rfl⟩ := h
    split
    case isTrue hz => simpa [hz] using hw
    case isFalse hz => simpa [hz] using hw
  case h_2 => cases h

theorem width?_of_ofSettings {entry : BreakpointSettings} (h : ofSettings settings entry = .ok b) :
    width? settings.documentFontSize b.value.toList = some b.width := by
  unfold ofSettings at h
  dsimp only at h
  split at h
  · cases h
  · split at h
    · cases h
    case h_2 width hw =>
      split at h
      · cases h
      · cases h
        simpa using hw

theorem le_trans (a b c : Breakpoint) (hab : le a b = true) (hbc : le b c = true) :
    le a c = true := by
  simp only [le, decide_eq_true_eq] at hab hbc ⊢
  exact Int.le_trans hab hbc

theorem le_total (a b : Breakpoint) : (le a b || le b a) = true := by
  simp only [le, Bool.or_eq_true, decide_eq_true_eq]
  exact Int.le_total _ _

end Breakpoint

namespace Breakpoints

/-- What holds of the breakpoints up to some entry, `base` being the name of the base one. -/
structure Collected (settings : Settings) (seen : List Breakpoint) (base : Option String) :
    Prop where
  width : ∀ b ∈ seen,
    Breakpoint.width? settings.documentFontSize b.value.toList = some b.width
  base : base.isSome = true → ∃ b ∈ seen, b.isBase = true

theorem Collected.collect {seen items : List Breakpoint} {base found : Option String}
    {entries : List BreakpointSettings} (h : Collected settings seen base)
    (hc : collect settings seen base entries = .ok (items, found)) :
    Collected settings items found := by
  induction entries generalizing seen base with
  | nil =>
    cases hc
    exact h
  | cons entry entries ih =>
    unfold Breakpoints.collect at hc
    split at hc
    case h_1 => cases hc
    case h_2 b hb =>
      have hwidth : ∀ c ∈ seen ++ [b],
          Breakpoint.width? settings.documentFontSize c.value.toList = some c.width := by
        intro c hc
        rcases List.mem_append.mp hc with hc | hc
        · exact h.width c hc
        · rw [List.mem_singleton.mp hc]
          exact Breakpoint.width?_of_ofSettings hb
      split at hc
      · cases hc
      split at hc
      case isTrue hbase =>
        split at hc
        · cases hc
        · exact ih ⟨hwidth, fun _ => ⟨b, by simp, hbase⟩⟩ hc
      case isFalse =>
        refine ih ⟨hwidth, fun hs => ?_⟩ hc
        obtain ⟨z, hz, hzb⟩ := h.base hs
        exact ⟨z, List.mem_append_left _ hz, hzb⟩

/-- What holds of every accepted table. -/
structure WellFormed (table : Breakpoints) : Prop where
  sorted : table.items.Pairwise (Breakpoint.le · ·)
  width : ∀ b ∈ table.items,
    Breakpoint.width? table.scale.documentFontSize b.value.toList = some b.width
  base : ∃ b ∈ table.items, b.isBase = true

theorem ofSettings_wellFormed (h : ofSettings settings = .ok table) : table.WellFormed := by
  unfold ofSettings at h
  split at h
  · cases h
  case h_2 scale hs =>
    have hsize : scale.documentFontSize = settings.documentFontSize := by
      unfold Scale.ofParameters at hs
      split at hs
      · cases hs
      · split at hs
        · cases hs
        · cases hs; rfl
    split at h
    · cases h
    · cases h
    case h_3 items name hc =>
      have hitems : Collected settings items (some name) :=
        Collected.collect ⟨by simp, by simp⟩ hc
      have hsorted : (items.mergeSort Breakpoint.le).Pairwise (Breakpoint.le · ·) :=
        List.pairwise_mergeSort Breakpoint.le_trans Breakpoint.le_total items
      have hmem : ∀ c, c ∈ items.mergeSort Breakpoint.le ↔ c ∈ items :=
        fun c => List.mem_mergeSort
      split at h
      · cases h
      case h_2 b bs hm =>
        rw [hm] at hsorted hmem
        cases h
        refine ⟨hsorted, fun c hc => ?_, ?_⟩
        · rw [hsize]
          exact hitems.width c ((hmem c).mp hc)
        · obtain ⟨z, hz, hzb⟩ := hitems.base rfl
          exact ⟨z, (hmem z).mpr hz, hzb⟩

theorem mem_responsive : b ∈ table.responsive ↔ b ∈ table.items ∧ b.isBase = false := by
  simp [responsive]

/-- Without a name the base breakpoint is meant. -/
theorem rem_base (table : Breakpoints) (exponent : String) :
    table.rem exponent (some table.base.name) = table.rem exponent none := by
  have hf : table.find? table.base.name = some table.base := by
    unfold find? base
    obtain ⟨items, scale, hne⟩ := table
    cases items with
    | nil => exact absurd rfl hne
    | cons b bs => simp
  simp only [rem, target, hf]

/-- The breakpoint in force in a viewport: the widest one that fits into it, and the last one of
those with the same width. -/
structure InForce (table : Breakpoints) (w : Float) (b : Breakpoint) : Prop where
  mem : b ∈ table.items
  fits : b.width ≤ w
  widest : ∀ c ∈ table.items, c.width ≤ w → c.width ≤ b.width
  last : b.isBase = true ∨ ∃ before after, table.responsive = before ++ b :: after ∧
    ∀ c ∈ after, ¬c.width ≤ w

namespace WellFormed

theorem beq_zero (h : table.WellFormed) (hm : b ∈ table.items) (hb : b.isBase = true) :
    (b.width == 0) = true := by
  have hw := Breakpoint.width?_spec (h.width b hm)
  rwa [show Breakpoint.startsWithZero b.value.toList = true from hb, if_pos rfl] at hw

theorem pos (h : table.WellFormed) (hm : b ∈ table.responsive) : 0 < b.width := by
  obtain ⟨hm, hb⟩ := mem_responsive.mp hm
  have hw := Breakpoint.width?_spec (h.width b hm)
  rwa [show Breakpoint.startsWithZero b.value.toList = false from hb, if_neg Bool.false_ne_true] at hw

/-- Where no other breakpoint fits the base one is in force. -/
theorem exists_base_inForce (h : table.WellFormed) (hw : 0 ≤ w)
    (hn : ∀ c ∈ table.responsive, ¬c.width ≤ w) : ∃ b, b.isBase = true ∧ table.InForce w b := by
  obtain ⟨b, hm, hb⟩ := h.base
  refine ⟨b, hb, hm, le_of_beq_zero (h.beq_zero hm hb) hw, fun c hc hcw => ?_, .inl hb⟩
  have hcb : c.isBase = true := by
    by_contra hcb
    exact hn c (mem_responsive.mpr ⟨hc, (Bool.not_eq_true _).mp hcb⟩) hcw
  exact le_of_beq_zero (h.beq_zero hc hcb) (nonneg_of_beq_zero (h.beq_zero hm hb))

/-- The last of the other breakpoints that fits is in force. -/
theorem inForce (h : table.WellFormed) {before after : List Breakpoint}
    (hr : table.responsive = before ++ b :: after) (hb : b.width ≤ w)
    (hn : ∀ c ∈ after, ¬c.width ≤ w) : table.InForce w b := by
  have hbr : b ∈ table.responsive := by simp [hr]
  have hpos := h.pos hbr
  refine ⟨(mem_responsive.mp hbr).1, hb, fun c hc hcw => ?_, .inr ⟨before, after, hr, hn⟩⟩
  cases hcb : c.isBase with
  | true => exact le_of_beq_zero (h.beq_zero hc hcb) (nonneg_of_pos hpos)
  | false =>
    have hcr := mem_responsive.mpr ⟨hc, hcb⟩
    have hle : Breakpoint.le c b = true := by
      have hs : table.responsive.Pairwise (Breakpoint.le · ·) := h.sorted.filter _
      rw [hr, List.pairwise_append] at hs
      have hcs := hcr
      rw [hr, List.mem_append, List.mem_cons] at hcs
      rcases hcs with hcs | rfl | hcs
      · exact hs.2.2 c hcs b List.mem_cons_self
      · exact decide_eq_true (Int.le_refl _)
      · exact absurd hcw (hn c hcs)
    exact (le_iff_orderKey_le (h.pos hcr) hpos).mpr (of_decide_eq_true hle)

end WellFormed

end Breakpoints

end ModularScale
