import ModularScale.Scale.Breakpoint

/-! # Accepted tables

The breakpoints that are collected from settings make up their table, in ascending order of width.
-/

namespace ModularScale

deriving instance DecidableEq for Breakpoint

deriving instance DecidableEq for Scale

namespace Breakpoints

theorem ofSettings_eq_ok (base : String) {settings : Settings} {table : Breakpoints}
    (hs : (Scale.ofParameters settings.ratio settings.documentFontSize).toOption =
      some table.scale)
    (hc : (collect settings [] none settings.breakpoints).toOption = some (table.items, some base))
    (hl : table.items.Pairwise (Breakpoint.le · ·)) : ofSettings settings = .ok table := by
  obtain ⟨items, scale, hne⟩ := table
  unfold ofSettings
  cases h₁ : Scale.ofParameters settings.ratio settings.documentFontSize with
  | error e => simp [h₁, Except.toOption] at hs
  | ok s =>
    cases h₂ : collect settings [] none settings.breakpoints with
    | error e => simp [h₂, Except.toOption] at hc
    | ok found =>
      simp only [h₁, h₂, Except.toOption, Option.some.injEq] at hs hc
      subst hs hc
      simp only [List.mergeSort_of_pairwise hl]
      cases items with
      | nil => exact absurd rfl hne
      | cons b bs => rfl

/-- The table of the default settings. -/
def standard : Breakpoints where
  items := [⟨"mobile", "0px", 16, 0⟩, ⟨"tablet", "768px", 18, 768⟩, ⟨"desktop", "1280px", 20, 1280⟩]
  scale := ⟨1.2, 16⟩
  items_ne_nil := List.cons_ne_nil _ _

theorem ofSettings_default : ofSettings {} = .ok standard :=
  ofSettings_eq_ok "mobile" (by decide +kernel) (by decide +kernel) (by decide +kernel)

end Breakpoints

end ModularScale
