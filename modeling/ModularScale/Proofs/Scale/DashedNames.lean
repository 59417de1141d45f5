import ModularScale.Proofs.Scale.Spelling
import ModularScale.Proofs.Text.Words

/-! # Breakpoint names with dashes

Custom properties and reports give the name of a breakpoint as its words in lower case, joined by
dashes. Dashes that a name has already do not keep its words together: a capital that is neither
first nor behind a dash begins a word all the same.
-/

namespace ModularScale

open Text

variable {settings : Settings} {table : Breakpoints} {b : Breakpoint}

namespace Breakpoint

/-- The words of the name in lower case, joined by dashes. -/
def dashedName (b : Breakpoint) : String :=
  String.ofList (['-'].intercalate ((words b.name.toList).map asciiLower))

def lowerName (b : Breakpoint) : String :=
  String.ofList (asciiLower b.name.toList)

end Breakpoint

/-- A breakpoint's name has a dash and two capitals behind it. -/
def Settings.wide : Settings where
  breakpoints := [⟨"mobile", "0px", none⟩, ⟨"wide-XL", "768px", none⟩]

namespace Breakpoints

open Breakpoint

namespace Named

theorem kebabCase_name (h : table.Named) (hb : b ∈ table.items) :
    String.ofList (kebabCase b.name.toList) = b.dashedName := by
  rw [kebabCase_eq_intercalate, h.trim_name hb, dashedName]

theorem customProperty_eq (h : table.Named) (hb : b ∈ table.items) :
    b.customProperty = "--" ++ b.dashedName := by
  rw [customProperty, h.kebabCase_name hb]

theorem listing_eq (h : table.Named) :
    table.listing = ", ".intercalate (table.items.map dashedName) := by
  rw [listing, List.map_congr_left fun b hb => h.kebabCase_name hb]

theorem dashedName_eq_iff (h : table.Named) (hb : b ∈ table.items) :
    b.dashedName = b.lowerName ↔ b.name.toList.IsChain (continues · ·) := by
  rw [← h.kebabCase_name hb, lowerName, String.ofList_inj]
  have hiff := kebabCase_eq_asciiLower_iff b.name.toList
  rwa [h.trim_name hb] at hiff

end Named

/-- Custom properties and reports name the breakpoints by their words, and so in lower case just
where no word begins inside a name. -/
structure DashedNames (table : Breakpoints) : Prop where
  property : ∀ b ∈ table.items, b.customProperty = "--" ++ b.dashedName
  reported : ∀ node name p, (Responsive.ofName? name).isSome → table.findParameter? p = none →
    Sizing.Measure.target table (.atRule node name p) =
      .error (.excising node (.unknownBreakpoint (bareParameter p)
        (", ".intercalate (table.items.map dashedName))))
  lowered : ∀ b ∈ table.items,
    (b.dashedName = b.lowerName ↔ b.name.toList.IsChain (continues · ·))

/-- A text is written with dashes as its words, which leaves it as it is in lower case just if each
capital is first or behind a dash. -/
theorem dashedNames_of_ofSettings (h : ofSettings settings = .ok table) :
    (∀ cs, kebabCase cs = ['-'].intercalate ((words (trim cs)).map asciiLower) ∧
      (kebabCase cs = asciiLower (trim cs) ↔ (trim cs).IsChain (continues · ·))) ∧
    table.DashedNames := by
  have hn := named_of_ofSettings h
  refine ⟨fun cs => ⟨kebabCase_eq_intercalate cs, kebabCase_eq_asciiLower_iff cs⟩,
    fun b => hn.customProperty_eq, fun node name p hr hp => ?_, fun b => hn.dashedName_eq_iff⟩
  rw [target_of_isSome hr, hp, hn.listing_eq]

def wide : Breakpoints where
  items := [⟨"mobile", "0px", 16, 0⟩, ⟨"wide-XL", "768px", 16, 768⟩]
  scale := ⟨1.2, 16⟩
  items_ne_nil := List.cons_ne_nil _ _

theorem ofSettings_wide : ofSettings .wide = .ok wide :=
  ofSettings_eq_ok "mobile" (by decide +kernel) (by decide +kernel) (by decide +kernel)

theorem dashedNames_of_ofSettings_wide :
    ofSettings .wide = .ok wide ∧
    kebabCase "wide-XL".toList =
      ['-'].intercalate ((words (trim "wide-XL".toList)).map asciiLower) ∧
    wide.DashedNames := by
  have hw := dashedNames_of_ofSettings ofSettings_wide
  exact ⟨ofSettings_wide, (hw.1 _).1, hw.2⟩

/-- The second capital behind a dash gets a dash of its own. -/
theorem exists_inserted_dash :
    '-' ∈ "wide-XL".toList ∧
    kebabCase "wide-XL".toList = "wide-x-l".toList ∧
    asciiLower (trim "wide-XL".toList) = "wide-xl".toList ∧
    ofSettings .wide = .ok wide ∧
    wide.listing = "mobile, wide-x-l" ∧
    wide.items.map customProperty = ["--mobile", "--wide-x-l"] :=
  ⟨by decide, by decide +kernel, by decide +kernel, ofSettings_wide, by decide +kernel,
    by decide +kernel⟩

end Breakpoints

end ModularScale
