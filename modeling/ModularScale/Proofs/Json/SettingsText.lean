import ModularScale.Proofs.Json.Compact
import ModularScale.Settings

/-! # Settings that are read back

Settings are written as JSON with all their fields, but for root sizes that are not there. They are
read back as they were, if each number is.
-/

namespace ModularScale

namespace Json

/-- The names of all fields. -/
def keys : List String :=
  ["documentFontSize", "ratio", "breakpoints", "name", "value", "root"]

theorem escape_of_mem_keys : ∀ key ∈ keys, escape key.toList = key.toList := by
  decide +kernel

/-- Names without escapes are read as they are written. -/
theorem namedFields?_record (fields : List (String × Json)) (h : fields.map Prod.fst ⊆ keys) :
    namedFields? (fields.map fun field => (field.1.toList, field.2)) = some fields := by
  induction fields with
  | nil => rfl
  | cons field fields ih =>
    obtain ⟨hname, hnames⟩ := List.cons_subset.mp h
    have hname := escape_of_mem_keys _ hname
    have hread := unescape?_escape field.1.toList
    rw [hname] at hread
    have htail := ih hnames
    rw [namedFields?] at htail ⊢
    rw [List.map_cons, List.mapM_cons, hread, htail]
    simp

theorem isWritten_record {fields : List (String × Json)} (h : fields.map Prod.fst ⊆ keys)
    (hv : ∀ field ∈ fields, field.2.IsWritten) : (record fields).IsWritten := by
  rw [record, IsWritten]
  induction fields with
  | nil => exact trivial
  | cons field fields ih =>
    obtain ⟨hname, hnames⟩ := List.cons_subset.mp h
    obtain ⟨hvalue, hvalues⟩ := List.forall_mem_cons.mp hv
    exact ⟨⟨_, (escape_of_mem_keys _ hname).symm⟩, hvalue, ih hnames hvalues⟩

theorem isWritten_array {items : List Json} (h : ∀ item ∈ items, item.IsWritten) :
    (array items).IsWritten := by
  rw [IsWritten]
  induction items with
  | nil => exact trivial
  | cons item items ih =>
    obtain ⟨hitem, hitems⟩ := List.forall_mem_cons.mp h
    exact ⟨hitem, ih hitems⟩

theorem isWritten_ofText (s : String) : (ofText s).IsWritten := by
  rw [ofText, IsWritten]
  exact ⟨_, rfl⟩

theorem isWritten_ofFloat {x : Float} (h : x.isFinite = true) : (ofFloat x).IsWritten := by
  rw [ofFloat, IsWritten]
  exact Decimal.isNumber_write h

/-- A number that is read back from its text. Reading rounds once for each factor, so some numbers
of many digits are read as one of their neighbours. -/
def Rereads (x : Float) : Prop :=
  float? (ofFloat x) = some x

instance (x : Float) : Decidable (Rereads x) :=
  inferInstanceAs (Decidable (_ = _))

end Json

open Json

namespace BreakpointSettings

variable {b : BreakpointSettings}

theorem isWritten_toJson (h : ∀ x ∈ b.root, x.isFinite = true) : b.toJson.IsWritten := by
  obtain ⟨name, value, root⟩ := b
  refine isWritten_record ?_ ?_
  · cases root <;> simp [keys]
  · cases root with
    | none => simp [isWritten_ofText]
    | some x => simp [isWritten_ofText, isWritten_ofFloat (h x rfl)]

theorem values?_toJson (b : BreakpointSettings) :
    b.toJson.values? ["name", "value", "root"] =
      some [some (ofText b.name), some (ofText b.value), b.root.map ofFloat] := by
  obtain ⟨name, value, root⟩ := b
  have hnames : namedFields? _ = _ := namedFields?_record ([("name", ofText name),
    ("value", ofText value)] ++ (root.map fun root => ("root", ofFloat root)).toList)
    (by cases root <;> simp [keys])
  rw [toJson, record, values?, hnames]
  cases root <;> rfl

/-- A breakpoint is read back if its root size is, if there is one. -/
theorem ofJson?_toJson_iff : ofJson? b.toJson = some b ↔ ∀ x ∈ b.root, Rereads x := by
  obtain ⟨name, value, root⟩ := b
  rw [ofJson?, values?_toJson]
  cases root with
  | none => simp [text?_ofText, optional?]
  | some x =>
    have hread : (ofFloat x).optional? float? = (float? (ofFloat x)).map some := rfl
    cases h : float? (ofFloat x) <;> simp [text?_ofText, hread, Rereads, h]

end BreakpointSettings

namespace Settings

variable {c : Settings}

/-- All numbers of settings. -/
def numbers (c : Settings) : List Float :=
  c.documentFontSize :: c.ratio :: c.breakpoints.filterMap (·.root)

theorem isWritten_toJson (h : ∀ x ∈ c.numbers, x.isFinite = true) : c.toJson.IsWritten := by
  simp only [numbers, List.forall_mem_cons, List.mem_filterMap] at h
  obtain ⟨hsize, hratio, hroots⟩ := h
  refine isWritten_record (by simp [keys]) ?_
  simp only [List.forall_mem_cons]
  refine ⟨isWritten_ofFloat hsize, isWritten_ofFloat hratio, isWritten_array ?_, by simp⟩
  intro item hitem
  obtain ⟨b, hb, rfl⟩ := List.mem_map.mp hitem
  exact BreakpointSettings.isWritten_toJson fun x hx => hroots x ⟨b, hb, hx⟩

theorem values?_toJson (c : Settings) :
    c.toJson.values? ["documentFontSize", "ratio", "breakpoints"] =
      some [some (ofFloat c.documentFontSize), some (ofFloat c.ratio),
        some (.array (c.breakpoints.map BreakpointSettings.toJson))] := by
  rw [toJson, record, values?, namedFields?_record _ (by simp [keys])]
  rfl

theorem mapM_ofJson?_iff {bs : List BreakpointSettings} :
    (bs.map BreakpointSettings.toJson).mapM BreakpointSettings.ofJson? = some bs ↔
      ∀ x ∈ bs.filterMap (·.root), Rereads x := by
  induction bs with
  | nil => simp
  | cons b bs ih =>
    have hcons : ∀ x, x ∈ (b :: bs).filterMap (·.root) ↔ x ∈ b.root ∨ x ∈ bs.filterMap (·.root) := by
      simp [Option.mem_def]
    simp only [hcons, or_imp, forall_and, ← ih, ← BreakpointSettings.ofJson?_toJson_iff]
    rw [List.map_cons, List.mapM_cons]
    cases BreakpointSettings.ofJson? b.toJson with
    | none => simp
    | some b' =>
      cases (bs.map BreakpointSettings.toJson).mapM BreakpointSettings.ofJson? <;> simp

theorem ofJson?_toJson_iff : ofJson? c.toJson = some c ↔ ∀ x ∈ c.numbers, Rereads x := by
  obtain ⟨documentFontSize, ratio, breakpoints⟩ := c
  simp only [numbers, List.forall_mem_cons, ← mapM_ofJson?_iff]
  rw [ofJson?, values?_toJson]
  simp only [fieldOr, breakpointsOfJson?, Rereads]
  cases float? (ofFloat documentFontSize) with
  | none => simp
  | some size =>
    cases float? (ofFloat ratio) with
    | none => simp
    | some step =>
      cases (breakpoints.map BreakpointSettings.toJson).mapM BreakpointSettings.ofJson? <;> simp

/-- Settings with finite numbers are read back from their own text, if and only if each of their
numbers is. -/
theorem ofText?_toText_iff (c : Settings) (h : ∀ x ∈ c.numbers, x.isFinite = true) :
    ofText? c.toText = some c ↔ ∀ x ∈ c.numbers, Rereads x := by
  rw [ofText?, toText, String.toList_ofList, ofChars?_compact (isWritten_toJson h), Option.bind_some,
    ofJson?_toJson_iff]

/-- Names and values may hold anything. -/
theorem ofText?_toText_iff_escapes :
    let c : Settings := ⟨16, 1.25, [⟨"a\"b\\", "\n\t\x01é", none⟩, ⟨"", "0", some 0.1⟩]⟩
    (∀ x ∈ c.numbers, x.isFinite = true) ∧ ofText? c.toText = some c := by
  intro c
  have hfinite : ∀ x ∈ c.numbers, x.isFinite = true := by decide +kernel
  exact ⟨hfinite, (ofText?_toText_iff c hfinite).mpr (by decide +kernel)⟩

end Settings

end ModularScale
