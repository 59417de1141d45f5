import ModularScale.Document.Print
import ModularScale.Proofs.Decimal.Unsigned
import ModularScale.Proofs.Scale.Acceptance
import ModularScale.Proofs.Scale.Widest
import ModularScale.Proofs.Sizing.Settled

/-! # Percentages of the root size

All percentages that a pass writes are those of the root size at breakpoints. Each is a number of a
style sheet, unless it is too large to be scaled for rounding.
-/

namespace ModularScale

open Decimal BinaryFraction

variable {settings : Settings} {table : Breakpoints} {b : Breakpoint}

/-- Digits and up to four digits behind a point, without a sign, before a `%`. -/
def IsPercentage (s : String) : Prop :=
  ∃ number, IsPlainDecimal 4 number ∧ '-' ∉ number ∧ s.toList = number ++ "%".toList

/-- An infinity is no percentage of a style sheet. -/
theorem not_isPercentage_inf : ¬IsPercentage "inf%" := by
  rintro ⟨number, hn, -, hs⟩
  have he : "inf".toList = number := List.append_cancel_right hs
  have hi : 'i' ∈ number := by
    rw [← he]
    decide
  exact absurd (hn.mem hi) (by decide)

namespace Scale

/-- What percentage a root size is of the document font size. -/
def percent (s : Scale) (root : Float) : Float :=
  root / s.documentFontSize * 100

theorem hasParts_hundred : HasParts 100 .positive 7036874417766400 (-46) :=
  .of_ofFloat? ⟨by decide, by decide, by decide, by decide⟩ (by decide +kernel)

/-- A percentage of positive sizes is a number of a style sheet if and only if it can be scaled for
rounding. Otherwise it is infinite. -/
theorem percentage_spec {s : Scale} {root : Float} (hr : isPositive root = true)
    (hd : isPositive s.documentFontSize = true) :
    (IsPercentage (s.percentage root) ↔ (s.percent root * powerOfTen places).isFinite = true) ∧
      (¬IsPercentage (s.percentage root) → s.percentage root = "inf%") := by
  rw [isPositive, Bool.and_eq_true, decide_eq_true_eq] at hr hd
  have hu : IsUnsigned (s.percent root * powerOfTen places).toModel.unpack :=
    ((isUnsigned_div hr.2 hr.1 hd.2 hd.1).mul hasParts_hundred).mul isFactor_places.hasParts
  have hwrite : s.percentage root = writeRounded places (s.percent root) ++ "%" := rfl
  cases hf : (s.percent root * powerOfTen places).isFinite with
  | true =>
    have hp : IsPercentage (s.percentage root) :=
      ⟨_, isPlainDecimal_writeRounded isFactor_places (by decide) hf,
        dash_notMem_writeRounded isFactor_places hu hf, hwrite ▸ String.toList_append⟩
    exact ⟨iff_of_true hp rfl, fun hn => absurd hp hn⟩
  | false =>
    have hinf : s.percentage root = "inf%" := by
      rw [hwrite, show writeRounded places (s.percent root) = _ from
        writeRounded_of_infinity isFactor_places (hu.eq_infinity hf)]
      rfl
    exact ⟨iff_of_false (hinf ▸ not_isPercentage_inf) Bool.false_ne_true, fun _ => hinf⟩

end Scale

namespace Breakpoints

/-- A percentage of the root size at one of the breakpoints. -/
def IsRootSize (table : Breakpoints) (s : String) : Prop :=
  ∃ b ∈ table.items, s = table.scale.percentage b.root

theorem isPositive_of_ofSettings (h : ofSettings settings = .ok table) :
    isPositive table.scale.documentFontSize = true ∧
      ∀ b ∈ table.items, isPositive b.root = true := by
  obtain ⟨hv, ha⟩ := arranges_of_ofSettings h
  constructor
  · rw [ha.scale, isPositive, Bool.and_eq_true, decide_eq_true_eq]
    exact hv.scale.documentFontSize
  · intro b hb
    obtain ⟨entry, hentry, hr⟩ := exists_resolves_of_mem h hb
    rw [hr.root]
    exact BreakpointSettings.isPositive_rootOf.mpr hentry.root

end Breakpoints

namespace Sizing

variable {d e : Document} {id x : NodeId} {n : Node} {log log' : List Event} {value : String}
  {a : NodeId × Node}

/-- The font size of a node, if it is a percentage, is one of the root size. -/
def Percent (table : Breakpoints) (n : Node) : Prop :=
  ∀ value, fontSizeOf? n.kind = some value → value.toList.getLast? = some '%' →
    table.IsRootSize value

/-- Lengths of steps are no percentages. -/
theorem getLast?_rem {exponent rem : String} {name : Option String}
    (h : table.rem exponent name = .ok rem) : rem.toList.getLast? ≠ some '%' := by
  obtain ⟨size, hs⟩ := Breakpoints.exists_size?_of_rem_eq_ok h
  rw [Breakpoints.rem_of_size? hs] at h
  split at h
  · cases h
    have hlast : "rem".toList.getLast? = some 'm' := by decide
    rw [String.toList_append, List.getLast?_append, hlast, Option.some_or]
    decide
  · cases h

theorem Step.percent_blocks {exponent selector : String} {bs : List Breakpoint}
    {sizes : List (Breakpoint × String)} (h : Step.sizes table exponent bs = .ok sizes) :
    ∀ n ∈ (Step.blocks selector sizes).toList, Percent table n := by
  intro n hn value hv hlast
  obtain ⟨size, hsize, rfl⟩ := Step.exists_of_mem_blocks hn hv
  exact absurd hlast (getLast?_rem ((sizes_ok h).2 size hsize))

theorem Root.percent_blocks {bs : List Breakpoint} (h : ∀ b ∈ bs, b ∈ table.items) :
    ∀ n ∈ (Root.blocks table.scale bs).toList, Percent table n := by
  intro n hn value hv hlast
  obtain ⟨b, hb, rfl⟩ := Root.exists_of_mem_blocks hn hv
  exact ⟨b, h b hb, rfl⟩

theorem Root.percent_widthProperties (table : Breakpoints) (bs : List Breakpoint) :
    ∀ n ∈ (Root.widthProperties bs).toList, Percent table n := by
  intro n hn value hv
  rw [Root.fontSizeOf?_widthProperties n hn] at hv
  cases hv

/-! ### Steps that write percentages -/

/-- All percentages that were written into a document and into a log are those of the root size. -/
structure Traced (table : Breakpoints) (d e : Document) (log : List Event) : Prop where
  node : ∀ a ∈ e.trees.toList, a ∈ d.trees.toList ∨ Percent table a.2
  event : ∀ s, .rootSized s ∈ log → table.IsRootSize s

namespace Traced

theorem refl (table : Breakpoints) (d : Document) : Traced table d d [] where
  node _ ha := .inl ha
  event _ hs := absurd hs List.not_mem_nil

theorem trans {e' : Document} (h : Traced table d e log) (h' : Traced table e e' log') :
    Traced table d e' (log ++ log') where
  node a ha := (h'.node a ha).elim (h.node a) .inr
  event s hs := (List.mem_append.mp hs).elim (h.event s) (h'.event s)

/-- Steps that log nothing come before others. -/
theorem silent_trans {e' : Document} (h : Traced table d e []) (h' : Traced table e e' log) :
    Traced table d e' log :=
  h.trans h'

theorem note (h : Traced table d e log) (log' : List Event) (hlog : ∀ s, .rootSized s ∉ log') :
    Traced table d e (log ++ log') where
  node := h.node
  event s hs := (List.mem_append.mp hs).elim (h.event s) fun hs => absurd hs (hlog s)

theorem insertNewAfter {anchor : NodeId} {new : Forest Node}
    (h : d.insertNewAfter anchor new = .ok e) (hn : ∀ n ∈ new.toList, Percent table n) :
    Traced table d e [] where
  node _ ha := (Document.mem_or_mem_of_insertNewAfter h ha).imp_right (hn _)
  event _ hs := absurd hs List.not_mem_nil

theorem insertNewBefore {anchor : NodeId} {new : Forest Node}
    (h : d.insertNewBefore anchor new = .ok e) (hn : ∀ n ∈ new.toList, Percent table n) :
    Traced table d e [] where
  node _ ha := (Document.mem_or_mem_of_insertNewBefore h ha).imp_right (hn _)
  event _ hs := absurd hs List.not_mem_nil

theorem replaceWithNew (h : d.replaceWithNew x n = .ok e) (hn : Percent table n) :
    Traced table d e [] where
  node a ha := (Document.mem_or_eq_of_replaceWithNew h ha).imp_right fun ha => by rwa [ha]
  event _ hs := absurd hs List.not_mem_nil

theorem remove (h : d.remove x = .ok e) : Traced table d e [] where
  node _ ha := by
    obtain ⟨-, -, rfl⟩ := Document.remove_ok h
    exact .inl ((Forest.toList_erase_sublist _ _).subset ha)
  event _ hs := absurd hs List.not_mem_nil

theorem setValue (h : d.setValue id value = .ok e) (hv : value.toList.getLast? ≠ some '%') :
    Traced table d e [] where
  node a ha := by
    unfold Document.setValue at h
    split at h
    case h_1 => cases h
    case h_2 property old important hk =>
      obtain ⟨-, rfl⟩ := Document.setKind_ok h
      rw [Forest.toList_modify, List.mem_map] at ha
      obtain ⟨a', ha', rfl⟩ := ha
      split
      · refine .inr fun w hw hlast => absurd hlast ?_
        simp only [fontSizeOf?] at hw
        split at hw
        · cases hw
          exact hv
        · cases hw
      · exact .inl ha'
    case h_3 =>
      cases h
      exact .inl ha
  event _ hs := absurd hs List.not_mem_nil

/-- A last edit that fails leaves the document as it is, but its events are noted down. -/
theorem ofEdit {edited : Except TreeError Document} (h : ∀ e, edited = .ok e → Traced table d e [])
    (hlog : ∀ s, .rootSized s ∈ log → table.IsRootSize s) :
    Traced table d (Result.ofEdit d log edited).document (Result.ofEdit d log edited).log := by
  cases edited with
  | ok e => exact ⟨(h e rfl).node, hlog⟩
  | error r => exact ⟨fun _ ha => .inl ha, hlog⟩

end Traced

theorem Match.run_traced {α : Type} {m : Match α} {apply : α → Result}
    (h : ∀ found, Traced table d (apply found).document (apply found).log) :
    Traced table d (m.run d apply).document (m.run d apply).log := by
  cases m with
  | absent => exact .refl table d
  | present found => exact h found
  | invalid r => exact .refl table d

theorem Measure.apply_traced (table : Breakpoints) (d : Document) (id : NodeId) (exponent : String) :
    Traced table d (Measure.apply table d id exponent).document
      (Measure.apply table d id exponent).log := by
  unfold Measure.apply
  split
  case h_1 => exact .refl table d
  case h_2 =>
    split
    case h_1 => exact .refl table d
    case h_2 =>
      split
      case h_1 => exact .refl table d
      case h_2 hr =>
        exact .ofEdit (fun e he => .setValue he (getLast?_rem hr)) (by simp)

theorem Step.apply_traced (table : Breakpoints) (d : Document) (id : NodeId) (exponent : String) :
    Traced table d (Step.apply table d id exponent).document
      (Step.apply table d id exponent).log := by
  unfold Step.apply
  split
  case h_1 => exact .refl table d
  case h_2 =>
    split
    case h_1 => exact .refl table d
    case h_2 =>
      split
      case h_1 => exact .refl table d
      case h_2 =>
        split
        case h_1 => exact .refl table d
        case h_2 => exact .refl table d
        case h_3 hr hs =>
          split
          case h_1 => exact .refl table d
          case h_2 he =>
            refine .silent_trans (.insertNewAfter he (Step.percent_blocks hs)) ?_
            exact .ofEdit (fun e he' => .setValue he' (getLast?_rem hr)) (by simp [Step.events])

theorem Root.apply_traced (table : Breakpoints) (d : Document) (id : NodeId) :
    Traced table d (Root.apply table d id).document (Root.apply table d id).log := by
  unfold Root.apply
  split
  case h_1 => exact .refl table d
  case h_2 =>
    split
    case h_1 => exact .refl table d
    case h_2 =>
      split
      case isTrue =>
        unfold Root.expand
        have hbase : table.IsRootSize (table.scale.percentage table.base.root) :=
          ⟨table.base, List.head_mem _, rfl⟩
        dsimp only
        split
        case h_1 => exact .refl table d
        case h_2 hblocks =>
          refine .silent_trans (.insertNewAfter hblocks (Root.percent_blocks fun b hb =>
            (Breakpoints.mem_responsive.mp hb).1)) ?_
          split
          case h_1 => exact .refl table _
          case h_2 hprops =>
            refine .silent_trans (.insertNewBefore hprops (Root.percent_widthProperties table _)) ?_
            refine .ofEdit (fun e he => .replaceWithNew he ?_) fun s hs => ?_
            · rintro _ ⟨⟩ -
              exact hbase
            · cases List.mem_singleton.mp hs
              exact hbase
      case isFalse => exact .ofEdit (fun e he => .remove he) (by simp)

theorem run_traced (table : Breakpoints) (d : Document) (id : NodeId) (s : Sizing) :
    Traced table d (s.run table d id).document (s.run table d id).log := by
  cases s with
  | measure => exact Match.run_traced (Measure.apply_traced table d id)
  | step => exact Match.run_traced (Step.apply_traced table d id)
  | root => exact Match.run_traced fun _ => Root.apply_traced table d id

end Sizing

namespace Pass

open Sizing

variable {d : Document} {p : Pass} {id : NodeId}

theorem reject_traced (h : Traced table d p.document p.log) (line : Option Nat) (r : Rejection) :
    Traced table d (p.reject line r).document (p.reject line r).log := by
  unfold reject
  cases r.excise with
  | none => exact h.note _ (by simp)
  | some x =>
    unfold excise
    simp only
    cases he : p.document.remove x with
    | ok e => exact (List.append_nil p.log ▸ h.trans (.remove he)).note _ (by simp)
    | error e => exact (h.note [.excisionFailed e] (by simp)).note _ (by simp)

theorem offer_traced (h : Traced table d p.document p.log) (sizings : List Sizing) :
    Traced table d (p.offer table id sizings).document (p.offer table id sizings).log := by
  induction sizings generalizing p with
  | nil => exact h
  | cons s rest ih =>
    have hnext := h.trans (run_traced table p.document id s)
    unfold offer
    dsimp only
    split
    · exact ih hnext
    · exact hnext
    · exact reject_traced (hnext.note [.rejected s] (by simp)) _ _

theorem visit_traced (h : Traced table d p.document p.log) (id : NodeId) :
    Traced table d (p.visit table id).document (p.visit table id).log := by
  unfold visit
  split
  · exact offer_traced h _
  · exact h

theorem foldl_visit_traced (h : Traced table d p.document p.log) (ids : List NodeId) :
    Traced table d (ids.foldl (visit table) p).document (ids.foldl (visit table) p).log := by
  induction ids generalizing p with
  | nil => exact h
  | cons id ids ih => exact ih (visit_traced h id)

/-- With an accepted table a pass writes no percentages but those of the root size at breakpoints.
Each of them is digits with at most four behind a point, or else the quotient of the sizes is too
large to be rounded and it is `inf%`. -/
theorem percentages_of_ofSettings (h : Breakpoints.ofSettings settings = .ok table) (d : Document) :
    (∀ a ∈ (run table d).document.trees.toList, a ∈ d.trees.toList ∨ ∀ value,
      fontSizeOf? a.2.kind = some value → value.toList.getLast? = some '%' →
        table.IsRootSize value) ∧
      (∀ s, .rootSized s ∈ (run table d).log → table.IsRootSize s) ∧
      ∀ b ∈ table.items, (IsPercentage (table.scale.percentage b.root) ↔
          (table.scale.percent b.root * powerOfTen Scale.places).isFinite = true) ∧
        (¬IsPercentage (table.scale.percentage b.root) →
          table.scale.percentage b.root = "inf%") := by
  obtain ⟨hnode, hevent⟩ := foldl_visit_traced (p := start d) (.refl table d) d.declarations
  obtain ⟨hdoc, hroots⟩ := Breakpoints.isPositive_of_ofSettings h
  exact ⟨hnode, hevent, fun b hb => Scale.percentage_spec (hroots b hb) hdoc⟩

/-- With the default settings the root size of the widest breakpoint is written as `125%`. -/
theorem percentages_of_ofSettings_default :
    let p := run .standard (.ofSheet (Css.Sheet.ofText ":root { font-size: 16px }"))
    Breakpoints.ofSettings {} = .ok .standard ∧ .rootSized "100%" ∈ p.log ∧
      Breakpoints.standard.IsRootSize "100%" ∧
      (10, Template.fontSize "125%") ∈ p.document.trees.toList ∧ IsPercentage "125%" := by
  intro p
  have hlog : .rootSized "100%" ∈ p.log := by decide +kernel
  obtain ⟨-, hevent, hitems⟩ := percentages_of_ofSettings Breakpoints.ofSettings_default
    (.ofSheet (Css.Sheet.ofText ":root { font-size: 16px }"))
  have hwidest : IsPercentage (Breakpoints.standard.scale.percentage 20) :=
    (hitems ⟨"desktop", "1280px", 20, 1280⟩ (by decide +kernel)).1.mpr (by decide +kernel)
  have hwrite : Breakpoints.standard.scale.percentage 20 = "125%" := by decide +kernel
  exact ⟨Breakpoints.ofSettings_default, hlog, hevent _ hlog, by decide +kernel, hwrite ▸ hwidest⟩

/-- A table with a root size that is not finite when it is scaled is accepted. -/
theorem exists_infinite_percentage :
    Breakpoints.ofSettings
        { documentFontSize := 1, breakpoints := [⟨"mobile", "0px", some 1e305⟩] } =
      .ok .immense ∧
      (run .immense (.ofSheet (Css.Sheet.ofText ":root { font-size: 16px }"))).document.print =
        ":root \x7b\n  font-size: inf%;\n\x7d\n" ∧ ¬IsPercentage "inf%" :=
  ⟨Breakpoints.ofSettings_eq_ok "mobile" (by decide +kernel) (by decide +kernel)
    (by decide +kernel), by decide +kernel, not_isPercentage_inf⟩

end Pass

end ModularScale
