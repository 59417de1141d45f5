import ModularScale.Proofs.Document.Splices
import ModularScale.Proofs.Scale.Acceptance
import ModularScale.Proofs.Scale.Table
import ModularScale.Proofs.Sizing.Shape

/-! # Effect of sizes in scale steps

A size such as `2ms` is taken at the breakpoint that the nearest at-rule around it names, or at the
base one without an at-rule. The declaration gets the size as its value, and nothing else changes.
If there is no such breakpoint or no such size, nothing changes at all.
-/

namespace ModularScale

open Document

variable {table : Breakpoints} {d : Document} {id : NodeId} {value exponent : String}
  {b : Breakpoint}

namespace Breakpoints

/-- The size of a step in `rem` at a given breakpoint. -/
def remAt (table : Breakpoints) (exponent : String) (b : Breakpoint) :
    Except ConversionError String :=
  let trimmed := String.ofList (Text.trim exponent.toList)
  match Decimal.readNumber? exponent with
  | none => .error (.notNumeric trimmed)
  | some n =>
    let size := table.scale.size b.root n
    if size.isFinite then .ok (Decimal.writeRounded Scale.places size ++ "rem")
    else .error (.outOfRange trimmed)

theorem rem_of_target {name : Option String} (h : table.target name = .ok b) :
    table.rem exponent name = table.remAt exponent b := by
  cases hn : Decimal.readNumber? exponent <;> simp only [rem, remAt, h, hn]

/-- The name of a breakpoint that was found leads to the same one again. -/
theorem target_of_findParameter? {params : String} (h : table.findParameter? params = some b) :
    table.target (some b.name) = .ok b := by
  rw [findParameter?, find?] at h
  have hkey : Breakpoint.nameKey b.name = Breakpoint.nameKey (bareParameter params) := by
    simpa using List.find?_some h
  have hfind : table.find? b.name = some b := by
    rw [find?, hkey]
    exact h
  simp only [target, hfind]

end Breakpoints

namespace Document

/-- The nearest at-rule above a node, with its name and its parameters. -/
def nearestAtRule? (d : Document) (id : NodeId) : Option (NodeId × String × String) :=
  (d.ancestors id).findSome? fun a =>
    match d.kind a with
    | .ok (.atRule name params _ _) => some (a, name, params)
    | _ => none

/-- The nearest at-rule is the scope, or the style sheet where there is none. -/
theorem Nested.resolve_eq (hd : d.Nested) (hl : d.isLive id = true) (hr : id ≠ root) :
    Scope.resolve d id = .ok (match d.nearestAtRule? id with
      | some (a, name, params) => .atRule a name params
      | none => .root) := by
  unfold Scope.resolve nearestAtRule?
  generalize has : d.ancestors id = as
  induction as generalizing id with
  | nil =>
    obtain ⟨parent, hp⟩ := Option.isSome_iff_exists.mp (hd.parent_isSome hl hr)
    rw [parent?, has] at hp
    cases hp
  | cons a as ih =>
    have hp : d.parent? id = some a := by rw [parent?, has]; rfl
    have hla : d.isLive a = true := isLive_of_mem_ancestors (mem_ancestors_of_parent hp)
    have hup : d.ancestors a = as := by
      rw [ancestors_of_parent hd.nodup hp] at has
      exact (List.cons.inj has).2
    obtain ⟨n, hn⟩ := isLive_iff_node.mp hla
    have hk := kind_of_node? hn
    rw [Scope.search, List.findSome?_cons, hk]
    cases hkn : n.kind with
    | root =>
      obtain rfl := hd.eq_root (hk.trans (congrArg Except.ok hkn))
      have htop := hd.toWhole.toRooted.isForest.parent_root
      rw [← hup, ancestors_of_parent_eq_none htop]
      rfl
    | atRule name params afterName hasBlock => rfl
    | rule selector => exact ih hla (hd.ne_root hk (by simp [hkn])) hup
    | declaration property value important => exact ih hla (hd.ne_root hk (by simp [hkn])) hup
    | comment text => exact ih hla (hd.ne_root hk (by simp [hkn])) hup

end Document

namespace Sizing

/-- What comes of a declaration whose size is taken at a breakpoint. -/
def Measured (table : Breakpoints) (exponent : String) (b : Breakpoint) (d : Document) (id : NodeId)
    (r : Result) : Prop :=
  match table.remAt exponent b with
  | .ok rem => ∃ e log, r = ⟨.applied, e, log⟩ ∧ Revalued id rem d e
  | .error cause => r = .rejected d ⟨some id, .conversion cause⟩

theorem measured_of_target (hv : d.fontSize? id = some value) {scope : Scope}
    {name : Option String} (hs : Scope.resolve d id = .ok scope)
    (ht : Measure.target table scope = .ok name) (hb : table.target name = .ok b) :
    Measured table exponent b d id (Measure.apply table d id exponent) := by
  unfold Measured
  cases hr : table.remAt exponent b with
  | error cause =>
    simp only [Measure.apply, hs, ht, Breakpoints.rem_of_target hb, hr, Rejection.excising]
  | ok rem =>
    obtain ⟨e, he⟩ := exists_setValue (isLive_of_fontSize? hv) rem
    refine ⟨e, [.converted exponent rem scope], ?_, revalued_setValue hv he⟩
    simp only [Measure.apply, hs, ht, Breakpoints.rem_of_target hb, hr, he, Result.ofEdit]

theorem isNone_ofName? (name : String) : (Responsive.ofName? name).isNone = false ↔
    ∃ keyword ∈ ["t-above", "t-below", "t-only"],
      Text.eqIgnoringCase name.toList keyword.toList = true := by
  rw [Option.isNone_eq_false_iff]
  simp [Responsive.ofName?, Responsive.all, Responsive.name]

/-- A size in scale steps at any point of any passes. With a breakpoint for its scope it is taken
there; in an at-rule that names none, or is not responsive, it is rejected along with the
at-rule. -/
theorem measure_effect {settings : Settings} {text : String}
    (ht : Breakpoints.ofSettings settings = .ok table) (hd : d.InPasses text)
    (hv : d.fontSize? id = some value) (hn : Measure.exponent? value = some exponent) :
    table.items = table.base :: table.responsive ∧
    (d.nearestAtRule? id = none →
      Measured table exponent table.base d id (measure.run table d id)) ∧
    ∀ a name params, d.nearestAtRule? id = some (a, name, params) →
      ((∃ keyword ∈ ["t-above", "t-below", "t-only"],
          Text.eqIgnoringCase name.toList keyword.toList = true) →
        (∀ b, table.findParameter? params = some b →
          Measured table exponent b d id (measure.run table d id)) ∧
        (table.findParameter? params = none → measure.run table d id = .rejected d ⟨some a,
          .unknownBreakpoint (Breakpoints.bareParameter params) table.listing⟩)) ∧
      ((¬∃ keyword ∈ ["t-above", "t-below", "t-only"],
          Text.eqIgnoringCase name.toList keyword.toList = true) →
        measure.run table d id = .rejected d ⟨some a, .unsupportedScope name⟩) := by
  have hnested := hd.nested
  have hrun : measure.run table d id = Measure.apply table d id exponent := by
    simp only [run, Measure.find, hv, Option.bind_some, hn, Match.run]
  have hscope := hnested.resolve_eq (isLive_of_fontSize? hv) (hnested.ne_root_of_fontSize? hv)
  obtain ⟨-, ha⟩ := Breakpoints.arranges_of_ofSettings ht
  rw [hrun]
  refine ⟨ha.items, fun hnone => ?_, fun a name params hsome => ?_⟩
  · rw [hnone] at hscope
    exact measured_of_target hv hscope rfl rfl
  · rw [hsome] at hscope
    rw [← isNone_ofName?, Bool.not_eq_false]
    refine ⟨fun hresponsive => ⟨fun b hb => ?_, fun hb => ?_⟩, fun hother => ?_⟩
    · have htarget : Measure.target table (.atRule a name params) = .ok (some b.name) := by
        simp only [Measure.target, Scope.responsive?, hresponsive, Bool.false_eq_true, if_false, hb]
      exact measured_of_target hv hscope htarget (Breakpoints.target_of_findParameter? hb)
    · simp only [Measure.apply, hscope, Measure.target, Scope.responsive?, hresponsive,
        Bool.false_eq_true, if_false, hb, Rejection.excising]
    · simp only [Measure.apply, hscope, Measure.target, Scope.responsive?, hother, if_true,
        Rejection.excising]

theorem sheet_of_scopes : Css.Sheet.ofText
    "p{font-size:0ms}@t-above tablet{font-size:0ms}@page{font-size:0ms}@t-only a{font-size:0ms}" =
      let size := Forest.single ⟨.declaration "font-size" "0ms" false, some 1⟩ .nil
      ⟨.cons ⟨.rule "p", some 1⟩ size
        (.cons ⟨.atRule "t-above" "tablet" " " true, some 1⟩ size
          (.cons ⟨.atRule "page" "" "" true, some 1⟩ size
            (.single ⟨.atRule "t-only" "a" " " true, some 1⟩ size))), 0⟩ := by
  rw [Css.Sheet.ofText, Css.Components.ofText, Css.Components.ofLexemes_eq]
  cbv

/-- Sizes without an at-rule, at a breakpoint, in an at-rule that is not responsive, and in one that
names no breakpoint. -/
theorem measure_effect_scopes :
    let d := ofSheet (Css.Sheet.ofText
      "p{font-size:0ms}@t-above tablet{font-size:0ms}@page{font-size:0ms}@t-only a{font-size:0ms}")
    Breakpoints.ofSettings {} = .ok .standard ∧
      (∀ id ∈ [2, 4, 6, 8], d.fontSize? id = some "0ms") ∧
      (∃ e log, measure.run .standard d 2 = ⟨.applied, e, log⟩ ∧ Revalued 2 "1rem" d e) ∧
      (∃ e log, measure.run .standard d 4 = ⟨.applied, e, log⟩ ∧ Revalued 4 "1.125rem" d e) ∧
      measure.run .standard d 6 = .rejected d ⟨some 5, .unsupportedScope "page"⟩ ∧
      measure.run .standard d 8 = .rejected d ⟨some 7,
        .unknownBreakpoint "a" "mobile, tablet, desktop"⟩ := by
  intro d
  have hd : d.InPasses _ := .read
  have hsheet : d = ofSheet _ := congrArg ofSheet sheet_of_scopes
  clear_value d
  have hv : ∀ id ∈ [2, 4, 6, 8], d.fontSize? id = some "0ms" := by rw [hsheet]; decide +kernel
  have hscope : [2, 4, 6, 8].map d.nearestAtRule? = [none, some (3, "t-above", "tablet"),
      some (5, "page", ""), some (7, "t-only", "a")] := by rw [hsheet]; decide +kernel
  simp only [List.map_cons, List.map_nil, List.cons.injEq, and_true] at hscope
  obtain ⟨h₂, h₄, h₆, h₈⟩ := hscope
  have hn : Measure.exponent? "0ms" = some "0" := by decide +kernel
  have heffect := fun id (hid : id ∈ [2, 4, 6, 8]) =>
    measure_effect Breakpoints.ofSettings_default hd (hv id hid) hn
  refine ⟨Breakpoints.ofSettings_default, hv, ?_, ?_, ?_, ?_⟩
  · obtain ⟨-, h, -⟩ := heffect 2 (by simp)
    have hrem : Breakpoints.standard.remAt "0" Breakpoints.standard.base = .ok "1rem" := by
      decide +kernel
    have hmeasured := h h₂
    rwa [Measured, hrem] at hmeasured
  · obtain ⟨-, -, h⟩ := heffect 4 (by simp)
    have hrem : Breakpoints.standard.remAt "0" ⟨"tablet", "768px", 18, 768⟩ = .ok "1.125rem" := by
      decide +kernel
    have hmeasured := ((h 3 "t-above" "tablet" h₄).1 (by decide +kernel)).1
      ⟨"tablet", "768px", 18, 768⟩ (by decide +kernel)
    rwa [Measured, hrem] at hmeasured
  · obtain ⟨-, -, h⟩ := heffect 6 (by simp)
    exact (h 5 "page" "" h₆).2 (by decide +kernel)
  · obtain ⟨-, -, h⟩ := heffect 8 (by simp)
    have hrejected := ((h 7 "t-only" "a" h₈).1 (by decide +kernel)).2 (by decide +kernel)
    have hbare : Breakpoints.bareParameter "a" = "a" := by decide +kernel
    have hlisting : Breakpoints.standard.listing = "mobile, tablet, desktop" := by decide +kernel
    rwa [hbare, hlisting] at hrejected

end Sizing

end ModularScale
