import ModularScale.Proofs.Document.InTurn
import ModularScale.Proofs.Scale.Acceptance
import ModularScale.Proofs.Scale.Table

/-! # Effect of steps

A step that has a size at each breakpoint gives way to the one at the base breakpoint, and its rule
is followed by one block for each other breakpoint, narrowest first. Nothing else changes, and
nothing at all if a size is missing.
-/

namespace ModularScale

open Document

variable {table : Breakpoints} {d d₁ e : Document} {id rule parent : NodeId}
  {value exponent selector : String} {rem : Option String → String} {bs : List Breakpoint}

namespace Sizing.Step

/-- What becomes of a document in which a step is expanded behind its rule. -/
structure Expanded (bs : List Breakpoint) (rem : Option String → String) (selector : String)
    (id rule parent : NodeId) (d e : Document) : Prop where
  /-- The declaration keeps all but its value. -/
  declaration : ∃ property old important line,
    d.node? id = some ⟨.declaration property old important, line⟩ ∧
      e.node? id = some ⟨.declaration property (rem none) important, line⟩
  /-- Each breakpoint has its block, in their order. -/
  blocks : ∃ before made after, d.children parent = before ++ rule :: after ∧
    e.children parent = before ++ rule :: (made ++ after) ∧
    (∀ block ∈ made, d.isLive block = false) ∧
    List.Forall₂ (fun b block => e.Shows [block]
      (.single ⟨.atRule "media" ("(min-width: " ++ b.value ++ ")") " " true, none⟩
        (.single ⟨.rule selector, none⟩
          (.single ⟨.declaration "font-size" (rem (some b.name)) false, none⟩ .nil)))) bs made
  isLive : ∀ x, d.isLive x = true → e.isLive x = true
  same : SameBut [id] [parent] d e

/-- Expands a step one edit at a time. -/
def expandInTurn (selector rem : String) (sizes : List (Breakpoint × String)) (id rule : NodeId)
    (d : Document) : Except TreeError Document := do
  let d ← d.putBlocks rule selector (fun size => size.1.value)
    (fun size => .single (Template.fontSize size.2) .nil) sizes
  d.setValue id rem

theorem sizes_eq_ok (h : ∀ b ∈ bs, table.rem exponent (some b.name) = .ok (rem (some b.name))) :
    sizes table exponent bs = .ok (bs.map fun b => (b, rem (some b.name))) := by
  induction bs with
  | nil => rfl
  | cons b bs ih =>
    obtain ⟨hb, hbs⟩ := List.forall_mem_cons.mp h
    rw [sizes, hb, ih hbs]
    rfl

theorem rem_of_sizes_error {cause : ConversionError} (h : sizes table exponent bs = .error cause) :
    ∃ b ∈ bs, table.rem exponent (some b.name) = .error cause := by
  induction bs with
  | nil => cases h
  | cons b bs ih =>
    rw [List.exists_mem_cons_iff]
    unfold sizes at h
    cases hb : table.rem exponent (some b.name) with
    | error e =>
      rw [hb] at h
      cases h
      exact .inl rfl
    | ok size =>
      rw [hb] at h
      cases hs : sizes table exponent bs with
      | error e => rw [hs] at h; cases h; exact .inr (ih hs)
      | ok sizes => rw [hs] at h; cases h

/-- A size that is missing at some breakpoint takes the rule along, and the document stays. -/
theorem apply_of_error (hp : d.parent? id = some rule) (hk : d.kind rule = .ok (.rule selector))
    {name : Option String} (hname : name ∈ none :: table.responsive.map (some ·.name))
    {cause : ConversionError} (hr : table.rem exponent name = .error cause) :
    ∃ name ∈ none :: table.responsive.map (some ·.name), ∃ cause,
      table.rem exponent name = .error cause ∧
        apply table d id exponent = .rejected d ⟨some rule, .conversion cause⟩ := by
  cases hbase : table.rem exponent none with
  | error cause =>
    refine ⟨none, List.mem_cons_self, cause, hbase, ?_⟩
    simp only [apply, hp, hk, selectorOf, hbase, Rejection.excising]
  | ok base =>
    cases hsizes : sizes table exponent table.responsive with
    | error cause =>
      obtain ⟨b, hb, hcause⟩ := rem_of_sizes_error hsizes
      refine ⟨some b.name, List.mem_cons_of_mem _ (List.mem_map_of_mem hb), cause, hcause, ?_⟩
      simp only [apply, hp, hk, selectorOf, hbase, hsizes, Rejection.excising]
    | ok all =>
      have hnone : ¬∃ cause, sizes table exponent table.responsive = .error cause := by
        rintro ⟨cause, h⟩
        rw [hsizes] at h
        cases h
      rcases List.mem_cons.mp hname with rfl | hm
      · rw [hbase] at hr
        cases hr
      · obtain ⟨b, hb, rfl⟩ := List.mem_map.mp hm
        exact absurd (sizes_error_iff.mpr ⟨b, hb, cause, hr⟩) hnone

theorem expanded_of_putBehind {new : Forest (NodeId × Node)} (hd : d.Rooted)
    (hv : d.fontSize? id = some value) (hp : d.parent? rule = some parent)
    (h : PutBehind rule (blocks selector (bs.map fun b => (b, rem (some b.name)))) new d d₁)
    (he : d₁.setValue id (rem none) = .ok e) :
    Expanded bs rem selector id rule parent d e := by
  obtain ⟨hsame, hlive, hnew, hlnew, before, after, hbefore, hafter⟩ := h.sameBut hd hp
  have hl := isLive_of_fontSize? hv
  have hnode : d₁.node? id = d.node? id := hsame.node? id hl (hlive id hl) List.not_mem_nil
  have hv₁ : d₁.fontSize? id = some value := by rw [fontSize?, hnode]; exact hv
  obtain ⟨⟨property, old, important, line, hn₁, hne⟩, hlive', hsame'⟩ := revalued_setValue hv₁ he
  have hlp := isLive_of_mem_ancestors (mem_ancestors_of_parent hp)
  have hhas : e.Has new := hsame'.has hnew fun x hx => by
    refine ⟨hlnew x hx, (hlive' x).trans (hlnew x hx), fun hm => ?_, List.not_mem_nil⟩
    rw [List.mem_singleton.mp hm] at hx
    exact h.fresh.notMem hl hx
  refine ⟨⟨property, old, important, line, hnode ▸ hn₁, hne⟩,
    ⟨before, new.tops.map Prod.fst, after, hbefore, ?_, fun block hb => ?_, ?_⟩,
    fun x hx => (hlive' x).trans (hlive x hx),
    hsame.trans hsame' fun x _ hx => (hlive' x).symm.trans hx⟩
  · have hle : e.isLive parent = true := (hlive' parent).trans (hlive parent hlp)
    rw [hsame'.children parent (hlive parent hlp) hle List.not_mem_nil, hafter]
  · exact h.fresh.isLive block (List.map_subset _ (Forest.tops_subset new) hb)
  · have hshows := hhas.shows_map
    rw [h.shape, blocks, List.foldr_map] at hshows
    exact hshows.forall₂ fun b => ⟨_, _, rfl⟩

end Sizing.Step

namespace Sizing

/-- A step directly inside a rule with a parent, in any document that edits build. If it has a size
at each breakpoint, it is expanded behind its rule, all at once or one edit after the other, with
the blocks in ascending order of width. Otherwise nothing changes, and the rule is to be removed. -/
theorem step_expands {settings : Settings} (ht : Breakpoints.ofSettings settings = .ok table)
    (hd : d.Built) (hv : d.fontSize? id = some value) (hn : Step.argument? value = some exponent)
    (hx : Decimal.isNumber exponent = true) (hp : d.parent? id = some rule)
    (hk : d.kind rule = .ok (.rule selector)) (hpp : d.parent? rule = some parent) :
    table.items = table.base :: table.responsive ∧ table.items.Pairwise (·.width ≤ ·.width) ∧
    (∀ rem : Option String → String,
      (∀ name ∈ none :: table.responsive.map (some ·.name),
        table.rem exponent name = .ok (rem name)) →
      (∃ e log, step.run table d id = ⟨.applied, e, log⟩ ∧
        Step.Expanded table.responsive rem selector id rule parent d e) ∧
      ∃ e, Step.expandInTurn selector (rem none)
          (table.responsive.map fun b => (b, rem (some b.name))) id rule d = .ok e ∧
        Step.Expanded table.responsive rem selector id rule parent d e) ∧
    ∀ name ∈ none :: table.responsive.map (some ·.name), ∀ cause,
      table.rem exponent name = .error cause →
      ∃ name ∈ none :: table.responsive.map (some ·.name), ∃ cause,
        table.rem exponent name = .error cause ∧
          step.run table d id = .rejected d ⟨some rule, .conversion cause⟩ := by
  have hrun : step.run table d id = Step.apply table d id exponent := by
    simp only [run, Step.find, hv, Option.bind_some, hn, hx, if_true, Match.run]
  obtain ⟨-, ha⟩ := Breakpoints.arranges_of_ofSettings ht
  have hrooted := hd.rooted
  refine ⟨ha.items, ha.ascending, fun rem hrem => ?_, fun name hname cause hcause => ?_⟩
  · have hbase := hrem none List.mem_cons_self
    have hsizes : Step.sizes table exponent table.responsive =
        .ok (table.responsive.map fun b => (b, rem (some b.name))) := Step.sizes_eq_ok fun b hb =>
      hrem (some b.name) (List.mem_cons_of_mem _ (List.mem_map_of_mem hb))
    have hl := isLive_of_fontSize? hv
    have hvalue : ∀ {new d₁}, PutBehind rule (Step.blocks selector
        (table.responsive.map fun b => (b, rem (some b.name)))) new d d₁ →
        ∃ e, d₁.setValue id (rem none) = .ok e ∧
          Step.Expanded table.responsive rem selector id rule parent d e := fun h => by
      obtain ⟨e, he⟩ := exists_setValue ((h.sameBut hrooted hpp).2.1 id hl) (rem none)
      exact ⟨e, he, Step.expanded_of_putBehind hrooted hv hpp h he⟩
    constructor
    · obtain ⟨d₁, h₁⟩ := exists_insertNewAfter hpp (Step.blocks selector
        (table.responsive.map fun b => (b, rem (some b.name))))
      obtain ⟨new, h⟩ := PutBehind.of_insertNewAfter hrooted h₁
      obtain ⟨e, he, hexpanded⟩ := hvalue h
      have happly : Step.apply table d id exponent = ⟨.applied, e, Step.events exponent selector
          (table.responsive.map fun b => (b, rem (some b.name))) ++
            [.expanded exponent (rem none) selector]⟩ := by
        simp only [Step.apply, hp, hk, Step.selectorOf, hbase, hsizes, h₁, he, Result.ofEdit]
      exact ⟨e, _, hrun.trans happly, hexpanded⟩
    · obtain ⟨d₁, new, h₁, h⟩ := exists_putBlocks hrooted hpp selector
        (fun size : Breakpoint × String => size.1.value)
        (fun size => .single (Template.fontSize size.2) .nil)
        (table.responsive.map fun b => (b, rem (some b.name)))
      obtain ⟨e, he, hexpanded⟩ := hvalue h
      refine ⟨e, ?_, hexpanded⟩
      rw [Step.expandInTurn, h₁]
      exact he
  · rw [hrun]
    exact Step.apply_of_error hp hk hname hcause

/-- An important step between other nodes, in a rule that has another one behind it. -/
theorem step_expands_amid :
    let d := ofForest (.single (.made (.atRule "supports" "(x: y)" " " true))
      (.cons (.made (.rule ".x")) (.cons (.made (.declaration "color" "red" false)) .nil
        (.cons ⟨.declaration "font-size" "t-ms(0)" true, some 3⟩ .nil
          (.single (.made (.comment "z")) .nil))) (.single (.made (.rule ".y")) .nil)))
    let rem (name : Option String) :=
      if name = none then "1rem" else if name = some "tablet" then "1.125rem" else "1.25rem"
    Breakpoints.ofSettings {} = .ok .standard ∧ d.fontSize? 4 = some "t-ms(0)" ∧
      d.parent? 4 = some 2 ∧ d.kind 2 = .ok (.rule ".x") ∧ d.parent? 2 = some 1 ∧
      ∃ e log, step.run .standard d 4 = ⟨.applied, e, log⟩ ∧
        Step.Expanded Breakpoints.standard.responsive rem ".x" 4 2 1 d e := by
  intro d rem
  have hv : d.fontSize? 4 = some "t-ms(0)" := by decide +kernel
  have hn : Step.argument? "t-ms(0)" = some "0" := by decide +kernel
  have hp : d.parent? 4 = some 2 := by decide +kernel
  have hk : d.kind 2 = .ok (.rule ".x") := by decide +kernel
  have hpp : d.parent? 2 = some 1 := by decide +kernel
  obtain ⟨-, -, hexpands, -⟩ := step_expands Breakpoints.ofSettings_default (.ofForest _) hv hn
    (by decide +kernel) hp hk hpp
  have hnames : Breakpoints.standard.responsive.map (fun b => some b.name) =
      [some "tablet", some "desktop"] := by decide +kernel
  have hrem : ∀ name ∈ none :: Breakpoints.standard.responsive.map (fun b => some b.name),
      Breakpoints.standard.rem "0" name = .ok (rem name) := by
    rw [hnames]
    decide +kernel
  exact ⟨Breakpoints.ofSettings_default, hv, hp, hk, hpp, (hexpands rem hrem).1⟩

end Sizing

end ModularScale
