import ModularScale.Proofs.Document.InTurn
import ModularScale.Proofs.Scale.Acceptance
import ModularScale.Proofs.Scale.Table
import ModularScale.Proofs.Sizing.Turns

/-! # Effect of root sizes

A plain size directly inside a rule of the root element gives way to the widths of all breakpoints
and the size at the base one, and the rule is followed by one block for each other breakpoint. A
plain size that is nested below such a rule is removed. Nothing else changes.
-/

namespace ModularScale

open Document

variable {table : Breakpoints} {d d₁ d₂ e : Document} {id rule parent : NodeId} {value : String}

namespace Sizing.Root

/-- What becomes of a document in which a root size is expanded. -/
structure Expanded (table : Breakpoints) (id rule parent : NodeId) (d e : Document) : Prop where
  /-- The widths and the size at the base breakpoint have the place of the declaration. -/
  properties : ∃ before made size after, d.children rule = before ++ id :: after ∧
    e.children rule = before ++ (made ++ size :: after) ∧
    (∀ x ∈ size :: made, d.isLive x = false) ∧
    List.Forall₂ (fun b property => e.Shows [property]
      (.single ⟨.declaration ("--" ++ String.ofList (Text.kebabCase b.name.toList)) b.value false,
        none⟩ .nil)) table.responsive made ∧
    e.Shows [size] (.single
      ⟨.declaration "font-size" (table.scale.percentage table.base.root) false, none⟩ .nil)
  /-- Each breakpoint has its block, in their order. -/
  blocks : ∃ before made after, d.children parent = before ++ rule :: after ∧
    e.children parent = before ++ rule :: (made ++ after) ∧
    (∀ block ∈ made, d.isLive block = false) ∧
    List.Forall₂ (fun b block => e.Shows [block]
      (.single ⟨.atRule "media" ("(min-width: " ++ b.value ++ ")") " " true, none⟩
        (.single ⟨.rule ":root", none⟩
          (.cons ⟨.declaration ("--" ++ String.ofList (Text.kebabCase b.name.toList)) b.value false,
              none⟩ .nil
            (.single ⟨.declaration "font-size" (table.scale.percentage b.root) false, none⟩
              .nil))))) table.responsive made
  isLive : ∀ x, d.isLive x = true → (e.isLive x = true ↔ x ≠ id)
  same : SameBut [] [rule, parent] d e

/-- What becomes of a document in which a nested root size is dropped. -/
structure Dropped (id parent : NodeId) (d e : Document) : Prop where
  children : ∃ before after, d.children parent = before ++ id :: after ∧
    e.children parent = before ++ after
  isLive : ∀ x, e.isLive x = true ↔ d.isLive x = true ∧ x ≠ id ∧ id ∉ d.ancestors x
  same : SameBut [] [parent] d e

/-- Expands a root size one edit at a time. -/
def expandInTurn (table : Breakpoints) (id rule : NodeId) (d : Document) :
    Except TreeError Document := do
  let d ← d.putBlocks rule Template.rootSelector (fun b => b.value)
    (fun b => .cons (Template.variableOf b) .nil
      (.single (Template.fontSize (table.scale.percentage b.root)) .nil)) table.responsive
  let d ← d.putNodes id (table.responsive.map Template.variableOf)
  let base := Template.fontSize (table.scale.percentage table.base.root)
  (d.create base).2.replace id d.next

theorem expanded_of_puts {blocks properties : Forest (NodeId × Node)} (hd : d.Rooted)
    (hc : d.children id = []) (hp : d.parent? id = some rule) (hpp : d.parent? rule = some parent)
    (h₁ : PutBehind rule (Root.blocks table.scale table.responsive) blocks d d₁)
    (h₂ : PutBefore id (widthProperties table.responsive ++
      .single (Template.fontSize (table.scale.percentage table.base.root)) .nil) properties d₁ d₂)
    (he : e.trees = d₂.without id) : Expanded table id rule parent d e := by
  have hl := isLive_of_parent hp
  have hlr := isLive_of_parent hpp
  have hlp := isLive_of_mem_ancestors (mem_ancestors_of_parent hpp)
  obtain ⟨hir, hip, hrp⟩ : id ≠ rule ∧ id ≠ parent ∧ rule ≠ parent := by
    have hid := hd.isForest.notMem_ancestors id
    have hr := hd.isForest.notMem_ancestors rule
    rw [ancestors_of_parent hd.nodup hpp] at hr
    rw [ancestors_of_parent hd.nodup hp, ancestors_of_parent hd.nodup hpp] at hid
    simp only [List.mem_cons, not_or] at hid hr
    exact ⟨hid.1, hid.2.1, hr.1⟩
  obtain ⟨hsame₁, hlive₁, hblocks, hlblocks, before, after, hbefore, hafter⟩ := h₁.sameBut hd hpp
  have hp₁ : d₁.parent? id = some rule := (hsame₁.parent? id hl (hlive₁ id hl)).trans hp
  have hc₁ : d₁.children id = [] :=
    (hsame₁.children id hl (hlive₁ id hl) (by simpa using hip)).trans hc
  obtain ⟨hsame₂, hlive₂, hproperties, left, right, hleft, hright⟩ :=
    h₂.replaced h₁.rooted hp₁ hc₁ he
  refine ⟨?_, ?_, fun x hx => hlive₂ x (hlive₁ x hx), ?_⟩
  · have hshows := hproperties.shows_map
    rw [h₂.shape] at hshows
    obtain ⟨made, sizes, htops, hmade, hsizes⟩ := hshows.append
    obtain ⟨size, rfl⟩ := hsizes.exists_of_single
    refine ⟨left, made, size, right, ?_, ?_, fun x hx => ?_, ?_, hsizes⟩
    · rw [← hleft, hsame₁.children rule hlr (hlive₁ rule hlr) (by simpa using hrp)]
    · rw [hright, htops, List.append_assoc, List.append_assoc, List.singleton_append]
    · have hm : x ∈ properties.tops.map Prod.fst := by
        rw [htops, List.mem_append, List.mem_singleton]
        exact (List.mem_cons.mp hx).symm
      rw [Bool.eq_false_iff]
      exact fun hx => h₂.fresh.notMem (hlive₁ x hx)
        (List.map_subset _ (Forest.tops_subset properties) hm)
    · exact Shows.forall₂ hmade fun b => ⟨_, _, rfl⟩
  · have hhas : e.Has blocks := hsame₂.has hblocks fun x hx => by
      refine ⟨hlblocks x hx, (hlive₂ x (hlblocks x hx)).mpr ?_, List.not_mem_nil, fun hm => ?_⟩
      · rintro rfl
        exact h₁.fresh.notMem hl hx
      · rw [List.mem_singleton.mp hm] at hx
        exact h₁.fresh.notMem hlr hx
    refine ⟨before, blocks.tops.map Prod.fst, after, hbefore, ?_, fun block hb => ?_, ?_⟩
    · have hle := (hlive₂ parent (hlive₁ parent hlp)).mpr hip.symm
      rw [hsame₂.children parent (hlive₁ parent hlp) hle (by simpa using hrp.symm), hafter]
    · exact h₁.fresh.isLive block (List.map_subset _ (Forest.tops_subset blocks) hb)
    · have hshows := hhas.shows_map
      rw [h₁.shape] at hshows
      exact hshows.forall₂ fun b => ⟨_, _, rfl⟩
  · exact (hsame₁.trans hsame₂ fun x hx _ => hlive₁ x hx).mono (by simp) (by simp)

theorem shape_widthProperties (bs : List Breakpoint) : widthProperties bs =
    (bs.map Template.variableOf).foldr (fun node rest => .single node .nil ++ rest) .nil := by
  rw [List.foldr_map]
  rfl

/-- With all its nodes in place a root size is expanded. -/
theorem exists_expanded (table : Breakpoints) (hd : d.Rooted) (hr : id ≠ Document.root)
    (hc : d.children id = []) (hp : d.parent? id = some rule) (hpp : d.parent? rule = some parent) :
    ∃ e, expand table d id rule =
        ⟨.applied, e, [.rootSized (table.scale.percentage table.base.root)]⟩ ∧
      Expanded table id rule parent d e := by
  obtain ⟨d₁, he₁⟩ := exists_insertNewAfter hpp (Root.blocks table.scale table.responsive)
  obtain ⟨blocks, h₁⟩ := PutBehind.of_insertNewAfter hd he₁
  have hl := isLive_of_parent hp
  have hs₁ := h₁.spliced hd (isLive_of_parent hpp)
  have hl₁ := hs₁.isLive_of_isLive hl
  have hp₁ := (hs₁.parent? hl).trans hp
  obtain ⟨d₂, he₂⟩ := exists_insertNewBefore hp₁ (widthProperties table.responsive)
  obtain ⟨properties, h₂⟩ := PutBefore.of_insertNewBefore h₁.rooted he₂
  have hs₂ := h₂.spliced h₁.rooted hl₁
  have hp₂ := (hs₂.parent? hl₁).trans hp₁
  obtain ⟨e, he⟩ := exists_replaceWithNew hp₂ hr
    (Template.fontSize (table.scale.percentage table.base.root))
  obtain ⟨-, d₃, he₃, hcut⟩ := replaceWithNew_ok he
  obtain ⟨size, h₃⟩ := PutBefore.of_insertNewBefore h₂.rooted he₃
  refine ⟨e, ?_, expanded_of_puts hd hc hp hpp h₁ (h₂.trans h₃ h₁.rooted hl₁) (by rw [hcut])⟩
  simp only [expand, he₁, he₂, he, Result.ofEdit]

/-- So it is one edit after the other. -/
theorem exists_expandInTurn (table : Breakpoints) (hd : d.Rooted) (hr : id ≠ Document.root)
    (hc : d.children id = []) (hp : d.parent? id = some rule) (hpp : d.parent? rule = some parent) :
    ∃ e, expandInTurn table id rule d = .ok e ∧ Expanded table id rule parent d e := by
  obtain ⟨d₁, blocks, he₁, h₁⟩ := exists_putBlocks hd hpp Template.rootSelector
    (fun b : Breakpoint => b.value) (fun b => .cons (Template.variableOf b) .nil
      (.single (Template.fontSize (table.scale.percentage b.root)) .nil)) table.responsive
  have hl := isLive_of_parent hp
  have hs₁ := h₁.spliced hd (isLive_of_parent hpp)
  have hl₁ := hs₁.isLive_of_isLive hl
  have hp₁ := (hs₁.parent? hl).trans hp
  obtain ⟨d₂, properties, he₂, h₂⟩ :=
    exists_putNodes h₁.rooted hp₁ (table.responsive.map Template.variableOf)
  rw [← shape_widthProperties] at h₂
  have hs₂ := h₂.spliced h₁.rooted hl₁
  have hp₂ := (hs₂.parent? hl₁).trans hp₁
  obtain ⟨d₃, size, he₃, h₃⟩ := exists_putNode h₂.rooted hp₂
    (Template.fontSize (table.scale.percentage table.base.root))
  let base := Template.fontSize (table.scale.percentage table.base.root)
  let e : Document := { d₃ with trees := d₃.without id }
  have hreplace : (d₂.create base).2.replace id d₂.next = .ok e := by
    rw [Document.replace, if_neg hr, he₃]
    rfl
  refine ⟨e, ?_, expanded_of_puts hd hc hp hpp h₁ (h₂.trans h₃ h₁.rooted hl₁) rfl⟩
  calc expandInTurn table id rule d
      = d₁.putNodes id (table.responsive.map Template.variableOf) >>= fun d =>
          (d.create base).2.replace id d.next := by rw [expandInTurn, he₁]; rfl
    _ = (d₂.create base).2.replace id d₂.next := by rw [he₂]; rfl
    _ = .ok e := hreplace

theorem dropped_of_remove (hd : d.Rooted) (hp : d.parent? id = some parent)
    (he : d.remove id = .ok e) : Dropped id parent d e := by
  obtain ⟨-, -, rfl⟩ := remove_ok he
  have hshed := shed_of_trees (e := { d with trees := d.without id }) hd.nodup rfl
  obtain ⟨before, after, hc⟩ := exists_children_split hd.nodup hp
  have hparent : id ≠ parent ∧ id ∉ d.ancestors parent := by
    have h := hd.isForest.notMem_ancestors id
    rwa [ancestors_of_parent hd.nodup hp, List.mem_cons, not_or] at h
  have hl := (hshed.isLive parent).mpr
    ⟨isLive_of_mem_ancestors (mem_ancestors_of_parent hp), hparent.1.symm, hparent.2⟩
  exact ⟨⟨before, after, hc, hshed.children_of_split hd.nodup hl hc⟩, hshed.isLive,
    hshed.sameBut hd.nodup hp⟩

end Sizing.Root

namespace Sizing

/-- A plain size below a rule of the root element, at any point of any passes. Directly inside the
rule it is expanded, all at once or one edit after the other, with the widths and the blocks in
ascending order of width. Nested more deeply it is removed. -/
theorem root_expands {settings : Settings} {text : String}
    (ht : Breakpoints.ofSettings settings = .ok table) (hd : d.InPasses text)
    (hv : d.fontSize? id = some value) (hms : Measure.exponent? value = none)
    (hstep : Step.argument? value = none)
    (hroot : (Root.enclosingRule? d id).any Root.isRuleOfRoot = true) :
    table.items = table.base :: table.responsive ∧ table.items.Pairwise (·.width ≤ ·.width) ∧
    ∃ rule kind, d.parent? id = some rule ∧ d.kind rule = .ok kind ∧
      (Root.isRuleOfRoot kind = true → ∃ parent, d.parent? rule = some parent ∧
        (∃ e log, root.run table d id = ⟨.applied, e, log⟩ ∧
          Root.Expanded table id rule parent d e) ∧
        ∃ e, Root.expandInTurn table id rule d = .ok e ∧
          Root.Expanded table id rule parent d e) ∧
      (Root.isRuleOfRoot kind = false →
        ∃ e log, root.run table d id = ⟨.applied, e, log⟩ ∧ Root.Dropped id rule d e) := by
  obtain ⟨-, ha⟩ := Breakpoints.arranges_of_ofSettings ht
  have hn := hd.nested
  have hrooted := hn.toWhole.toRooted
  have hl := isLive_of_fontSize? hv
  have hid := hn.ne_root_of_fontSize? hv
  obtain ⟨rule, kind, hp, hk, -, hne⟩ := hn.parent_of_fontSize? hv
  have hlr := isLive_of_mem_ancestors (mem_ancestors_of_parent hp)
  obtain ⟨parent, hpp⟩ := Option.isSome_iff_exists.mp (hn.parent_isSome hlr hne)
  have hrun : root.run table d id = Root.apply table d id := by
    have hplain : (d.fontSize? id).any Root.isPlain = true := by
      simp [hv, Root.isPlain, hms, hstep]
    simp only [run, Root.find, hplain, hroot, Bool.and_self, if_true, Match.run]
  refine ⟨ha.items, ha.ascending, rule, kind, hp, hk, fun hkr => ?_, fun hkr => ?_⟩
  · have hc : d.children id = [] := by
      obtain ⟨n, property, important, hnode, hkn, -⟩ := exists_of_fontSize? hv
      refine hn.wellFormed.leaf id n.kind ?_ (kind_of_node? hnode) (by rw [hkn]; rfl)
      rw [hn.isAttached_eq]
      exact hl
    refine ⟨parent, hpp, ?_, Root.exists_expandInTurn table hrooted hid hc hp hpp⟩
    obtain ⟨e, he, hexpanded⟩ := Root.exists_expanded table hrooted hid hc hp hpp
    have happly : Root.apply table d id = Root.expand table d id rule := by
      simp only [Root.apply, hp, hk, hkr, if_true]
    exact ⟨e, _, hrun.trans (happly.trans he), hexpanded⟩
  · have he := remove_eq_ok hid hl
    refine ⟨_, [.nestedRootDropped], hrun.trans ?_, Root.dropped_of_remove hrooted hp he⟩
    simp only [Root.apply, hp, hk, hkr, Bool.false_eq_true, if_false, he, Result.ofEdit]

theorem sheet_of_nested_size :
    Css.Sheet.ofText ":root { font-size: 16px; @media print { font-size: small } }" =
      ⟨.single ⟨.rule ":root", some 1⟩ (.cons ⟨.declaration "font-size" "16px" false, some 1⟩ .nil
        (.single ⟨.atRule "media" "print" " " true, some 1⟩
          (.single ⟨.declaration "font-size" "small" false, some 1⟩ .nil))), 0⟩ := by
  rw [Css.Sheet.ofText, Css.Components.ofText, Css.Components.ofLexemes_eq]
  cbv

/-- The first size stands in the rule of the root element, the other one in a block inside it. -/
theorem root_expands_print :
    let d := ofSheet (Css.Sheet.ofText ":root { font-size: 16px; @media print { font-size: small } }")
    Breakpoints.ofSettings {} = .ok .standard ∧ d.fontSize? 2 = some "16px" ∧
      d.fontSize? 4 = some "small" ∧
      (∃ e log, root.run .standard d 2 = ⟨.applied, e, log⟩ ∧
        Root.Expanded .standard 2 1 0 d e) ∧
      ∃ e log, root.run .standard d 4 = ⟨.applied, e, log⟩ ∧ Root.Dropped 4 3 d e := by
  intro d
  have hd : d.InPasses ":root { font-size: 16px; @media print { font-size: small } }" := .read
  have hsheet : d = ofSheet _ := congrArg ofSheet sheet_of_nested_size
  clear_value d
  have hv₂ : d.fontSize? 2 = some "16px" := by rw [hsheet]; decide +kernel
  have hv₄ : d.fontSize? 4 = some "small" := by rw [hsheet]; decide +kernel
  have hp₂ : d.parent? 2 = some 1 := by rw [hsheet]; decide +kernel
  have hpp : d.parent? 1 = some 0 := by rw [hsheet]; decide +kernel
  have hp₄ : d.parent? 4 = some 3 := by rw [hsheet]; decide +kernel
  have hk₁ : d.kind 1 = .ok (.rule ":root") := by rw [hsheet]; decide +kernel
  have hk₃ : d.kind 3 = .ok (.atRule "media" "print" " " true) := by rw [hsheet]; decide +kernel
  have hroot₂ : (Root.enclosingRule? d 2).any Root.isRuleOfRoot = true := by
    rw [hsheet]; decide +kernel
  have hroot₄ : (Root.enclosingRule? d 4).any Root.isRuleOfRoot = true := by
    rw [hsheet]; decide +kernel
  refine ⟨Breakpoints.ofSettings_default, hv₂, hv₄, ?_, ?_⟩
  · obtain ⟨-, -, rule, kind, hp, hk, hexpands, -⟩ := root_expands Breakpoints.ofSettings_default hd
      hv₂ (by decide +kernel) (by decide +kernel) hroot₂
    obtain rfl := Option.some.inj (hp₂.symm.trans hp)
    obtain rfl := Except.ok.inj (hk₁.symm.trans hk)
    obtain ⟨parent, hparent, hexpanded, -⟩ := hexpands (by decide +kernel)
    obtain rfl := Option.some.inj (hpp.symm.trans hparent)
    exact hexpanded
  · obtain ⟨-, -, parent, kind, hp, hk, -, hdrops⟩ := root_expands Breakpoints.ofSettings_default hd
      hv₄ (by decide +kernel) (by decide +kernel) hroot₄
    obtain rfl := Option.some.inj (hp₄.symm.trans hp)
    obtain rfl := Except.ok.inj (hk₃.symm.trans hk)
    exact hdrops rfl

end Sizing

end ModularScale
