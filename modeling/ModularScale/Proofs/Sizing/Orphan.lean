import Mathlib
import ModularScale.Proofs.Css.Balanced
import ModularScale.Proofs.Document.OfSheet
import ModularScale.Proofs.Scale.Table
import ModularScale.Proofs.Sizing.Visit

/-! # Blocks without their rule

The blocks that a pass makes for a rule stand behind it, not in it. A later declaration of the rule
that calls a failing step removes the rule alone, and this is the only way in which a block is left
without its rule.
-/

namespace ModularScale

open Document Sizing Pass

variable {table : Breakpoints} {p : Pass} {d e : Document} {id x rule block : NodeId}
  {visited later : List NodeId} {lost : Option NodeId}

/-- The declarations of a document that a pass has yet to visit. -/
structure Pending (later : List NodeId) (d : Document) : Prop where
  whole : d.Whole
  nodup : later.Nodup
  lt_next : ∀ id ∈ later, id < d.next
  declared : ∀ id ∈ later, d.isLive id = true →
    ∃ n, d.node? id = some n ∧ n.kind.isDeclaration = true
  leaf : ∀ id ∈ later, ∀ x ∈ later, d.parent? x ≠ some id

namespace Pending

theorem ofSheet (sheet : Css.Sheet) (hs : sheet.items.InBlocks) :
    Pending (Document.ofSheet sheet).declarations (Document.ofSheet sheet) where
  whole := ofForest_whole _
  nodup := nodup_declarations (ofForest_whole _)
  lt_next id h := by
    obtain ⟨n, hn, -⟩ := declaration_of_mem_declarations (ofForest_whole _) h
    exact (ofForest_whole _).lt_of_isLive (isLive_iff_node.mpr ⟨n, hn⟩)
  declared id h _ := declaration_of_mem_declarations (ofForest_whole _) h
  leaf id h x _ hp := by
    obtain ⟨n, hn, hd⟩ := declaration_of_mem_declarations (ofForest_whole _) h
    obtain ⟨m, hm, hb⟩ := hasBlock_of_parent hs hp
    obtain rfl : n = m := Option.some.inj (hn.symm.trans hm)
    cases hk : n.kind <;> simp [hk, Kind.isDeclaration, Kind.hasBlock] at hd hb

/-- A declaration is neither a rule nor an at-rule. -/
theorem notMem (h : Pending later d) {n : Node} (hn : d.node? x = some n)
    (hk : n.kind.isDeclaration = false) : x ∉ later := by
  intro hm
  obtain ⟨m, hm, hd⟩ := h.declared x hm (isLive_iff_node.mpr ⟨n, hn⟩)
  obtain rfl : n = m := Option.some.inj (hn.symm.trans hm)
  simp [hk] at hd

theorem visit (h : Pending (id :: later) d) (t : Edited [id] lost d e) : Pending later e := by
  have hsub : ∀ x ∈ later, x ∈ id :: later := fun x hx => List.mem_cons_of_mem _ hx
  have hn := List.nodup_cons.mp h.nodup
  refine ⟨t.whole, hn.2, fun x hx => ?_, fun x hx hl => ?_, fun x hx y hy hp => ?_⟩
  · exact Nat.lt_of_lt_of_le (h.lt_next x (hsub x hx)) t.next_le
  · have hx' := h.lt_next x (hsub x hx)
    have hc : x ∉ [id] := fun hm => hn.1 (List.mem_singleton.mp hm ▸ hx)
    rw [t.node x hx' hc hl]
    exact h.declared x (hsub x hx) (t.isLive_of_isLive hx' hl)
  · refine h.leaf x (hsub x hx) y (hsub y hy) ?_
    rw [parent?, ← t.ancestors y (h.lt_next y (hsub y hy)) (isLive_of_parent hp)]
    exact hp

/-- A visit leaves the other declarations of a rule where they are, unless it removes the rule. -/
theorem parent_iff (h : Pending (id :: later) d) (v : Visited table id d e)
    (hl : d.isLive rule = true) (hr : e.isLive rule = true) (hx : x ∈ later) :
    e.parent? x = some rule ↔ d.parent? x = some rule := by
  obtain ⟨lost, t, hd⟩ := v.edited
  have hx' := List.mem_cons_of_mem id hx
  constructor
  · intro hp
    rw [parent?, ← t.ancestors x (h.lt_next x hx') (isLive_of_parent hp)]
    exact hp
  · intro hp
    have hlx := isLive_of_parent hp
    have hex : e.isLive x = true := by
      refine (t.isLive x hlx).mpr fun y hy => ⟨?_, ?_⟩
      · rintro rfl
        rcases hd y hy with rfl | ⟨name, params, afterName, hasBlock, hk⟩ | ⟨hi, -⟩
        · exact (List.nodup_cons.mp h.nodup).1 hx
        · obtain ⟨n, hn, hn'⟩ := h.declared y hx' hlx
          rw [kind_of_node? hn, Except.ok.injEq] at hk
          simp [hk, Kind.isDeclaration] at hn'
        · exact h.leaf y hx' id List.mem_cons_self hi
      · rw [h.whole.ancestors_of_parent hp, List.mem_cons, not_or]
        exact (t.isLive rule hl).mp hr y hy
    rw [parent?, t.ancestors x (h.lt_next x hx') hex]
    exact hp

theorem fontSize_eq (h : Pending (id :: later) d) (v : Visited table id d e)
    (hl : e.isLive x = true) (hx : x ∈ later) : e.fontSize? x = d.fontSize? x := by
  obtain ⟨lost, t, -⟩ := v.edited
  have hc : x ∉ [id] := fun hm =>
    (List.nodup_cons.mp h.nodup).1 (List.mem_singleton.mp hm ▸ hx)
  rw [fontSize?, t.node x (h.lt_next x (List.mem_cons_of_mem _ hx)) hc hl]
  rfl

end Pending

/-- The declaration stands in the rule and calls a step that fails. -/
def FailsIn (table : Breakpoints) (d : Document) (rule id : NodeId) : Prop :=
  d.parent? id = some rule ∧ ∃ value, d.fontSize? id = some value ∧ Step.Fails table value

theorem Pending.failsIn_iff (h : Pending (id :: later) d) (v : Visited table id d e)
    (hl : d.isLive rule = true) (hr : e.isLive rule = true) (hx : x ∈ later) :
    FailsIn table e rule x ↔ FailsIn table d rule x := by
  rw [FailsIn, FailsIn, h.parent_iff v hl hr hx]
  refine and_congr_right fun hp => ?_
  rw [h.fontSize_eq v (isLive_of_parent ((h.parent_iff v hl hr hx).mpr hp)) hx]

/-- What visits leave as it was. -/
theorem Pass.foldl_visit_keeps (table : Breakpoints) (hd : p.document.Whole)
    (visited : List NodeId) :
    Keeps visited p.document (visited.foldl (visit table) p).document ∧
      (visited.foldl (visit table) p).document.Whole := by
  induction visited generalizing p with
  | nil => exact ⟨.refl _, hd⟩
  | cons id visited ih =>
    obtain ⟨lost, t, -⟩ := (visit_visited table id hd).edited
    obtain ⟨k, hw⟩ := ih t.whole
    exact ⟨t.toKeeps.trans k, hw⟩

/-- While a rule stays, visits of other declarations leave its own ones as they are. -/
theorem Pending.foldl_visit (h : Pending (visited ++ later) p.document)
    (hl : p.document.isLive rule = true)
    (hr : (visited.foldl (Pass.visit table) p).document.isLive rule = true) :
    Pending later (visited.foldl (Pass.visit table) p).document ∧ ∀ x ∈ later,
      (FailsIn table (visited.foldl (Pass.visit table) p).document rule x ↔
        FailsIn table p.document rule x) := by
  induction visited generalizing p with
  | nil => exact ⟨h, fun _ _ => Iff.rfl⟩
  | cons id visited ih =>
    have v := visit_visited table id h.whole
    obtain ⟨lost, t, -⟩ := v.edited
    have hl' := (foldl_visit_keeps table t.whole visited).1.isLive_of_isLive
      (Nat.lt_of_lt_of_le (h.whole.lt_of_isLive hl) t.next_le) hr
    obtain ⟨hp, hf⟩ := ih (h.visit t) hl' hr
    refine ⟨hp, fun x hx => (hf x hx).trans ?_⟩
    exact h.failsIn_iff v hl hl' (List.mem_append_right _ hx)

/-- Two nodes of the style sheet stand side by side, the first of them earlier. -/
def Document.Precedes (d : Document) (a b : NodeId) : Prop :=
  ∃ parent, d.parent? a = some parent ∧ d.parent? b = some parent ∧ [a, b].Sublist d.nodes

/-- A rule with a block of its own behind it, while declarations are still to be visited. -/
structure Pair (rule block : NodeId) (later : List NodeId) (d : Document) : Prop
    extends Pending later d where
  precedes : d.Precedes rule block
  kind : ∃ n selector, d.node? rule = some n ∧ n.kind = .rule selector

namespace Pair

theorem isLive (h : Pair rule block later d) : d.isLive rule = true := by
  obtain ⟨_, hr, -⟩ := h.precedes
  exact isLive_of_parent hr

theorem ancestors_eq (h : Pair rule block later d) : d.ancestors rule = d.ancestors block := by
  obtain ⟨parent, hr, hb, -⟩ := h.precedes
  rw [h.whole.ancestors_of_parent hr, h.whole.ancestors_of_parent hb]

theorem ne_root (h : Pair rule block later d) : rule ≠ Document.root := by
  obtain ⟨_, hr, -⟩ := h.precedes
  exact ne_root_of_parent h.whole hr

theorem rule_notMem (h : Pair rule block later d) : rule ∉ later := by
  obtain ⟨n, selector, hn, hk⟩ := h.kind
  exact h.toPending.notMem hn (by simp [hk, Kind.isDeclaration])

/-- A visit that removes the rule but not its block is one of a declaration whose step fails. -/
theorem failsIn_of_lost (h : Pair rule block (id :: later) d) (v : Visited table id d e)
    (hb : e.isLive block = true) (hr : e.isLive rule = false) : FailsIn table d rule id := by
  obtain ⟨lost, t, hd⟩ := v.edited
  obtain ⟨_, -, hp, -⟩ := h.precedes
  have hlost : lost = some rule := by
    by_contra hne
    refine Bool.eq_false_iff.mp hr ((t.isLive rule h.isLive).mpr fun x hx => ⟨?_, ?_⟩)
    · rintro rfl
      exact hne hx
    · rw [h.ancestors_eq]
      exact ((t.isLive block (isLive_of_parent hp)).mp hb x hx).2
  obtain ⟨n, selector, hn, hk⟩ := h.kind
  rcases hd rule hlost with rfl | ⟨name, params, afterName, hasBlock, hk'⟩ | hf
  · exact absurd List.mem_cons_self h.rule_notMem
  · rw [kind_of_node? hn, hk] at hk'
    cases hk'
  · exact hf

/-- After a visit that the rule and the block survive they are as before it. -/
theorem visit (h : Pair rule block (id :: later) d) (v : Visited table id d e)
    (hr : e.isLive rule = true) (hb : e.isLive block = true) : Pair rule block later e := by
  obtain ⟨lost, t, -⟩ := v.edited
  have hlt := h.whole.lt_of_isLive h.isLive
  obtain ⟨parent, hpr, hpb, ho⟩ := h.precedes
  have hltb := h.whole.lt_of_isLive (isLive_of_parent hpb)
  refine ⟨h.toPending.visit t, ⟨parent, ?_, ?_, t.pair h.whole hr hb ho⟩, ?_⟩
  · rw [parent?, t.ancestors rule hlt hr]
    exact hpr
  · rw [parent?, t.ancestors block hltb hb]
    exact hpb
  · have hc : rule ∉ [id] := fun hm =>
      h.rule_notMem (List.mem_singleton.mp hm ▸ List.mem_cons_self)
    rw [t.node rule hlt hc hr]
    exact h.kind

/-- A declaration of the rule whose step fails takes the rule with it. -/
theorem not_isLive_of_failsIn (h : Pair rule block (id :: later) p.document)
    (hf : FailsIn table p.document rule id) :
    (p.visit table id).document.isLive rule = false := by
  obtain ⟨hp, value, hv, hf⟩ := hf
  obtain ⟨n, selector, hn, hk⟩ := h.kind
  exact not_isLive_of_fails h.whole hp (by rw [kind_of_node? hn, hk]) hv hf h.ne_root

/-- Through a run of visits that the block survives, the rule is lost just if one of them fails. -/
theorem foldl_visit (h : Pair rule block later p.document)
    (hb : (later.foldl (Pass.visit table) p).document.isLive block = true) :
    (later.foldl (Pass.visit table) p).document.Precedes rule block ↔
      ∀ id ∈ later, ¬FailsIn table p.document rule id := by
  induction later generalizing p with
  | nil => simpa using h.precedes
  | cons id later ih =>
    have v := visit_visited table id h.whole
    obtain ⟨lost, t, -⟩ := v.edited
    obtain ⟨_, -, hpb, -⟩ := h.precedes
    have keeps := (foldl_visit_keeps table t.whole later).1
    have hlt := Nat.lt_of_lt_of_le (h.whole.lt_of_isLive h.isLive) t.next_le
    have hltb := Nat.lt_of_lt_of_le (h.whole.lt_of_isLive (isLive_of_parent hpb)) t.next_le
    have hb' := keeps.isLive_of_isLive hltb hb
    rw [List.foldl_cons, List.forall_mem_cons]
    cases hr : (p.visit table id).document.isLive rule with
    | false =>
      refine iff_of_false ?_ fun hn => hn.1 (h.failsIn_of_lost v hb' hr)
      rintro ⟨_, hp, -⟩
      rw [keeps.isLive_of_isLive hlt (isLive_of_parent hp)] at hr
      cases hr
    | true =>
      have hid : ¬FailsIn table p.document rule id := fun hf => by
        rw [h.not_isLive_of_failsIn hf] at hr
        cases hr
      rw [ih (h.visit v hr hb') hb, and_iff_right hid]
      exact forall₂_congr fun x hx => not_congr (h.toPending.failsIn_iff v h.isLive hr hx)

end Pair

/-- The visit of a declaration of a rule puts a block beside the rule. The declarations that are
then still to be visited are `later`. -/
def Pass.Generates (table : Breakpoints) (d : Document) (rule block : NodeId)
    (later : List NodeId) : Prop :=
  ∃ earlier id, d.declarations = earlier ++ id :: later ∧
    let before := earlier.foldl (visit table) (start d)
    let after := before.visit table id
    before.document.parent? id = some rule ∧ before.document.isLive block = false ∧
      after.document.isLive block = true ∧
      after.document.parent? block = after.document.parent? rule

/-- Right after its block is generated a rule stands before it. -/
theorem Pair.of_visit (h : Pending (id :: later) p.document)
    (hp : p.document.parent? id = some rule) (hn : p.document.isLive block = false)
    (hb : (p.visit table id).document.isLive block = true)
    (hs : (p.visit table id).document.parent? block = (p.visit table id).document.parent? rule) :
    Pair rule block later (p.visit table id).document := by
  have v := visit_visited table id h.whole
  obtain ⟨lost, t, -⟩ := v.edited
  obtain ⟨r, ⟨hp', selector, hk⟩, ho⟩ := v.added block hb hn
  obtain rfl : rule = r := Option.some.inj (hp.symm.trans hp')
  have hl : (p.visit table id).document.isLive rule = true := by
    rw [isLive_iff, ← t.whole.nodes_eq]
    exact ho.subset List.mem_cons_self
  have hroot : block ≠ Document.root := by
    rintro rfl
    obtain ⟨node, below, ht⟩ := h.whole.rooted
    rw [Bool.eq_false_iff, Ne, isLive_iff, ht] at hn
    exact hn (by simp [Forest.single])
  obtain ⟨parent, hpb⟩ := Option.isSome_iff_exists.mp (t.whole.parent_isSome hb hroot)
  refine ⟨h.visit t, ⟨parent, hs ▸ hpb, hpb, ho⟩, ?_⟩
  have hr := mem_ancestors_of_parent hp
  have hc : rule ∉ [id] := fun hm =>
    (h.whole.not_above hr).1 (List.mem_singleton.mp hm).symm
  rw [t.node rule (h.whole.lt_of_isLive (isLive_of_mem_ancestors hr)) hc hl]
  obtain ⟨n, hn, hk⟩ := node?_of_kind hk
  exact ⟨n, selector, hn, hk⟩

/-- A block that a pass has generated for a rule and that is in the style sheet in the end has its
rule before it, just if no declaration of the rule that the pass visits later calls a failing
step. -/
theorem Pass.precedes_iff_of_generates (text : String)
    (hg : Generates table (Document.ofSheet (Css.Sheet.ofText text)) rule block later)
    (hb : (run table (Document.ofSheet (Css.Sheet.ofText text))).document.isAttached block = true) :
    (run table (Document.ofSheet (Css.Sheet.ofText text))).document.Precedes rule block ↔
      ∀ id ∈ later, ¬FailsIn table (Document.ofSheet (Css.Sheet.ofText text)) rule id := by
  have hd := Pending.ofSheet _ (Css.Sheet.ofText_inBlocks text)
  generalize Document.ofSheet (Css.Sheet.ofText text) = d at hg hb hd ⊢
  obtain ⟨earlier, id, hl, hp, hn, hl', hs⟩ := hg
  have hrun : run table d =
      (id :: later).foldl (visit table) (earlier.foldl (visit table) (start d)) := by
    rw [run, hl, List.foldl_append]
  rw [hl] at hd
  have keeps : Keeps earlier d (earlier.foldl (visit table) (start d)).document :=
    (foldl_visit_keeps (p := start d) table hd.whole earlier).1
  -- the rule is one of the nodes read, as it is above a declaration that was
  have hpd : d.parent? id = some rule := by
    rw [parent?, ← keeps.ancestors id (hd.lt_next id (by simp)) (isLive_of_parent hp)]
    exact hp
  have hld := isLive_of_mem_ancestors (mem_ancestors_of_parent hpd)
  have hlp := isLive_of_mem_ancestors (mem_ancestors_of_parent hp)
  obtain ⟨before, hbefore⟩ := Pending.foldl_visit (p := start d) hd hld hlp
  have pair := Pair.of_visit before hp hn hl' hs
  have hafter := fun x hx =>
    before.failsIn_iff (x := x) (visit_visited table id before.whole) hlp pair.isLive hx
  rw [hrun, List.foldl_cons] at hb ⊢
  rw [(foldl_visit_keeps table pair.whole later).2.isAttached_eq] at hb
  rw [pair.foldl_visit hb]
  exact forall₂_congr fun x hx =>
    not_congr ((hafter x hx).trans (hbefore x (List.mem_cons_of_mem _ hx)))

theorem sheet_of_kept : Css.Sheet.ofText ".x { font-size: t-ms(0); color: red }" =
    ⟨.single ⟨.rule ".x", some 1⟩
      (.cons ⟨.declaration "font-size" "t-ms(0)" false, some 1⟩ .nil
        (.single ⟨.declaration "color" "red" false, some 1⟩ .nil)), 0⟩ := by
  rw [Css.Sheet.ofText, Css.Components.ofText, Css.Components.ofLexemes_eq]
  cbv

theorem Pass.precedes_iff_of_generates_kept :
    let d := Document.ofSheet (Css.Sheet.ofText ".x { font-size: t-ms(0); color: red }")
    Generates .standard d 1 4 [3] ∧ (run .standard d).document.isAttached 4 = true ∧
      ((run .standard d).document.Precedes 1 4 ↔ ∀ id ∈ [3], ¬FailsIn .standard d 1 id) := by
  have hg : Generates .standard
      (Document.ofSheet (Css.Sheet.ofText ".x { font-size: t-ms(0); color: red }")) 1 4 [3] := by
    rw [sheet_of_kept]
    exact ⟨[], 2, by decide +kernel⟩
  have hb : (run .standard (Document.ofSheet
      (Css.Sheet.ofText ".x { font-size: t-ms(0); color: red }"))).document.isAttached 4 = true := by
    rw [sheet_of_kept]
    decide +kernel
  exact ⟨hg, hb, Pass.precedes_iff_of_generates _ hg hb⟩

theorem sheet_of_orphan : Css.Sheet.ofText ".x { font-size: t-ms(0); font-size: t-ms(a); }" =
    ⟨.single ⟨.rule ".x", some 1⟩
      (.cons ⟨.declaration "font-size" "t-ms(0)" false, some 1⟩ .nil
        (.single ⟨.declaration "font-size" "t-ms(a)" false, some 1⟩ .nil)), 0⟩ := by
  rw [Css.Sheet.ofText, Css.Components.ofText, Css.Components.ofLexemes_eq]
  cbv

/-- With the default settings a block can be left without its rule. -/
theorem Pass.exists_orphan : ∃ table rule block later,
    let d := Document.ofSheet (Css.Sheet.ofText ".x { font-size: t-ms(0); font-size: t-ms(a); }")
    Breakpoints.ofSettings {} = .ok table ∧ Generates table d rule block later ∧
      (run table d).document.isAttached block = true ∧
      ¬(run table d).document.Precedes rule block := by
  refine ⟨.standard, 1, 4, [3], Breakpoints.ofSettings_default, ?_⟩
  rw [sheet_of_orphan]
  refine ⟨⟨[], 2, by decide +kernel⟩, by decide +kernel, ?_⟩
  rintro ⟨parent, hp, -⟩
  have hn : (run .standard (Document.ofSheet ⟨.single ⟨.rule ".x", some 1⟩
      (.cons ⟨.declaration "font-size" "t-ms(0)" false, some 1⟩ .nil
        (.single ⟨.declaration "font-size" "t-ms(a)" false, some 1⟩ .nil)), 0⟩)).document.parent? 1 =
      none := by decide +kernel
  rw [hn] at hp
  cases hp

end ModularScale
