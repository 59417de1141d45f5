import ModularScale.Proofs.Sizing.Accounting
import ModularScale.Proofs.Sizing.Expansion

/-! # Source order

A pass takes the declarations of a rule in source order, and each step puts its blocks right behind
the rule, before those of the steps that came earlier. So where a wider breakpoint is in force the
first step of the rule has the last word, and only elsewhere the last font size.
-/

namespace ModularScale

open Document Sizing

variable {table : Breakpoints} {p : Pass} {d : Document} {id rule x : NodeId}
  {ids later : List NodeId} {v : RuleView}

/-- The declarations that stand right in a rule, in source order. -/
def Document.declarationsOf (d : Document) (rule : NodeId) : List NodeId :=
  d.declarations.filter fun id => d.parent? id = some rule

namespace Pass

/-- The nodes made when the declarations of a rule are visited. -/
def madeFor (table : Breakpoints) (d : Document) (rule : NodeId) (p : Pass) (ids : List NodeId) :
    List NodeId :=
  (turns table p ids).flatMap fun turn =>
    if d.parent? turn.2 = some rule then
      List.range' turn.1.document.next
        ((turn.1.visit table turn.2).document.next - turn.1.document.next)
    else []

theorem mem_madeFor_cons : x ∈ madeFor table d rule p (id :: later) ↔
    (d.parent? id = some rule ∧ p.document.next ≤ x ∧
      x < (p.visit table id).document.next) ∨
    x ∈ madeFor table d rule (p.visit table id) later := by
  rw [madeFor, turns, List.flatMap_cons, List.mem_append]
  refine or_congr ?_ Iff.rfl
  by_cases hp : d.parent? id = some rule
  · rw [if_pos hp, List.mem_range'_1, and_iff_right hp]
    refine and_congr_right fun hle => ?_
    rw [← Nat.sub_lt_iff_lt_add' hle, Nat.sub_lt_sub_iff_right hle]
  · simp [hp]

theorem le_of_mem_madeFor (hp : p.document.Whole) (hx : x ∈ madeFor table d rule p ids) :
    p.document.next ≤ x := by
  induction ids generalizing p with
  | nil => cases hx
  | cons id ids ih =>
    obtain ⟨lost, t, -⟩ := (visit_visited table id hp).edited
    rcases mem_madeFor_cons.mp hx with ⟨-, hx, -⟩ | hx
    · exact hx
    · exact Nat.le_trans t.next_le (ih t.whole hx)

/-- A font size of a rule stays as it is while others are visited and the rule stays. -/
theorem fontSize?_visit (hd : p.document.Nested)
    (hp : p.document.isLive x = true → p.document.parent? x = some rule) (hne : x ≠ id)
    (hlt : x < p.document.next) (hr : (p.visit table id).document.isLive rule = true) :
    (p.visit table id).document.fontSize? x = p.document.fontSize? x := by
  obtain ⟨lost, t, hlost⟩ := (visit_turned hd table id).edited hd
  cases hl : (p.visit table id).document.isLive x with
  | true => rw [fontSize?, t.node x hlt (by simpa using hne) hl, fontSize?]
  | false =>
    rw [fontSize?_of_not_isLive hl]
    cases hv : p.document.fontSize? x with
    | none => rfl
    | some value =>
      have hlx := isLive_of_fontSize? hv
      have hrule := mem_ancestors_of_parent (hp hlx)
      refine absurd ((t.isLive x hlx).mpr fun y hy => ⟨?_, ?_⟩) (by simp [hl])
      · rintro rfl
        exact (hlost y hy).elim hne (hd.notMem_ancestors hv id)
      · rw [hd.ancestors_of_parent (hp hlx), List.mem_cons, not_or]
        exact (t.isLive rule (isLive_of_mem_ancestors hrule)).mp hr y hy

theorem fontSize?_foldl (hp : p.Orderly)
    (hparent : p.document.isLive x = true → p.document.parent? x = some rule) (hx : x ∉ later)
    (hlt : x < p.document.next) (hrule : rule < p.document.next)
    (hr : (later.foldl (visit table) p).document.isLive rule = true) :
    (later.foldl (visit table) p).document.fontSize? x = p.document.fontSize? x := by
  induction later generalizing p with
  | nil => rfl
  | cons id later ih =>
    rw [List.mem_cons, not_or] at hx
    obtain ⟨lost, t, -⟩ := (visit_visited table id hp.nested.toWhole).edited
    have hrule' := Nat.lt_of_lt_of_le hrule t.next_le
    have hr' := (foldl_visit_keeps table t.whole later).1.isLive_of_isLive hrule' hr
    have hparent' : (p.visit table id).document.isLive x = true →
        (p.visit table id).document.parent? x = some rule := by
      intro hl
      rw [parent?, t.ancestors x hlt hl]
      exact hparent (t.isLive_of_isLive hlt hl)
    have hlt' := Nat.lt_of_lt_of_le hlt t.next_le
    rw [List.foldl_cons, ih (hp.visit table id) hparent' hx.2 hlt' hrule' hr,
      fontSize?_visit hp.nested hparent hx.1 hlt hr']

end Pass

/-! ### Along a pass -/

/-- What is seen of a rule and of the nodes that were made for it, with a table. -/
structure RuleView.Suits (v : RuleView) (table : Breakpoints) (d : Document) (rule : NodeId) :
    Prop where
  nested : d.Nested
  wellFormed : table.WellFormed
  documentFontSize : v.documentFontSize = table.scale.documentFontSize
  kind : d.kind rule = .ok (.rule v.selector)
  notRoot : Root.selectsRoot v.selector = false
  le : ∀ x ∈ v.made, d.next ≤ x

/-- What a pass has come to while some declarations are yet to be visited. -/
structure RuleView.Proceeds (v : RuleView) (table : Breakpoints) (d : Document) (rule : NodeId)
    (p : Pass) (later : List NodeId) : Prop where
  orderly : p.Orderly
  altered : Altered d p.document
  turn : ∀ turn ∈ Pass.turns table p later, Pass.AtTurn d turn.1 turn.2
  nodup : later.Nodup
  lt_next : ∀ id ∈ later, id < d.next
  regular : ∀ id ∈ later, d.parent? id = some rule → Regular table d id
  own : ∀ id ∈ later, d.parent? id = some rule → p.document.fontSize? id = d.fontSize? id
  made : ∀ x, p.document.next ≤ x → (x ∈ v.made ↔ x ∈ Pass.madeFor table d rule p later)
  trails : p.document.Trails rule v.made

/-- What a declaration that is visited puts behind a rule. -/
def RuleView.adds (v : RuleView) (table : Breakpoints) (d : Document) (rule id : NodeId) :
    List Offer :=
  if d.parent? id = some rule then ((d.fontSize? id).map (v.stepOffers table)).getD [] else []

namespace RuleView

namespace Suits

variable (hv : v.Suits table d rule)
include hv

theorem isLive : d.isLive rule = true := by
  obtain ⟨n, hn, -⟩ := node?_of_kind hv.kind
  exact isLive_iff_node.mpr ⟨n, hn⟩

theorem rule_lt : rule < d.next :=
  hv.nested.lt_of_isLive hv.isLive

theorem notMem_made (h : x < d.next) : x ∉ v.made :=
  fun hm => Nat.not_lt_of_le (hv.le x hm) h

theorem kind_eq {e : Document} (h : Altered d e) (hr : e.isLive rule = true) :
    e.kind rule = .ok (.rule v.selector) := by
  obtain ⟨n, hn, hk⟩ := node?_of_kind hv.kind
  obtain ⟨m, hm⟩ := isLive_iff_node.mp hr
  obtain ⟨-, hkind⟩ := (h.node rule n m hn hm).isRule_eq
  rw [kind_of_node? hm, hkind (by rw [hk]; rfl), hk]

end Suits

theorem stepOffers_of_none {value : String} (h : Step.argument? value = none) :
    v.stepOffers table value = [] := by
  rw [stepOffers, h]
  rfl

theorem stepOffers_of_sizes {value exponent : String} {sizes : List (Breakpoint × String)}
    (h : Step.argument? value = some exponent)
    (hs : Step.sizes table exponent table.responsive = .ok sizes) :
    v.stepOffers table value =
      (sizes.filter (·.1.width ≤ v.width)).map fun size => ⟨size.2, false⟩ := by
  rw [stepOffers, h, Option.map_some, hs]

open Pass

namespace Proceeds

variable {a : NodeId}

theorem parent?_eq (h : v.Proceeds table d rule p later) (hx : x < d.next)
    (hp : d.parent? x = some rule) (hl : p.document.isLive x = true) :
    p.document.parent? x = some rule := by
  obtain ⟨_, k⟩ := h.altered.keeps
  rw [parent?, k.ancestors x hx hl]
  exact hp

theorem rule_lt (h : v.Proceeds table d rule p later) (hv : v.Suits table d rule) :
    rule < p.document.next := by
  obtain ⟨_, k⟩ := h.altered.keeps
  exact Nat.lt_of_lt_of_le hv.rule_lt k.next_le

/-- None of the nodes that were made is above an old one. -/
theorem notMem_made (h : v.Proceeds table d rule p later) (hv : v.Suits table d rule)
    (hx : x < d.next) (ha : a ∈ p.document.ancestors x) : a ∉ v.made := by
  obtain ⟨_, k⟩ := h.altered.keeps
  rw [k.ancestors x hx (isLive_of_ancestor ha)] at ha
  exact hv.notMem_made (hv.nested.lt_of_isLive (isLive_of_mem_ancestors ha))

variable (h : v.Proceeds table d rule p (id :: later)) (hv : v.Suits table d rule)
include h

theorem mem_made_iff (hx : p.document.next ≤ x) (hlt : x < (p.visit table id).document.next) :
    x ∈ v.made ↔ d.parent? id = some rule := by
  obtain ⟨lost, t, -⟩ := (visit_visited table id h.orderly.nested.toWhole).edited
  have hlater : x ∉ madeFor table d rule (p.visit table id) later :=
    fun hm => Nat.not_lt_of_le (le_of_mem_madeFor t.whole hm) hlt
  rw [h.made x hx, mem_madeFor_cons, or_iff_left hlater]
  exact and_iff_left ⟨hx, hlt⟩

include hv

theorem isLive_rule (hr : (p.visit table id).document.isLive rule = true) :
    p.document.isLive rule = true := by
  obtain ⟨lost, t, -⟩ := (visit_visited table id h.orderly.nested.toWhole).edited
  exact t.isLive_of_isLive (h.rule_lt hv) hr

/-- A visit that makes no nodes for the rule leaves those that were made. -/
theorem unexpanded (hr : (p.visit table id).document.isLive rule = true)
    (hnone : ∀ x ∈ v.made, p.document.next ≤ x → ¬x < (p.visit table id).document.next) :
    (p.visit table id).document.Trails rule v.made ∧
      v.blockOffers (p.visit table id).document = v.blockOffers p.document := by
  have hd := h.orderly.nested
  have hid := h.lt_next id List.mem_cons_self
  obtain ⟨lost, t, hlost⟩ := (visit_turned hd table id).edited hd
  have hl := h.isLive_rule hv hr
  have hback : ∀ x ∈ v.made, (p.visit table id).document.isLive x = true →
      p.document.isLive x = true := by
    intro x hx hl
    refine t.isLive_of_isLive (Nat.lt_of_not_le fun hle => ?_) hl
    exact hnone x hx hle (t.whole.lt_of_isLive hl)
  have hkept : ∀ x ∈ v.made, p.document.isLive x = true →
      (p.visit table id).document.isLive x = true := fun x hx =>
    h.trails.isLive t hlost ⟨hv.notMem_made hid, fun a => h.notMem_made hv hid⟩ hl hr hx
  refine ⟨h.trails.of_edited hd.toWhole t hl hr hback, blockOffers_of_altered hd.toWhole
    (visit_altered hd.toWhole table id) (fun x hx => ⟨hback x hx, hkept x hx⟩) fun x hx hlx => ?_⟩
  refine t.node x (hd.lt_of_isLive hlx) ?_ (hkept x hx hlx)
  rw [List.mem_singleton]
  rintro rfl
  exact hv.notMem_made hid hx

theorem ownVisit (hp : d.parent? id = some rule)
    (hr : (p.visit table id).document.isLive rule = true) :
    OwnVisit table p.document rule v.selector id (p.visit table id).document := by
  obtain ⟨tid, -⟩ := List.forall_mem_cons.mp h.turn
  exact Pass.ownVisit h.orderly.nested (h.parent?_eq (h.lt_next id List.mem_cons_self) hp)
    (hv.kind_eq h.altered (h.isLive_rule hv hr)) hv.notRoot
    ((h.regular id List.mem_cons_self hp).atTurn hv.nested.toWhole tid)

/-- A visit puts what the declaration adds before what is already behind the rule. -/
theorem trails_visit (hr : (p.visit table id).document.isLive rule = true) :
    (p.visit table id).document.Trails rule v.made ∧
      v.blockOffers (p.visit table id).document =
        v.adds table d rule id ++ v.blockOffers p.document := by
  have hquiet := h.unexpanded hv hr
  have hd := h.orderly.nested
  have hid := h.lt_next id List.mem_cons_self
  by_cases hp : d.parent? id = some rule
  · have hl := h.isLive_rule hv hr
    have hnew : ∀ x, p.document.next ≤ x → x < (p.visit table id).document.next → x ∈ v.made :=
      fun x hx hlt => (h.mem_made_iff hx hlt).mpr hp
    rw [adds, if_pos hp, ← h.own id List.mem_cons_self hp]
    rcases (h.ownVisit hv hp hr).unexpanded_or_expanded hd.toWhole with
      ⟨hnext, hnone⟩ | ⟨value, exponent, rem, sizes, d₁, hf, ha, hs, h₁, he⟩
    · have hadds : ((p.document.fontSize? id).map (v.stepOffers table)).getD [] = [] := by
        cases hf : p.document.fontSize? id with
        | none => rfl
        | some value => exact stepOffers_of_none (hnone value hf)
      rw [hadds, List.nil_append]
      exact hquiet fun x _ hx => Nat.not_lt_of_le (hnext ▸ hx)
    · have hw : ∀ size ∈ sizes, Breakpoint.width? v.documentFontSize size.1.value.toList =
          some size.1.width := by
        intro size hsize
        rw [hv.documentFontSize]
        refine hv.wellFormed.width _ (Breakpoints.mem_responsive.mp ?_).1
        exact (sizes_ok hs).1 ▸ List.mem_map_of_mem hsize
      have hold : rule ∉ v.made ∧ (∀ a ∈ p.document.ancestors rule, a ∉ v.made) ∧ id ∉ v.made :=
        ⟨hv.notMem_made hv.rule_lt, fun a => h.notMem_made hv hv.rule_lt, hv.notMem_made hid⟩
      refine ⟨h.trails.of_expanded hd.toWhole hl hold.2.2 h₁ he hnew, ?_⟩
      rw [blockOffers_of_expanded hd.toWhole h.trails hold hl hf h₁ he hnew hw, hf,
        Option.map_some, Option.getD_some, stepOffers_of_sizes ha hs]
  · rw [adds, if_neg hp, List.nil_append]
    exact hquiet fun x hx hle hlt => hp ((h.mem_made_iff hle hlt).mp hx)

theorem visit (hr : (p.visit table id).document.isLive rule = true) :
    v.Proceeds table d rule (p.visit table id) later := by
  have hd := h.orderly.nested
  obtain ⟨hid, hnodup⟩ := List.nodup_cons.mp h.nodup
  obtain ⟨_, k⟩ := h.altered.keeps
  obtain ⟨lost, t, -⟩ := (visit_visited table id hd.toWhole).edited
  have hlater : ∀ x ∈ later, x ∈ id :: later := fun x => List.mem_cons_of_mem id
  constructor
  case orderly => exact h.orderly.visit table id
  case altered => exact h.altered.trans hv.nested.toWhole (visit_altered hd.toWhole table id)
  case turn => exact (List.forall_mem_cons.mp h.turn).2
  case nodup => exact hnodup
  case lt_next => exact fun x hx => h.lt_next x (hlater x hx)
  case regular => exact fun x hx => h.regular x (hlater x hx)
  case own =>
    intro x hx hp
    have hlt := h.lt_next x (hlater x hx)
    rw [← h.own x (hlater x hx) hp]
    refine fontSize?_visit hd (h.parent?_eq hlt hp) ?_ (Nat.lt_of_lt_of_le hlt k.next_le) hr
    rintro rfl
    exact hid hx
  case made =>
    intro x hx
    rw [h.made x (Nat.le_trans t.next_le hx), mem_madeFor_cons]
    exact or_iff_right fun hm => Nat.not_lt_of_le hx hm.2.2
  case trails => exact (h.trails_visit hv hr).1

/-- A declaration of the rule is given its size at its turn. -/
theorem fontSize?_own (hp : d.parent? id = some rule)
    (hr : (p.visit table id).document.isLive rule = true) :
    (p.visit table id).document.fontSize? id = (d.fontSize? id).bind (settled? table) := by
  have hvisit := h.ownVisit hv hp hr
  rw [hvisit.fontSize?_eq h.orderly.nested.toWhole, h.own id List.mem_cons_self hp]

end Proceeds

/-- In the end what the declarations of the rule add stands behind the rule, the last first, and
each of them has its size. -/
theorem Proceeds.foldl (h : v.Proceeds table d rule p later) (hv : v.Suits table d rule)
    (hr : (later.foldl (Pass.visit table) p).document.isLive rule = true) :
    v.Proceeds table d rule (later.foldl (Pass.visit table) p) [] ∧
      v.blockOffers (later.foldl (Pass.visit table) p).document =
        later.reverse.flatMap (v.adds table d rule) ++ v.blockOffers p.document ∧
      ∀ id ∈ later, d.parent? id = some rule →
        (later.foldl (Pass.visit table) p).document.fontSize? id =
          (d.fontSize? id).bind (settled? table) := by
  induction later generalizing p with
  | nil => exact ⟨h, rfl, List.forall_mem_nil _⟩
  | cons id later ih =>
    obtain ⟨lost, t, -⟩ := (visit_visited table id h.orderly.nested.toWhole).edited
    have hlt := Nat.lt_of_lt_of_le (h.rule_lt hv) t.next_le
    have hr' := (foldl_visit_keeps table t.whole later).1.isLive_of_isLive hlt hr
    have hvisit := h.visit hv hr'
    obtain ⟨hend, hoffers, hsizes⟩ := ih hvisit hr
    refine ⟨hend, ?_, List.forall_mem_cons.mpr ⟨fun hp => ?_, hsizes⟩⟩
    · rw [List.foldl_cons, hoffers, (h.trails_visit hv hr').2]
      simp
    · have hid := h.lt_next id List.mem_cons_self
      obtain ⟨_, k⟩ := hvisit.altered.keeps
      rw [List.foldl_cons, fontSize?_foldl hvisit.orderly (hvisit.parent?_eq hid hp)
        (List.nodup_cons.mp h.nodup).1 (Nat.lt_of_lt_of_le hid k.next_le) hlt hr,
        h.fontSize?_own hv hp hr']

theorem normal_adds : ∀ o ∈ v.adds table d rule id, o.important = false := by
  intro o ho
  rw [adds] at ho
  split at ho
  case isFalse => cases ho
  case isTrue =>
    cases hf : d.fontSize? id with
    | none => simp [hf] at ho
    | some value =>
      rw [hf, Option.map_some, Option.getD_some, stepOffers] at ho
      split at ho
      · exact Offer.normal_of_sizes _ o ho
      · cases ho

/-! ### The cascade in the end -/

theorem getLast?_stepOffers {b : Breakpoint} {value : String}
    (hb : (table.responsive.filter (·.width ≤ v.width)).getLast? =
      if b.isBase then none else some b)
    (hr : ∀ exponent, Step.argument? value = some exponent →
      ∀ b ∈ table.items, ∃ rem, table.rem exponent (some b.name) = .ok rem) :
    (v.stepOffers table value).getLast?.map Offer.value =
      if b.isBase then none else stepAt? table b value := by
  cases ha : Step.argument? value with
  | none => simp [stepOffers_of_none ha, stepAt?, ha]
  | some exponent =>
    obtain ⟨sizes, hs⟩ := exists_sizes (hr exponent ha)
    rw [stepOffers_of_sizes ha hs, List.getLast?_map, getLast?_sizes hs, hb, stepAt?, ha]
    cases b.isBase with
    | true => rfl
    | false =>
      simp only [Bool.false_eq_true, ↓reduceIte, Option.bind_some]
      cases table.rem exponent (some b.name) <;> rfl

/-- The last offer behind the rule is that of its first step. -/
theorem getLast?_adds {b : Breakpoint} (ids : List NodeId)
    (hb : (table.responsive.filter (·.width ≤ v.width)).getLast? =
      if b.isBase then none else some b)
    (hr : ∀ id ∈ ids, d.parent? id = some rule → Regular table d id) :
    (ids.reverse.flatMap (v.adds table d rule)).getLast?.map Offer.value =
      if b.isBase then none else
        ((ids.filter fun id => d.parent? id = some rule).filterMap d.fontSize?).findSome?
          (stepAt? table b) := by
  have hadds : ∀ id ∈ ids, (v.adds table d rule id).getLast?.map Offer.value =
      if b.isBase then none else
        (if d.parent? id = some rule then d.fontSize? id else none).bind (stepAt? table b) := by
    intro id hid
    rw [adds]
    split
    case isFalse => simp
    case isTrue hp =>
      cases hf : d.fontSize? id with
      | none => simp
      | some value => exact getLast?_stepOffers hb ((hr id hid hp).rem_of_step hf)
  rw [List.getLast?_flatMap, List.reverse_reverse, List.map_findSome?, ← List.head?_filterMap]
  refine (congrArg List.head? (List.filterMap_congr hadds)).trans ?_
  cases b.isBase with
  | true => simp
  | false =>
    rw [← List.head?_filterMap, List.filterMap_filterMap, List.filterMap_filter]
    refine congrArg List.head? (List.filterMap_congr fun id _ => ?_)
    by_cases hp : d.parent? id = some rule <;> simp [hp]

variable {e : Document}

theorem Suits.parent?_eq (hv : v.Suits table d rule) (ha : Altered d e)
    (hx : x ∈ d.declarationsOf rule) (hl : e.isLive x = true) :
    e.parent? x = some rule ∧ e.ancestors x = d.ancestors x := by
  obtain ⟨_, k⟩ := ha.keeps
  have hp := of_decide_eq_true (List.mem_filter.mp hx).2
  have hanc := k.ancestors x (hv.nested.lt_of_isLive (isLive_of_parent hp)) hl
  exact ⟨by rw [parent?, hanc]; exact hp, hanc⟩

/-- First come the declarations of the rule in their order, then the blocks. -/
theorem offers_nodes (hv : v.Suits table d rule) (hown : v.own = d.declarationsOf rule)
    (ha : Altered d e) (ht : e.Trails rule v.made) (hr : e.isLive rule = true) :
    v.offers e e.nodes = v.offers e (v.own.filter (· ∈ e.nodes)) ++ v.blockOffers e := by
  have hd := hv.nested.toWhole
  have hrm := hv.notMem_made hv.rule_lt
  obtain ⟨upTo, behind, hc⟩ := ha.whole.exists_cutBehind hr
  have hmade := ht.notMem_upTo ha.whole hrm hc
  have hownBehind : ∀ x ∈ behind, x ∉ v.own := by
    intro x hx hm
    have hl : e.isLive x = true :=
      ha.whole.mem_nodes_iff.mp (hc.nodes ▸ List.mem_append_right _ hx)
    obtain ⟨hp, -⟩ := hv.parent?_eq ha (hown ▸ hm) hl
    have hn : (upTo ++ behind).Nodup := hc.nodes ▸ ha.whole.nodup_nodes
    exact List.disjoint_of_nodup_append hn (hc.mem_upTo x (mem_ancestors_of_parent hp)) hx
  -- the declarations are in their old order
  have hsub : (d.declarationsOf rule).Sublist d.nodes :=
    List.filter_sublist.trans (List.filter_sublist.map Prod.fst)
  have hordered : upTo.filter (· ∈ v.own) = v.own.filter (· ∈ e.nodes) := by
    have hnone : behind.filter (· ∈ v.own) = [] :=
      List.filter_eq_nil_iff.mpr fun x hx => by simpa using hownBehind x hx
    have hfirst : upTo.filter (· ∈ v.own) = e.nodes.filter (· ∈ v.own) := by
      rw [hc.nodes, List.filter_append, hnone, List.append_nil]
    rw [hfirst, hown, ha.filter_sublist hd hsub]
  have hlast : e.nodes.filter (· ∈ v.made) = behind.filter (· ∈ v.made) := by
    have hnone : upTo.filter (· ∈ v.made) = [] :=
      List.filter_eq_nil_iff.mpr fun x hx => by simpa using hmade x hx
    rw [hc.nodes, List.filter_append, hnone, List.nil_append]
  have hupTo : v.offers e (upTo.filter (· ∈ v.own)) = v.offers e upTo :=
    offers_filter fun x hx hn => ⟨of_decide_eq_false hn, hmade x hx⟩
  have hbehind : v.offers e (behind.filter (· ∈ v.made)) = v.offers e behind :=
    offers_filter fun x hx hn => ⟨hownBehind x hx, of_decide_eq_false hn⟩
  rw [hordered] at hupTo
  rw [← hlast] at hbehind
  rw [hupTo, blockOffers, hbehind, ← offers_append, ← hc.nodes]

/-- The declarations of the rule that are still there offer the sizes they were given. -/
theorem offers_own (hv : v.Suits table d rule) (hown : v.own = d.declarationsOf rule)
    (ha : Altered d e) (hr : e.isLive rule = true)
    (hreg : ∀ id ∈ d.declarationsOf rule, Regular table d id)
    (hsize : ∀ id ∈ d.declarationsOf rule,
      e.fontSize? id = (d.fontSize? id).bind (settled? table)) :
    v.offers e (v.own.filter (· ∈ e.nodes)) =
      (((d.declarationsOf rule).filterMap d.fontSize?).filterMap (settled? table)).map
        fun value => ⟨value, false⟩ := by
  rw [offers, List.filterMap_filter, List.filterMap_filterMap, List.map_filterMap, hown]
  refine List.filterMap_congr fun id hid => ?_
  rw [← hsize id hid]
  simp only [ha.whole.mem_nodes_iff, decide_eq_true_eq]
  cases hl : e.isLive id with
  | false => simp [fontSize?_of_not_isLive hl]
  | true =>
    obtain ⟨hp, hanc⟩ := hv.parent?_eq ha hid hl
    have hpd := of_decide_eq_true (List.mem_filter.mp hid).2
    have henc := enclosingRule?_of_parent ha.whole hp (hv.kind_eq ha hr)
    have hadmits : (e.ancestors id).all (v.admits e) = true := by
      refine List.all_eq_true.mpr fun a hm => admits_of_notMem (hv.notMem_made ?_)
      exact hv.nested.lt_of_isLive (isLive_of_mem_ancestors (hanc ▸ hm))
    have htakes : v.takesPart e id = true := by
      simp [takesPart, hown, hid, henc, hadmits]
    simp only [↓reduceIte, htakes]
    rw [fontSize?_eq, Option.map_map]
    cases ho : e.offer? id with
    | none => rfl
    | some o =>
      obtain ⟨o', ho', himp⟩ := ha.exists_offer (isLive_of_parent hpd) ho
      obtain ⟨value, important⟩ := o
      obtain rfl : important = false := himp.symm.trans (hreg id hid o' ho').1
      rfl

end RuleView

/-! ### Rules that stay -/

/-- No declaration is, as it was read, to be rejected along with a rule or a node above it. -/
def Undisturbed (table : Breakpoints) (d : Document) (rule : NodeId) : Prop :=
  ∀ id ∈ d.declarations, ∀ r, firstOutcome table d id Sizing.all = .rejected r →
    ∀ x ∈ r.excise, x ≠ rule ∧ x ∉ d.ancestors rule

namespace Pass

theorem isLive_rule_visit {selector : String} (hd : d.Nested) (hp : p.document.Nested)
    (ha : Altered d p.document) (tid : AtTurn d p id) (hk : d.kind rule = .ok (.rule selector))
    (hid : ∀ r, firstOutcome table d id Sizing.all = .rejected r →
      ∀ x ∈ r.excise, x ≠ rule ∧ x ∉ d.ancestors rule)
    (hl : p.document.isLive rule = true) : (p.visit table id).document.isLive rule = true := by
  have hv := visit_turned hp table id
  cases ho : p.outcome table id with
  | rejected r =>
    rw [ho] at hv
    generalize p.visit table id = q at hv ⊢
    cases hv with
    | @refused s _ hlid _ hr =>
      obtain ⟨x, e, _, hx, he, -, hq⟩ :=
        reject_of_removes (p := p.note [.rejected s]) hr (p.document.line? id)
      obtain ⟨hne, hnot⟩ := hid r (by rw [← tid.outcome_eq hd hlid, ho]) x hx
      obtain ⟨_, k⟩ := ha.keeps
      obtain ⟨n, hn, -⟩ := node?_of_kind hk
      have hlt := hd.lt_of_isLive (isLive_iff_node.mpr ⟨n, hn⟩)
      rw [hq, (hp.toWhole.remove he).1.isLive rule hl]
      rintro _ ⟨⟩
      refine ⟨hne, fun hm => hnot ?_⟩
      rwa [← k.ancestors rule hlt hl]
  | _ =>
    refine (isLive_of_turned hp hv (by rw [ho]; rfl) hl).mpr ?_
    rintro ⟨rfl, hroot⟩
    rw [tid.isRootSize_eq hd.toWhole hl] at hroot
    obtain ⟨value, hf, -⟩ := (Option.any_eq_true _ _).mp (Bool.and_eq_true_iff.mp hroot).1
    obtain ⟨n, _, _, hn, hkn, -⟩ := exists_of_fontSize? hf
    rw [kind_of_node? hn, hkn] at hk
    cases hk

theorem isLive_rule_foldl {selector : String} (hd : d.Nested) (hp : p.Orderly)
    (ha : Altered d p.document)
    (ht : ∀ turn ∈ turns table p ids, AtTurn d turn.1 turn.2)
    (hk : d.kind rule = .ok (.rule selector))
    (hu : ∀ id ∈ ids, ∀ r, firstOutcome table d id Sizing.all = .rejected r →
      ∀ x ∈ r.excise, x ≠ rule ∧ x ∉ d.ancestors rule)
    (hl : p.document.isLive rule = true) :
    (ids.foldl (visit table) p).document.isLive rule = true := by
  induction ids generalizing p with
  | nil => exact hl
  | cons id ids ih =>
    obtain ⟨tid, tids⟩ := List.forall_mem_cons.mp ht
    obtain ⟨hid, hids⟩ := List.forall_mem_cons.mp hu
    exact ih (hp.visit table id)
      (ha.trans hd.toWhole (visit_altered hp.nested.toWhole table id)) tids hids
      (isLive_rule_visit hd hp.nested ha tid hk hid hl)

/-! ### A whole pass -/

/-- What a pass makes of a rule, for the viewports of some width. -/
def ruleView (table : Breakpoints) (d : Document) (rule : NodeId) (width : Float)
    (selector : String) : RuleView where
  width
  documentFontSize := table.scale.documentFontSize
  selector
  own := d.declarationsOf rule
  made := madeFor table d rule (start d) d.declarations

theorem ruleView_suits {selector : String} {w : Float} (ht : table.WellFormed) (hd : d.Nested)
    (hk : d.kind rule = .ok (.rule selector)) (hs : Root.selectsRoot selector = false) :
    (ruleView table d rule w selector).Suits table d rule where
  nested := hd
  wellFormed := ht
  documentFontSize := rfl
  kind := hk
  notRoot := hs
  le _ hx := le_of_mem_madeFor (p := start d) hd.toWhole hx

theorem start_proceeds (hv : v.Suits table d rule)
    (hmade : v.made = madeFor table d rule (start d) d.declarations)
    (hreg : ∀ id ∈ d.declarationsOf rule, Regular table d id) :
    v.Proceeds table d rule (start d) d.declarations := by
  have hw := hv.nested.toWhole
  have hnew : ∀ x ∈ v.made, (start d).document.isLive x ≠ true := fun x hx hl =>
    Nat.not_lt_of_le (hv.le x hx) (hw.lt_of_isLive hl)
  constructor
  case orderly => exact start_orderly hv.nested
  case altered => exact .refl hw
  case turn => exact atTurn_of_mem hv.nested
  case nodup => exact nodup_declarations hw
  case lt_next =>
    intro id hm
    obtain ⟨n, hn, -⟩ := declaration_of_mem_declarations hw hm
    exact hw.lt_of_isLive (isLive_iff_node.mpr ⟨n, hn⟩)
  case regular =>
    exact fun id hid hp => hreg id (List.mem_filter.mpr ⟨hid, decide_eq_true hp⟩)
  case own => exact fun _ _ _ => rfl
  case made =>
    intro x _
    rw [hmade]
  case trails =>
    exact ⟨fun x hx hl => absurd hl (hnew x hx), fun x hx hl => absurd hl (hnew x hx)⟩

theorem picked?_run {b : Breakpoint} (hv : v.Suits table d rule)
    (hown : v.own = d.declarationsOf rule)
    (hmade : v.made = madeFor table d rule (start d) d.declarations)
    (hreg : ∀ id ∈ d.declarationsOf rule, Regular table d id)
    (hb : (table.responsive.filter (·.width ≤ v.width)).getLast? =
      if b.isBase then none else some b)
    (hr : (run table d).document.isLive rule = true) :
    v.picked? (run table d).document =
      (if b.isBase then none
        else ((d.declarationsOf rule).filterMap d.fontSize?).findSome? (stepAt? table b)).or
        (((d.declarationsOf rule).filterMap d.fontSize?).filterMap (settled? table)).getLast? := by
  have hstart := start_proceeds hv hmade hreg
  unfold run at hr ⊢
  obtain ⟨hend, hblocks, hsizes⟩ := hstart.foldl hv hr
  generalize d.declarations.foldl (visit table) (start d) = q at hr hend hblocks hsizes ⊢
  have hnone : v.blockOffers (start d).document = [] := by
    have hempty : d.nodes.filter (· ∈ v.made) = [] := by
      refine List.filter_eq_nil_iff.mpr fun x hx => ?_
      rw [hv.nested.nodes_eq] at hx
      simpa using fun hm => Nat.not_lt_of_le (hv.le x hm) (hv.nested.lt_next x hx)
    rw [RuleView.blockOffers, show (start d).document = d from rfl, hempty]
    rfl
  rw [hnone, List.append_nil] at hblocks
  have hsizes : ∀ id ∈ d.declarationsOf rule,
      q.document.fontSize? id = (d.fontSize? id).bind (settled? table) := by
    intro id hid
    obtain ⟨hm, hp⟩ := List.mem_filter.mp hid
    exact hsizes id hm (of_decide_eq_true hp)
  have hoffers := RuleView.offers_nodes hv hown hend.altered hend.trails hr
  rw [hblocks, RuleView.offers_own hv hown hend.altered hr hreg hsizes] at hoffers
  have hlast := RuleView.getLast?_adds d.declarations hb hstart.regular
  have hnormal : ∀ o ∈ v.offers q.document q.document.nodes, o.important = false := by
    rw [hoffers]
    refine List.forall_mem_append.mpr ⟨?_, fun o ho => ?_⟩
    · exact List.forall_mem_map.mpr fun _ _ => rfl
    · obtain ⟨id, -, ho⟩ := List.mem_flatMap.mp ho
      exact RuleView.normal_adds o ho
  rw [RuleView.picked?, Offer.winner?_of_normal hnormal, hoffers, List.getLast?_append,
    Option.map_or, hlast, List.getLast?_map, Option.map_map]
  exact congrArg _ Option.map_id'

/-- A rule whose font sizes can all be given stays unless a declaration is rejected along with it.
Where it stays and a breakpoint other than the base one is in force, the cascade picks the size of
its first step, and only elsewhere, or if it has no step, that of its last font size. -/
theorem picked?_of_run {settings : Settings} (ht : Breakpoints.ofSettings settings = .ok table)
    (text : String) {selector : String} {w : Float}
    (hk : (ofSheet (Css.Sheet.ofText text)).kind rule = .ok (.rule selector))
    (hs : Root.selectsRoot selector = false)
    (hreg : ∀ id ∈ (ofSheet (Css.Sheet.ofText text)).declarationsOf rule,
      Regular table (ofSheet (Css.Sheet.ofText text)) id) (hw : 0 ≤ w) :
    let d := ofSheet (Css.Sheet.ofText text)
    let sizes := (d.declarationsOf rule).filterMap d.fontSize?
    (Undisturbed table d rule → (run table d).document.isAttached rule = true) ∧
    ((run table d).document.isAttached rule = true → ∃ b, table.InForce w b ∧
      (ruleView table d rule w selector).picked? (run table d).document =
        (if b.isBase then none else sizes.findSome? (stepAt? table b)).or
          (sizes.filterMap (settled? table)).getLast?) := by
  have hd := ofSheet_nested text
  generalize ofSheet (Css.Sheet.ofText text) = d at hk hreg hd ⊢
  have hv := ruleView_suits (w := w) (Breakpoints.ofSettings_wellFormed ht) hd hk hs
  have hstart := start_proceeds hv rfl hreg
  intro d' sizes
  rw [(run_orderly hd table).nested.isAttached_eq]
  refine ⟨fun hu => ?_, fun hr => ?_⟩
  · exact isLive_rule_foldl hd hstart.orderly hstart.altered hstart.turn hk hu hv.isLive
  · obtain ⟨b, hforce, hb⟩ := hv.wellFormed.exists_last_inForce hw
    exact ⟨b, hforce, picked?_run hv rfl rfl hreg hb hr⟩

theorem sheet_of_mixed :
    Css.Sheet.ofText ".x { font-size: 0ms; font-size: t-ms(0); font-size: 12px; }" =
      ⟨.single ⟨.rule ".x", some 1⟩
        (.cons ⟨.declaration "font-size" "0ms" false, some 1⟩ .nil
          (.cons ⟨.declaration "font-size" "t-ms(0)" false, some 1⟩ .nil
            (.single ⟨.declaration "font-size" "12px" false, some 1⟩ .nil))), 0⟩ := by
  rw [Css.Sheet.ofText, Css.Components.ofText, Css.Components.ofLexemes_eq]
  cbv

theorem regular_mixed : ∀ id ∈ (ofSheet (Css.Sheet.ofText
    ".x { font-size: 0ms; font-size: t-ms(0); font-size: 12px; }")).declarationsOf 1,
      Regular .standard (ofSheet (Css.Sheet.ofText
        ".x { font-size: 0ms; font-size: t-ms(0); font-size: 12px; }")) id := by
  rw [sheet_of_mixed]
  generalize hd : ofSheet _ = d
  have hids : d.declarationsOf 1 = [2, 3, 4] := by subst hd; decide +kernel
  have hmeasure : d.offer? 2 = some ⟨"0ms", false⟩ := by subst hd; decide +kernel
  have hstep : d.offer? 3 = some ⟨"t-ms(0)", false⟩ := by subst hd; decide +kernel
  have hplain : d.offer? 4 = some ⟨"12px", false⟩ := by subst hd; decide +kernel
  have hscope : Scope.resolve d 2 = .ok .root := by subst hd; decide +kernel
  rw [hids]
  refine List.forall_mem_cons.mpr ⟨fun o ho => ?_, List.forall_mem_cons.mpr ⟨fun o ho => ?_,
    List.forall_mem_singleton.mpr fun o ho => ?_⟩⟩
  · obtain rfl := Option.some.inj (hmeasure.symm.trans ho)
    exact ⟨rfl, .inr (.inl ⟨by decide, hscope⟩)⟩
  · obtain rfl := Option.some.inj (hstep.symm.trans ho)
    exact ⟨rfl, .inr (.inr ⟨"0", by decide, Breakpoints.standard_rem⟩)⟩
  · obtain rfl := Option.some.inj (hplain.symm.trans ho)
    exact ⟨rfl, .inl (by decide)⟩

theorem picked?_of_run_mixed :
    let d := ofSheet (Css.Sheet.ofText
      ".x { font-size: 0ms; font-size: t-ms(0); font-size: 12px; }")
    let sizes := (d.declarationsOf 1).filterMap d.fontSize?
    Breakpoints.ofSettings {} = .ok .standard ∧ d.kind 1 = .ok (.rule ".x") ∧
      Root.selectsRoot ".x" = false ∧ (∀ id ∈ d.declarationsOf 1, Regular .standard d id) ∧
      (0 : Float) ≤ 1280 ∧ Undisturbed .standard d 1 ∧
      (run .standard d).document.isAttached 1 = true ∧
      ∃ b, Breakpoints.standard.InForce 1280 b ∧
        (ruleView .standard d 1 1280 ".x").picked? (run .standard d).document =
          (if b.isBase then none else sizes.findSome? (stepAt? .standard b)).or
            (sizes.filterMap (settled? .standard)).getLast? := by
  have hk : (ofSheet (Css.Sheet.ofText
      ".x { font-size: 0ms; font-size: t-ms(0); font-size: 12px; }")).kind 1 =
        .ok (.rule ".x") := by
    rw [sheet_of_mixed]
    decide +kernel
  have hu : Undisturbed .standard (ofSheet (Css.Sheet.ofText
      ".x { font-size: 0ms; font-size: t-ms(0); font-size: 12px; }")) 1 := by
    rw [sheet_of_mixed]
    generalize hd : ofSheet _ = d
    have hnone : ∀ id ∈ d.declarations,
        (firstOutcome .standard d id Sizing.all).rejection? = none := by
      subst hd
      decide +kernel
    intro id hid r hr
    have hr' := hnone id hid
    rw [hr] at hr'
    cases hr'
  have hs : Root.selectsRoot ".x" = false := by decide
  have hw : (0 : Float) ≤ 1280 := by decide +kernel
  obtain ⟨hstays, hpicked⟩ :=
    picked?_of_run Breakpoints.ofSettings_default _ hk hs regular_mixed hw
  exact ⟨Breakpoints.ofSettings_default, hk, hs, regular_mixed, hw, hu, hstays hu,
    hpicked (hstays hu)⟩

/-- With the default settings a step wins over a plain size that comes after it. -/
theorem exists_overridden : ∃ table,
    let d := ofSheet (Css.Sheet.ofText
      ".x { font-size: 0ms; font-size: t-ms(0); font-size: 12px; }")
    Breakpoints.ofSettings {} = .ok table ∧ d.kind 1 = .ok (.rule ".x") ∧
      (∀ id ∈ d.declarationsOf 1, Regular table d id) ∧
      (d.declarationsOf 1).filterMap d.fontSize? = ["0ms", "t-ms(0)", "12px"] ∧
      (run table d).document.isAttached 1 = true ∧
      (ruleView table d 1 1280 ".x").picked? (run table d).document = some "1.25rem" := by
  refine ⟨.standard, Breakpoints.ofSettings_default, ?_, regular_mixed, ?_⟩
  · rw [sheet_of_mixed]
    decide +kernel
  · rw [sheet_of_mixed]
    decide +kernel

end Pass

end ModularScale
