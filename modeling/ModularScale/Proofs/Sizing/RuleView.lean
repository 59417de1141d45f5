import ModularScale.Proofs.Document.Behind
import ModularScale.Proofs.Sizing.Cascade
import ModularScale.Proofs.Sizing.Turns

/-! # The cascade of a rule

What a viewport makes of a rule and of the blocks that were made for it. The cascade picks among the
font sizes for the selector of the rule that stand in the rule itself or in a block that fits into
the viewport.
-/

namespace ModularScale

open Document Sizing

variable {table : Breakpoints} {d e : Document} {id x anchor : NodeId}

/-- The font size that a node offers. -/
def Document.offer? (d : Document) (id : NodeId) : Option Offer :=
  (d.node? id).bind fun n => Offer.ofKind? n.kind

structure RuleView where
  width : Float
  documentFontSize : Float
  selector : String
  /-- The declarations of the rule. -/
  own : List NodeId
  /-- The nodes made when these were expanded. -/
  made : List NodeId

namespace RuleView

/-- Whether what is below a node takes part: blocks that were made have to fit. -/
def admits (v : RuleView) (d : Document) (a : NodeId) : Bool :=
  !v.made.contains a ||
    ((d.node? a).bind fun n => Template.minWidth? v.documentFontSize n.kind).all (· ≤ v.width)

def takesPart (v : RuleView) (d : Document) (id : NodeId) : Bool :=
  (v.own.contains id || v.made.contains id) &&
    Root.enclosingRule? d id == some (.rule v.selector) && (d.ancestors id).all (v.admits d)

/-- Those of the given nodes that take part in the cascade, with what they offer. -/
def offers (v : RuleView) (d : Document) (ids : List NodeId) : List Offer :=
  ids.filterMap fun id => if v.takesPart d id then d.offer? id else none

/-- The font size that the cascade picks. -/
def picked? (v : RuleView) (d : Document) : Option String :=
  Offer.winner? (v.offers d d.nodes)

variable {v : RuleView} {ids around : List NodeId} {sizes : List (Breakpoint × String)}

theorem offers_append (v : RuleView) (d : Document) (ids ids' : List NodeId) :
    v.offers d (ids ++ ids') = v.offers d ids ++ v.offers d ids' :=
  List.filterMap_append

theorem admits_of_notMem (h : x ∉ v.made) : v.admits d x = true := by
  simp [admits, h]

/-- Nodes that are neither of the rule nor made for it do not matter. -/
theorem offers_filter {p : NodeId → Bool}
    (h : ∀ id ∈ ids, p id = false → id ∉ v.own ∧ id ∉ v.made) :
    v.offers d (ids.filter p) = v.offers d ids := by
  rw [offers, offers, List.filterMap_filter]
  refine List.filterMap_congr fun id hid => ?_
  cases hp : p id with
  | true => rfl
  | false =>
    obtain ⟨ho, hm⟩ := h id hid hp
    simp [takesPart, ho, hm]

/-! ### Changes elsewhere -/

theorem minWidth?_of_resized {n m : Node} (h : n.Resized m) (fontSize : Float) :
    Template.minWidth? fontSize m.kind = Template.minWidth? fontSize n.kind := by
  cases h <;> rfl

/-- Nodes that stay as they were take part in the cascade as they did. -/
theorem takesPart_of_altered (hd : d.Whole) (h : Altered d e) (hl : d.isLive id = true)
    (hl' : e.isLive id = true) : v.takesPart e id = v.takesPart d id := by
  obtain ⟨_, k⟩ := h.keeps
  have hanc := k.ancestors id (hd.lt_of_isLive hl) hl'
  have hadmits : ∀ a ∈ d.ancestors id, v.admits e a = v.admits d a := by
    intro a ha
    obtain ⟨n, hn⟩ := isLive_iff_node.mp (isLive_of_mem_ancestors ha)
    obtain ⟨m, hm⟩ := isLive_iff_node.mp (isLive_of_mem_ancestors (hanc ▸ ha))
    simp only [admits, hn, hm, Option.bind_some, minWidth?_of_resized (h.node a n m hn hm)]
  have hall : (d.ancestors id).all (v.admits e) = (d.ancestors id).all (v.admits d) := by
    rw [Bool.eq_iff_iff, List.all_eq_true, List.all_eq_true]
    exact forall₂_congr fun a ha => by rw [hadmits a ha]
  rw [takesPart, takesPart, h.enclosingRule?_eq hd hl hl', hanc, hall]

theorem offers_of_altered (hd : d.Whole) (h : Altered d e)
    (hids : ∀ id ∈ ids, d.isLive id = true ∧ e.isLive id = true ∧ e.node? id = d.node? id) :
    v.offers e ids = v.offers d ids := by
  refine List.filterMap_congr fun id hid => ?_
  obtain ⟨hl, hl', hn⟩ := hids id hid
  rw [takesPart_of_altered hd h hl hl', offer?, hn, offer?]

end RuleView

/-! ### The blocks of a step -/

/-- A document has the nodes of some trees, with given nodes above all of them. -/
structure Document.Hosts (d : Document) (around : List NodeId) (f : Forest (NodeId × Node)) :
    Prop where
  node : ∀ a ∈ f.toList, d.node? a.1 = some a.2
  ancestors : ∀ x as, f.above? (isNode x) = some as →
    d.ancestors x = as.map Prod.fst ++ around

namespace Document.Hosts

open Forest

variable {around : List NodeId} {f : Forest (NodeId × Node)}

theorem cons {a : NodeId × Node} {c r : Forest (NodeId × Node)}
    (h : d.Hosts around (Forest.cons a c r)) (hn : (Forest.cons a c r).numbers.Nodup) :
    d.node? a.1 = some a.2 ∧ d.ancestors a.1 = around ∧ d.Hosts (a.1 :: around) c ∧
      d.Hosts around r := by
  refine ⟨h.node a (by simp [toList]), h.ancestors a.1 [] (above?_cons_of_eq rfl),
    ⟨fun b hb => h.node b (by simp [toList, hb]), fun x as has => ?_⟩,
    ⟨fun b hb => h.node b (by simp [toList, hb]), fun x as has => ?_⟩⟩
  · simpa using h.ancestors x (as ++ [a]) (above?_cons_below hn has)
  · exact h.ancestors x as (above?_cons_beside hn has)

theorem append {g : Forest (NodeId × Node)} (h : d.Hosts around (f ++ g))
    (hn : (f ++ g).numbers.Nodup) : d.Hosts around f ∧ d.Hosts around g := by
  rw [numbers_append] at hn
  refine ⟨⟨fun a ha => h.node a (by simp [ha]), fun x as has => h.ancestors x as ?_⟩,
    ⟨fun a ha => h.node a (by simp [ha]), fun x as has => h.ancestors x as ?_⟩⟩
  · rw [above?_append, has, Option.some_or]
  · have hx := List.disjoint_of_nodup_append hn
    rw [above?_append, above?_eq_none.mpr fun hm => hx hm (mem_of_above? has), Option.none_or, has]

theorem of_insertNewAfter {new : Forest Node} (hd : d.Whole)
    (h : d.insertNewAfter anchor new = .ok e) :
    e.Hosts (d.ancestors anchor) (new.number d.next).1 :=
  ⟨fun _ ha => node?_insertNewAfter hd h ha, fun _ _ has => ancestors_insertNewAfter hd h has⟩

/-- A change of another node does not matter. -/
theorem edited (h : d.Hosts around f) (hd : d.Whole) (t : Edited [id] none d e)
    (hid : id ∉ f.numbers) : e.Hosts around f := by
  have hlive : ∀ x ∈ f.numbers, d.isLive x = true := by
    intro x hx
    obtain ⟨a, ha, rfl⟩ := List.mem_map.mp hx
    exact isLive_iff_node.mpr ⟨a.2, h.node a ha⟩
  constructor
  · intro a ha
    have hx : a.1 ∈ f.numbers := List.mem_map_of_mem ha
    have hl := hlive a.1 hx
    have hne : a.1 ∉ [id] := by
      rw [List.mem_singleton]
      exact fun e => hid (e ▸ hx)
    rw [t.node a.1 (hd.lt_of_isLive hl) hne ((t.isLive a.1 hl).mpr (by simp)), h.node a ha]
  · intro x as has
    rw [t.ancestors_eq hd (hlive x (mem_of_above? has)), h.ancestors x as has]

end Document.Hosts

namespace RuleView

open Forest

variable {v : RuleView} {around : List NodeId} {sizes : List (Breakpoint × String)}

/-- The rule in a block offers its size if the block fits. -/
theorem offers_block {block rule declaration : NodeId} {width value : String} {w : Float}
    (hmade : block ∈ v.made ∧ rule ∈ v.made ∧ declaration ∈ v.made)
    (haround : ∀ a ∈ around, a ∉ v.made)
    (hw : Breakpoint.width? v.documentFontSize width.toList = some w)
    (h : d.Hosts around (single (block, Template.media width)
      (single (rule, Template.rule v.selector)
        (single (declaration, Template.fontSize value) .nil))))
    (hn : [block, rule, declaration].Nodup) :
    v.offers d [block, rule, declaration] = if w ≤ v.width then [⟨value, false⟩] else [] := by
  obtain ⟨hblock, hrule, hdecl⟩ := hmade
  obtain ⟨hnb, -, h, -⟩ := h.cons (by simpa [single] using hn)
  obtain ⟨hnr, -, h, -⟩ := h.cons (by simpa [single] using (List.nodup_cons.mp hn).2)
  obtain ⟨hnd, hanc, -⟩ := h.cons (by simp)
  simp only at hnb hnr hnd hanc
  have hb : d.offer? block = none := by rw [offer?, hnb]; rfl
  have hr : d.offer? rule = none := by rw [offer?, hnr]; rfl
  have hd : d.offer? declaration = some ⟨value, false⟩ := by rw [offer?, hnd]; rfl
  have henc : Root.enclosingRule? d declaration = some (.rule v.selector) := by
    rw [Root.enclosingRule?, hanc, List.filterMap_cons, hnr]
    rfl
  have hadmitsr : v.admits d rule = true := by
    rw [admits, hnr]
    exact Bool.or_eq_true_iff.mpr (.inr rfl)
  have hadmitsb : v.admits d block = decide (w ≤ v.width) := by
    simp [admits, hnb, hblock, View.minWidth?_media hw]
  have hadmits : around.all (v.admits d) = true :=
    List.all_eq_true.mpr fun a ha => admits_of_notMem (haround a ha)
  have htakes : v.takesPart d declaration = decide (w ≤ v.width) := by
    simp [takesPart, hdecl, henc, hanc, hadmitsr, hadmitsb, hadmits]
  by_cases hfits : w ≤ v.width <;> simp [offers, hb, hr, hd, htakes, hfits]

/-- Of the blocks of a step those take part that fit. -/
theorem offers_blocks {next : NodeId}
    (hmade : ∀ x ∈ ((Step.blocks v.selector sizes).number next).1.numbers, x ∈ v.made)
    (haround : ∀ a ∈ around, a ∉ v.made)
    (hw : ∀ size ∈ sizes,
      Breakpoint.width? v.documentFontSize size.1.value.toList = some size.1.width)
    (h : d.Hosts around ((Step.blocks v.selector sizes).number next).1) :
    v.offers d ((Step.blocks v.selector sizes).number next).1.numbers =
      (sizes.filter (·.1.width ≤ v.width)).map fun size => ⟨size.2, false⟩ := by
  induction sizes generalizing next with
  | nil => rfl
  | cons size sizes ih =>
    obtain ⟨hwidth, hw⟩ := List.forall_mem_cons.mp hw
    have hblock : ((Step.blocks v.selector (size :: sizes)).number next).1 =
        single (next, Template.media size.1.value)
          (single (next + 1, Template.rule v.selector)
            (single (next + 2, Template.fontSize size.2) .nil)) ++
          ((Step.blocks v.selector sizes).number (next + 3)).1 := rfl
    have hn : ((Step.blocks v.selector (size :: sizes)).number next).1.numbers.Nodup := by
      rw [(numbers_number _ _).1]
      exact List.nodup_range'
    rw [hblock] at hmade h hn ⊢
    obtain ⟨hfirst, hrest⟩ := h.append hn
    rw [numbers_append] at hmade hn ⊢
    have hone := offers_block ⟨hmade _ (by simp [single]), hmade _ (by simp [single]),
      hmade _ (by simp [single])⟩ haround hwidth hfirst (List.nodup_append.mp hn).1
    have hmore := ih (fun x hx => hmade x (List.mem_append_right _ hx)) hw hrest
    rw [offers_append, hmore]
    refine (congrArg (· ++ _) hone).trans ?_
    by_cases hfits : size.1.width ≤ v.width <;> simp [hfits]

end RuleView

end ModularScale
