import Mathlib
import ModularScale.Proofs.Document.OfSheet
import ModularScale.Proofs.Scale.Widest
import ModularScale.Proofs.Sizing.Outcome

/-! # The cascade

An expanded step leaves several font sizes for one selector: that of the declaration itself and that
of each block whose width fits into the viewport. Of these the cascade picks the last important
one, or else the last one.
-/

namespace ModularScale

open Document

/-- A font size that takes part in the cascade. -/
structure Offer where
  value : String
  important : Bool
deriving DecidableEq, Repr

namespace Offer

def ofKind? : Kind → Option Offer
  | .declaration property value important =>
    if Text.eqIgnoringCase property.toList "font-size".toList then some ⟨value, important⟩
    else none
  | _ => none

/-- The value that the cascade picks: important before normal, then later before earlier. -/
def winner? (offers : List Offer) : Option String :=
  ((offers.reverse.find? (·.important)).or offers.getLast?).map (·.value)

end Offer

/-- The least width of the viewports that a block made by `Template.media` is for. -/
def Template.minWidth? (documentFontSize : Float) : Kind → Option Float
  | .atRule "media" params _ true =>
    let params := params.toList
    if "(min-width: ".toList.isPrefixOf params && params.getLast? == some ')' then
      Breakpoint.width? documentFontSize (params.drop 12).dropLast
    else none
  | _ => none

/-- What a viewport makes of a declaration and of the nodes that were made when the declaration was
expanded, as far as they are about one selector. -/
structure View where
  width : Float
  documentFontSize : Float
  selector : String
  declaration : NodeId
  /-- The numbers from here on are those of the nodes made. -/
  next : NodeId

namespace View

def concerns (v : View) (id : NodeId) : Bool :=
  id == v.declaration || v.next ≤ id

/-- Whether what is below a node takes part: blocks that were made have to fit. -/
def admits (v : View) (a : NodeId × Node) : Bool :=
  a.1 < v.next || (Template.minWidth? v.documentFontSize a.2.kind).all (· ≤ v.width)

/-- The selector that holds below a node. -/
def selectorBelow (outer : Option String) : Kind → Option String
  | .rule selector => some selector
  | _ => outer

/-- The font sizes that take part in the cascade, in document order. -/
def offers (v : View) (selector : Option String) : Forest (NodeId × Node) → List Offer
  | .nil => []
  | .cons a children rest =>
    (if v.concerns a.1 && selector == some v.selector then (Offer.ofKind? a.2.kind).toList
      else []) ++
    (if v.admits a then v.offers (selectorBelow selector a.2.kind) children else []) ++
    v.offers selector rest

/-- The font size that the cascade picks. -/
def picked? (v : View) (d : Document) : Option String :=
  Offer.winner? (v.offers none d.attached)

end View

variable {table : Breakpoints} {d e : Document} {id rule : NodeId} {v : View}
  {sizes : List (Breakpoint × String)} {exponent : String}

/-! ### Winners -/

namespace Offer

variable {os : List Offer}

theorem find?_important (h : ∀ o ∈ os, o.important = false) :
    os.reverse.find? (·.important) = none := by
  simpa using h

theorem winner?_cons_important (value : String) (h : ∀ o ∈ os, o.important = false) :
    winner? (⟨value, true⟩ :: os) = some value := by
  simp [winner?, find?_important h]

theorem winner?_of_normal (h : ∀ o ∈ os, o.important = false) :
    winner? os = os.getLast?.map (·.value) := by
  rw [winner?, find?_important h, Option.none_or]

theorem normal_of_sizes (sizes : List (Breakpoint × String)) :
    ∀ o ∈ sizes.map fun size => Offer.mk size.2 false, o.important = false := by
  intro o ho
  obtain ⟨size, -, rfl⟩ := List.mem_map.mp ho
  rfl

end Offer

/-! ### What takes part -/

namespace View

open Forest

variable {f g new : Forest (NodeId × Node)} {s : Option String} {found : List Offer}

theorem offers_append (s : Option String) (f g : Forest (NodeId × Node)) :
    v.offers s (f ++ g) = v.offers s f ++ v.offers s g := by
  induction f with
  | nil => rfl
  | cons a c r _ ih => simp only [cons_append, offers, ih, List.append_assoc]

theorem concerns_of_lt (h : id < v.next) (hne : id ≠ v.declaration) : v.concerns id = false := by
  simp [concerns, hne, h]

theorem admits_of_lt {a : NodeId × Node} (h : a.1 < v.next) : v.admits a = true := by
  simp [admits, h]

theorem lt_of_lt_cons {a : NodeId × Node} {c r : Forest (NodeId × Node)} {next : NodeId}
    (h : ∀ i ∈ (cons a c r).numbers, i < next) :
    a.1 < next ∧ (∀ i ∈ c.numbers, i < next) ∧ ∀ i ∈ r.numbers, i < next := by
  simpa [or_imp, forall_and] using h

/-- An old node that is not the declaration offers nothing itself. -/
theorem offers_cons_of_lt {a : NodeId × Node} {c r : Forest (NodeId × Node)} (h : a.1 < v.next)
    (hne : a.1 ≠ v.declaration) : v.offers s (cons a c r) =
      v.offers (selectorBelow s a.2.kind) c ++ v.offers s r := by
  simp [offers, concerns_of_lt h hne, admits_of_lt h]

theorem offers_of_notMem (hlt : ∀ i ∈ f.numbers, i < v.next) (h : v.declaration ∉ f.numbers) :
    v.offers s f = [] := by
  induction f generalizing s with
  | nil => rfl
  | cons a c r ihc ihr =>
    obtain ⟨ha, hc, hr⟩ := lt_of_lt_cons hlt
    rw [numbers_cons, List.mem_cons, List.mem_append, not_or, not_or] at h
    rw [offers_cons_of_lt ha (Ne.symm h.1), ihc hc h.2.1, ihr hr h.2.2, List.append_nil]

/-- Gives a node another kind. -/
def rekind (kind : Kind) (a : NodeId × Node) : NodeId × Node :=
  (a.1, { a.2 with kind })

theorem offers_of_top {kind : Kind} (hn : f.numbers.Nodup) (hlt : ∀ i ∈ f.numbers, i < v.next)
    (h : f.above? (isNode v.declaration) = some []) :
    v.offers (some v.selector) (f.modify (isNode v.declaration) (rekind kind)) =
      (Offer.ofKind? kind).toList := by
  induction f with
  | nil => cases h
  | cons a c r _ ih =>
    obtain ⟨hac, har, -, hnr, -⟩ := nodup_cons hn
    obtain ⟨ha, hc, hr⟩ := lt_of_lt_cons hlt
    obtain ⟨hd, -⟩ | ⟨-, bs, -, hbs⟩ | ⟨hd, hdc, h⟩ := above?_cons_cases h
    · rw [hd] at hac har
      simp only [Forest.modify, modify_of_notMem hac, modify_of_notMem har, isNode_iff.mpr hd,
        ↓reduceIte, offers, offers_of_notMem hc hac, offers_of_notMem hr har]
      simp [concerns, rekind, hd]
    · cases bs <;> cases hbs
    · rw [modify_cons_of_ne hd, modify_of_notMem hdc, offers_cons_of_lt ha hd,
        offers_of_notMem hc hdc, ih hnr hr h, List.nil_append]

/-- When new nodes are put behind the rule of the declaration, which gets another kind, then the
declaration takes part first, and the new nodes follow. -/
theorem offers_insertAfter {kind : Kind} {n : Node} {as : List (NodeId × Node)}
    (hn : f.numbers.Nodup) (hlt : ∀ i ∈ f.numbers, i < v.next)
    (h : f.above? (isNode v.declaration) = some ((rule, n) :: as))
    (hk : n.kind = .rule v.selector) (hd : v.declaration ∉ new.numbers)
    (hnew : ∀ s, v.offers s new = found) :
    v.offers s ((Forest.insertAfter (isNode rule) new f).modify (isNode v.declaration) (rekind kind)) =
      (Offer.ofKind? kind).toList ++ found := by
  induction f generalizing as s with
  | nil => cases h
  | cons a c r ihc ihr =>
    obtain ⟨hac, har, hnc, hnr, hcr⟩ := nodup_cons hn
    obtain ⟨ha, hc, hr⟩ := lt_of_lt_cons hlt
    obtain ⟨-, hnil⟩ | ⟨hne, bs, hb, hbs⟩ | ⟨hne, hdc, h⟩ := above?_cons_cases h
    · cases hnil
    · have hdr := hcr _ (mem_of_above? hb)
      cases bs with
      | nil =>
        -- the first tree is that of the rule
        cases hbs
        have hra : ((rule, n) : NodeId × Node).1 = rule := rfl
        rw [insertAfter_cons_of_eq hra, modify_cons_of_ne hne, offers_cons_of_lt ha hne,
          modify_append, modify_of_notMem hd, modify_of_notMem hdr, offers_append, hnew,
          offers_of_notMem hr hdr, List.append_nil, hk]
        exact congrArg (· ++ found) (offers_of_top hnc hc hb)
      | cons b bs =>
        -- the rule is below the first node
        cases hbs
        have hrc : rule ∈ c.numbers := List.mem_map_of_mem (above?_subset hb List.mem_cons_self)
        have hra : a.1 ≠ rule := fun e => hac (e ▸ hrc)
        rw [insertAfter_cons_of_ne hra, modify_cons_of_ne hne, offers_cons_of_lt ha hne,
          insertAfter_of_notMem (hcr _ hrc), modify_of_notMem hdr, offers_of_notMem hr hdr,
          List.append_nil]
        exact ihc hnc hc hb
    · -- the rule is in one of the other trees
      have hrr : rule ∈ r.numbers := List.mem_map_of_mem (above?_subset h List.mem_cons_self)
      have hra : a.1 ≠ rule := fun e => har (e ▸ hrr)
      rw [insertAfter_cons_of_ne hra, modify_cons_of_ne hne, offers_cons_of_lt ha hne,
        insertAfter_of_notMem fun hm => hcr _ hm hrr, modify_of_notMem hdc,
        offers_of_notMem hc hdc, List.nil_append]
      exact ihr hnr hr h

/-! ### The blocks of a step -/

theorem minWidth?_media {fontSize w : Float} {value : String}
    (h : Breakpoint.width? fontSize value.toList = some w) :
    Template.minWidth? fontSize (Template.media value).kind = some w := by
  have hp : ("(min-width: " ++ value ++ ")").toList =
      "(min-width: ".toList ++ (value.toList ++ [')']) := by
    simp
  have hprefix : ("(min-width: ".toList.isPrefixOf
      ("(min-width: ".toList ++ (value.toList ++ [')']))) = true :=
    List.isPrefixOf_iff_prefix.mpr (List.prefix_append _ _)
  have hlast : ("(min-width: ".toList ++ (value.toList ++ [')'])).getLast? = some ')' := by
    rw [← List.append_assoc, List.getLast?_concat]
  have hdrop : ("(min-width: ".toList ++ (value.toList ++ [')'])).drop 12 =
      value.toList ++ [')'] := by
    simp
  simp only [Template.minWidth?, Template.media, Node.made, hp, hprefix, hlast, hdrop,
    List.dropLast_concat, h, beq_self_eq_true, Bool.and_self, ↓reduceIte]

theorem concerns_of_le (h : v.next ≤ id) : v.concerns id = true := by
  simp [concerns, h]

/-- The rule in a block offers its size. -/
theorem offers_rule {next : NodeId} (value : String) (h : v.next ≤ next) :
    v.offers s (single (next, Template.rule v.selector)
      (single (next + 1, Template.fontSize value) .nil)) = [⟨value, false⟩] := by
  have hnone : Offer.ofKind? (Template.rule v.selector).kind = none := rfl
  have hsome : Offer.ofKind? (Template.fontSize value).kind = some ⟨value, false⟩ := rfl
  have hbelow : selectorBelow s (Template.rule v.selector).kind = some v.selector := rfl
  have hadmits : v.admits (next, Template.rule v.selector) = true := by
    simp [admits, show Template.minWidth? _ (Template.rule v.selector).kind = none from rfl]
  simp [single, offers, hnone, hsome, hbelow, hadmits, concerns_of_le (Nat.le_add_right_of_le h)]

/-- Of the blocks those take part that fit. -/
theorem offers_blocks {next : NodeId} (hnext : v.next ≤ next)
    (hw : ∀ size ∈ sizes,
      Breakpoint.width? v.documentFontSize size.1.value.toList = some size.1.width) :
    v.offers s ((Sizing.Step.blocks v.selector sizes).number next).1 =
      (sizes.filter (·.1.width ≤ v.width)).map fun size => ⟨size.2, false⟩ := by
  induction sizes generalizing next with
  | nil => rfl
  | cons size sizes ih =>
    obtain ⟨hwidth, hw⟩ := List.forall_mem_cons.mp hw
    have hblock : ((Sizing.Step.blocks v.selector (size :: sizes)).number next).1 =
        cons (next, Template.media size.1.value)
          (single (next + 1, Template.rule v.selector)
            (single (next + 2, Template.fontSize size.2) .nil))
          ((Sizing.Step.blocks v.selector sizes).number (next + 3)).1 := rfl
    have hadmits : v.admits (next, Template.media size.1.value) =
        decide (size.1.width ≤ v.width) := by
      simp [admits, minWidth?_media hwidth, Nat.not_lt.mpr hnext]
    have hnone : Offer.ofKind? (Template.media size.1.value).kind = none := rfl
    rw [hblock, offers, hadmits, hnone, offers_rule size.2 (Nat.le_add_right_of_le hnext),
      ih (Nat.le_add_right_of_le hnext) hw]
    by_cases hfits : size.1.width ≤ v.width <;> simp [hfits]

end View

/-- The last responsive breakpoint that fits is in force, and if there is none a base one is. -/
theorem Breakpoints.WellFormed.exists_last_inForce (ht : table.WellFormed) {w : Float}
    (hw : 0 ≤ w) : ∃ b, table.InForce w b ∧
      (table.responsive.filter (·.width ≤ w)).getLast? = if b.isBase then none else some b := by
  rw [List.getLast?_eq_head?_reverse, ← List.filter_reverse, List.head?_filter]
  cases hf : table.responsive.reverse.find? (·.width ≤ w) with
  | none =>
    rw [List.find?_eq_none] at hf
    obtain ⟨b, hb, hforce⟩ := ht.exists_base_inForce hw fun c hc => by
      simpa using hf c (List.mem_reverse.mpr hc)
    exact ⟨b, hforce, by rw [if_pos hb]⟩
  | some b =>
    obtain ⟨hfits, as, bs, hsplit, hnot⟩ := List.find?_eq_some_iff_append.mp hf
    have hresp : table.responsive = bs.reverse ++ b :: as.reverse := by
      rw [← List.reverse_reverse table.responsive, hsplit]
      simp
    have hbase : b.isBase = false := by
      have hb : b ∈ table.responsive := by simp [hresp]
      exact (Breakpoints.mem_responsive.mp hb).2
    have hnot : ∀ c ∈ as.reverse, ¬c.width ≤ w := fun c hc => by
      simpa using hnot c (List.mem_reverse.mp hc)
    exact ⟨b, ht.inForce hresp (of_decide_eq_true hfits) hnot, by simp [hbase]⟩

/-- The last size that fits is the one at the last breakpoint that fits. -/
theorem Sizing.getLast?_sizes (hs : Step.sizes table exponent table.responsive = .ok sizes)
    (w : Float) : (sizes.filter (·.1.width ≤ w)).getLast? =
      (table.responsive.filter (·.width ≤ w)).getLast?.bind fun b =>
        (table.rem exponent (some b.name)).toOption.map (b, ·) := by
  obtain ⟨hmap, hrem⟩ := sizes_ok hs
  rw [← hmap, List.filter_map, List.getLast?_map]
  show (sizes.filter (·.1.width ≤ w)).getLast? =
    ((sizes.filter (·.1.width ≤ w)).getLast?.map Prod.fst).bind _
  cases hl : (sizes.filter (·.1.width ≤ w)).getLast? with
  | none => rfl
  | some size =>
    have hm := List.mem_of_mem_filter (List.mem_of_getLast? hl)
    simp [hrem size hm, Except.toOption]

/-- The last size that fits is that of the breakpoint in force, unless this is the base one. -/
theorem Breakpoints.WellFormed.exists_inForce (ht : table.WellFormed) {w : Float} (hw : 0 ≤ w)
    (hs : Sizing.Step.sizes table exponent table.responsive = .ok sizes) :
    ∃ b, table.InForce w b ∧
      ((b.isBase = true ∧ (sizes.filter (·.1.width ≤ w)).getLast? = none) ∨
        ∃ size, b.isBase = false ∧ table.rem exponent (some b.name) = .ok size ∧
          (sizes.filter (·.1.width ≤ w)).getLast? = some (b, size)) := by
  obtain ⟨b, hforce, hlast⟩ := ht.exists_last_inForce hw
  refine ⟨b, hforce, ?_⟩
  rw [Sizing.getLast?_sizes hs, hlast]
  cases hb : b.isBase with
  | true => exact .inl ⟨rfl, rfl⟩
  | false =>
    obtain ⟨hmap, hrem⟩ := Sizing.sizes_ok hs
    have hm : b ∈ sizes.map Prod.fst := hmap ▸ Breakpoints.mem_responsive.mpr ⟨hforce.mem, hb⟩
    obtain ⟨size, hsize, rfl⟩ := List.mem_map.mp hm
    exact .inr ⟨size.2, rfl, hrem size hsize, by simp [hrem size hsize, Except.toOption]⟩

theorem Sizing.exists_sizes
    (h : ∀ b ∈ table.items, ∃ rem, table.rem exponent (some b.name) = .ok rem) :
    ∃ sizes, Step.sizes table exponent table.responsive = .ok sizes := by
  cases hs : Step.sizes table exponent table.responsive with
  | ok sizes => exact ⟨sizes, rfl⟩
  | error e =>
    obtain ⟨b, hb, e, he⟩ := sizes_error_iff.mp ⟨e, hs⟩
    obtain ⟨rem, hrem⟩ := h b (Breakpoints.mem_responsive.mp hb).1
    rw [hrem] at he
    cases he

/-- After the expansion of a step the declaration takes part in the cascade as it was marked, and the
blocks that fit follow it, none of them important. -/
theorem Sizing.offers_step (hd : d.Nested) (ht : table.WellFormed) (w : Float)
    {selector property value rem : String} {important : Bool} (hp : d.parent? id = some rule)
    (hr : d.kind rule = .ok (.rule selector))
    (hk : d.kind id = .ok (.declaration property value important))
    (hf : Text.eqIgnoringCase property.toList "font-size".toList = true)
    (ha : Step.argument? value = some exponent) (hrem : table.rem exponent none = .ok rem)
    (hs : Step.sizes table exponent table.responsive = .ok sizes) :
    (run table d id .step).outcome = .applied ∧
      View.offers ⟨w, table.scale.documentFontSize, selector, id, d.next⟩ none
          (run table d id .step).document.attached =
        ⟨rem, important⟩ :: (sizes.filter (·.1.width ≤ w)).map fun size => ⟨size.2, false⟩ := by
  obtain ⟨n, hn, hnk⟩ := node?_of_kind hk
  have hv : d.fontSize? id = some value := by
    rw [fontSize?, hn, Option.bind_some, hnk, fontSizeOf?, if_pos hf]
  have hid : id < d.next := hd.lt_of_isLive (isLive_of_parent hp)
  obtain ⟨d₁, e, h₁, he, happly⟩ := Step.apply_eq hd hv hp hr hrem hs
  have hrun : run table d id .step = Step.apply table d id exponent := by
    have hnumber : Decimal.isNumber exponent = true := by
      by_contra hno
      obtain ⟨_, hno⟩ := rem_of_not_isNumber ((Bool.not_eq_true _).mp hno) none
      rw [hno] at hrem
      cases hrem
    simp only [run, Step.find, hv, Option.bind_some, ha, hnumber, ↓reduceIte, Match.run]
  rw [hrun, happly]
  refine ⟨rfl, ?_⟩
  -- the document after the two edits
  have t₁ := (hd.toWhole.insertNewAfter h₁).1
  have hwhole := (t₁.whole.setValue he).1.whole
  have hn₁ : d₁.node? id = some n := by
    rw [t₁.node id hid List.not_mem_nil ((t₁.isLive id (isLive_of_parent hp)).mpr (by simp)), hn]
  rw [setValue, kind_of_node? hn₁, hnk] at he
  have htrees : e.trees = ((Forest.insertAfter (isNode rule)
      ((Step.blocks selector sizes).number d.next).1 d.trees).modify (isNode id)
        (View.rekind (.declaration property rem important))) := by
    rw [← trees_insertNewAfter h₁, (setKind_ok he).2]
    rfl
  -- and what takes part in it
  obtain ⟨m, as, habove, hm⟩ := hd.above_of_parent hp hr
  obtain ⟨hmap, -⟩ := sizes_ok hs
  have hwidth : ∀ size ∈ sizes, Breakpoint.width? table.scale.documentFontSize
      size.1.value.toList = some size.1.width := by
    intro size hsize
    have hb : size.1 ∈ table.responsive := hmap ▸ List.mem_map_of_mem hsize
    exact ht.width _ (Breakpoints.mem_responsive.mp hb).1
  have hnew : id ∉ ((Step.blocks selector sizes).number d.next).1.numbers := by
    rw [(numbers_number _ _).1, List.mem_range'_1]
    exact fun h => Nat.not_lt_of_le h.1 hid
  let v : View := ⟨w, table.scale.documentFontSize, selector, id, d.next⟩
  have hblocks := fun s => View.offers_blocks (v := v) (s := s) (Nat.le_refl d.next) hwidth
  have hoffer : Offer.ofKind? (.declaration property rem important) = some ⟨rem, important⟩ :=
    if_pos hf
  show v.offers none e.attached = _
  rw [hwhole.attached_eq, htrees,
    View.offers_insertAfter (v := v) hd.nodup hd.lt_next habove hm hnew hblocks, hoffer]
  rfl

/-- What the cascade picks after the expansion of a step: where the declaration is not important the
size at the breakpoint in force, and where it is important the size at the base breakpoint. -/
theorem picked?_of_step {settings : Settings} (ht : Breakpoints.ofSettings settings = .ok table)
    (text : String) {selector property value : String} {important : Bool} {w : Float}
    (hp : (ofSheet (Css.Sheet.ofText text)).parent? id = some rule)
    (hr : (ofSheet (Css.Sheet.ofText text)).kind rule = .ok (.rule selector))
    (hk : (ofSheet (Css.Sheet.ofText text)).kind id = .ok (.declaration property value important))
    (hf : Text.eqIgnoringCase property.toList "font-size".toList = true)
    (ha : Sizing.Step.argument? value = some exponent)
    (hrange : ∀ b ∈ table.items, ∃ rem, table.rem exponent (some b.name) = .ok rem) (hw : 0 ≤ w) :
    let d := ofSheet (Css.Sheet.ofText text)
    let result := Sizing.run table d id .step
    let view : View := ⟨w, table.scale.documentFontSize, selector, id, d.next⟩
    result.outcome = .applied ∧ ∃ b rem, table.InForce w b ∧
      table.rem exponent (if b.isBase || important then none else some b.name) = .ok rem ∧
      view.picked? result.document = some rem := by
  have ht := Breakpoints.ofSettings_wellFormed ht
  obtain ⟨base, hbase⟩ := hrange table.base (List.head_mem _)
  rw [Breakpoints.rem_base] at hbase
  obtain ⟨sizes, hs⟩ := Sizing.exists_sizes hrange
  obtain ⟨houtcome, hoffers⟩ :=
    Sizing.offers_step (ofSheet_nested text) ht w hp hr hk hf ha hbase hs
  refine ⟨houtcome, ?_⟩
  obtain ⟨b, hforce, hlast⟩ := ht.exists_inForce hw hs
  have hnormal := Offer.normal_of_sizes (sizes.filter (·.1.width ≤ w))
  unfold View.picked?
  rw [hoffers]
  cases important with
  | true =>
    refine ⟨b, base, hforce, ?_, Offer.winner?_cons_important base hnormal⟩
    rw [Bool.or_true, if_pos rfl, hbase]
  | false =>
    rw [Offer.winner?_of_normal (List.forall_mem_cons.mpr ⟨rfl, hnormal⟩), List.getLast?_cons,
      List.getLast?_map]
    rcases hlast with ⟨hb, hl⟩ | ⟨size, hb, hsize, hl⟩
    · exact ⟨b, base, hforce, by simp [hb, hbase], by simp [hl]⟩
    · exact ⟨b, size, hforce, by simp [hb, hsize], by simp [hl]⟩

theorem sheet_of_normal : Css.Sheet.ofText ".x { font-size: t-ms(0); }" =
    ⟨.single ⟨.rule ".x", some 1⟩
      (.single ⟨.declaration "font-size" "t-ms(0)" false, some 1⟩ .nil), 0⟩ := by
  rw [Css.Sheet.ofText, Css.Components.ofText, Css.Components.ofLexemes_eq]
  cbv

theorem Breakpoints.standard_rem : ∀ b ∈ standard.items, ∃ rem,
    standard.rem "0" (some b.name) = .ok rem :=
  List.forall_mem_cons.mpr ⟨⟨"1rem", by decide +kernel⟩,
    List.forall_mem_cons.mpr ⟨⟨"1.125rem", by decide +kernel⟩,
      List.forall_mem_cons.mpr ⟨⟨"1.25rem", by decide +kernel⟩, List.forall_mem_nil _⟩⟩⟩

theorem picked?_of_step_normal :
    let d := ofSheet (Css.Sheet.ofText ".x { font-size: t-ms(0); }")
    let result := Sizing.run .standard d 2 .step
    let view : View := ⟨1280, 16, ".x", 2, d.next⟩
    Breakpoints.ofSettings {} = .ok .standard ∧ d.parent? 2 = some 1 ∧
      d.kind 1 = .ok (.rule ".x") ∧ d.kind 2 = .ok (.declaration "font-size" "t-ms(0)" false) ∧
      result.outcome = .applied ∧ ∃ b rem, Breakpoints.standard.InForce 1280 b ∧
        Breakpoints.standard.rem "0" (if b.isBase || false then none else some b.name) = .ok rem ∧
        view.picked? result.document = some rem := by
  have hp : (ofSheet (Css.Sheet.ofText ".x { font-size: t-ms(0); }")).parent? 2 = some 1 := by
    rw [sheet_of_normal]
    decide +kernel
  have hr : (ofSheet (Css.Sheet.ofText ".x { font-size: t-ms(0); }")).kind 1 =
      .ok (.rule ".x") := by
    rw [sheet_of_normal]
    decide +kernel
  have hk : (ofSheet (Css.Sheet.ofText ".x { font-size: t-ms(0); }")).kind 2 =
      .ok (.declaration "font-size" "t-ms(0)" false) := by
    rw [sheet_of_normal]
    decide +kernel
  exact ⟨Breakpoints.ofSettings_default, hp, hr, hk,
    picked?_of_step Breakpoints.ofSettings_default _ hp hr hk (by decide) (by decide +kernel)
      Breakpoints.standard_rem (by decide +kernel)⟩

theorem sheet_of_important : Css.Sheet.ofText ".x { font-size: t-ms(0) !important; }" =
    ⟨.single ⟨.rule ".x", some 1⟩
      (.single ⟨.declaration "font-size" "t-ms(0)" true, some 1⟩ .nil), 0⟩ := by
  rw [Css.Sheet.ofText, Css.Components.ofText, Css.Components.ofLexemes_eq]
  cbv

theorem Breakpoints.standard_inForce {b : Breakpoint} (h : standard.InForce 1280 b) :
    standard.rem "0" (if b.isBase then none else some b.name) = .ok "1.25rem" := by
  have hwidest := h.widest ⟨"desktop", "1280px", 20, 1280⟩ (by simp [standard]) (by decide +kernel)
  have hm := h.mem
  simp only [standard, List.mem_cons, List.not_mem_nil, or_false] at hm
  rcases hm with rfl | rfl | rfl
  · exact absurd hwidest (by decide +kernel)
  · exact absurd hwidest (by decide +kernel)
  · decide +kernel

/-- With the default settings an important step has the size at the base breakpoint even where a
wider one is in force. -/
theorem exists_important_base : ∃ table,
    let d := ofSheet (Css.Sheet.ofText ".x { font-size: t-ms(0) !important; }")
    let result := Sizing.run table d 2 .step
    let view : View := ⟨1280, table.scale.documentFontSize, ".x", 2, d.next⟩
    Breakpoints.ofSettings {} = .ok table ∧ d.parent? 2 = some 1 ∧
      d.kind 1 = .ok (.rule ".x") ∧ d.kind 2 = .ok (.declaration "font-size" "t-ms(0)" true) ∧
      result.outcome = .applied ∧ view.picked? result.document = some "1rem" ∧
      ∀ b, table.InForce 1280 b →
        table.rem "0" (if b.isBase then none else some b.name) = .ok "1.25rem" := by
  have hp : (ofSheet (Css.Sheet.ofText ".x { font-size: t-ms(0) !important; }")).parent? 2 =
      some 1 := by
    rw [sheet_of_important]
    decide +kernel
  have hr : (ofSheet (Css.Sheet.ofText ".x { font-size: t-ms(0) !important; }")).kind 1 =
      .ok (.rule ".x") := by
    rw [sheet_of_important]
    decide +kernel
  have hk : (ofSheet (Css.Sheet.ofText ".x { font-size: t-ms(0) !important; }")).kind 2 =
      .ok (.declaration "font-size" "t-ms(0)" true) := by
    rw [sheet_of_important]
    decide +kernel
  have ht := Breakpoints.ofSettings_wellFormed Breakpoints.ofSettings_default
  have hbase : Breakpoints.standard.rem "0" none = .ok "1rem" := by decide +kernel
  obtain ⟨sizes, hs⟩ := Sizing.exists_sizes Breakpoints.standard_rem
  obtain ⟨houtcome, hoffers⟩ := Sizing.offers_step (ofSheet_nested _) ht 1280 hp hr hk (by decide)
    (by decide +kernel) hbase hs
  refine ⟨.standard, Breakpoints.ofSettings_default, hp, hr, hk, houtcome, ?_,
    fun b => Breakpoints.standard_inForce⟩
  rw [View.picked?, hoffers]
  exact Offer.winner?_cons_important _ (Offer.normal_of_sizes _)

end ModularScale
