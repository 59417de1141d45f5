import ModularScale.Proofs.Sizing.RuleView
import ModularScale.Proofs.Sizing.Stable

/-! # Expansions behind a rule

What the visit of a declaration of a rule does: it gives the declaration its size, and a step also
puts its blocks right behind the rule. Blocks that were put there before are then further behind.
-/

namespace ModularScale

open Document Sizing

variable {table : Breakpoints} {p : Pass} {d e : Document} {id rule x : NodeId}
  {selector value : String}

/-! ### Font sizes that can be given -/

/-- If a node is a font size, it is not important, and it is plain, in scale steps outside all
at-rules, or a step with a size at every breakpoint. -/
def Sizing.Regular (table : Breakpoints) (d : Document) (id : NodeId) : Prop :=
  ∀ o, d.offer? id = some o → o.important = false ∧ (Root.isPlain o.value = true ∨
    ((Measure.exponent? o.value).isSome = true ∧ Scope.resolve d id = .ok .root) ∨
    ∃ exponent, Step.argument? o.value = some exponent ∧
      ∀ b ∈ table.items, ∃ rem, table.rem exponent (some b.name) = .ok rem)

/-- What is made of a font size at the base breakpoint; one out of range is dropped. -/
def Sizing.settled? (table : Breakpoints) (value : String) : Option String :=
  match (Measure.exponent? value).or (Step.argument? value) with
  | some exponent => (table.rem exponent none).toOption
  | none => some value

/-- What is made of a step at a breakpoint. -/
def Sizing.stepAt? (table : Breakpoints) (b : Breakpoint) (value : String) : Option String :=
  (Step.argument? value).bind fun exponent => (table.rem exponent (some b.name)).toOption

namespace Document

theorem fontSize?_eq (d : Document) (id : NodeId) :
    d.fontSize? id = (d.offer? id).map Offer.value := by
  rw [fontSize?, offer?]
  cases d.node? id with
  | none => rfl
  | some n =>
    simp only [Option.bind_some]
    cases n.kind with
    | declaration property value important =>
      simp only [fontSizeOf?, Offer.ofKind?]
      split <;> rfl
    | _ => rfl

theorem exists_offer (hv : d.fontSize? id = some value) :
    ∃ o, d.offer? id = some o ∧ o.value = value := by
  rw [fontSize?_eq] at hv
  exact Option.map_eq_some_iff.mp hv

end Document

/-- Whether a font size is important does not change. -/
theorem Document.Altered.exists_offer (h : Altered d e) (hl : d.isLive id = true) {o : Offer}
    (ho : e.offer? id = some o) : ∃ o', d.offer? id = some o' ∧ o'.important = o.important := by
  obtain ⟨n, hn⟩ := isLive_iff_node.mp hl
  obtain ⟨m, hm, ho⟩ := Option.bind_eq_some_iff.mp ho
  rw [offer?, hn, Option.bind_some]
  cases h.node id n m hn hm with
  | refl => exact ⟨o, ho, rfl⟩
  | @value property old new important _ hp =>
    simp only [Offer.ofKind?, if_pos hp, Option.some.injEq] at ho ⊢
    exact ⟨⟨old, important⟩, rfl, by rw [← ho]⟩

/-- A step that can be given has a size at every breakpoint. -/
theorem Sizing.Regular.rem_of_step (h : Regular table d id) (hv : d.fontSize? id = some value)
    (exponent : String) (ha : Step.argument? value = some exponent) :
    ∀ b ∈ table.items, ∃ rem, table.rem exponent (some b.name) = .ok rem := by
  obtain ⟨o, ho, rfl⟩ := exists_offer hv
  obtain ⟨-, hplain | ⟨hm, -⟩ | ⟨exponent', ha', hr⟩⟩ := h o ho
  · simp [Root.isPlain, ha] at hplain
  · simp [exponent_eq_none ha] at hm
  · obtain rfl := Option.some.inj (ha.symm.trans ha')
    exact hr

/-- A font size that can be given is given so at its turn. -/
theorem Sizing.Regular.atTurn (h : Regular table d id) (hd : d.Whole) (ht : Pass.AtTurn d p id) :
    Regular table p.document id := by
  intro o ho
  obtain ⟨n, hn, -⟩ := Option.bind_eq_some_iff.mp ho
  have hl := isLive_iff_node.mpr ⟨n, hn⟩
  have ho' : d.offer? id = some o := by rwa [offer?, ← ht.node hl]
  rw [ht.altered.resolve_eq hd (ht.isLive hl) hl]
  exact h o ho'

/-! ### The visit of a declaration of a rule -/

/-- All that can come of the visit of a declaration of a rule. -/
inductive OwnVisit (table : Breakpoints) (d : Document) (rule : NodeId) (selector : String)
    (id : NodeId) : Document → Prop
  | left : (∀ value, d.fontSize? id = some value → Root.isPlain value = true) →
    OwnVisit table d rule selector id d
  | converted {value exponent rem : String} {e : Document} : d.fontSize? id = some value →
    Measure.exponent? value = some exponent → table.rem exponent none = .ok rem →
    d.setValue id rem = .ok e → OwnVisit table d rule selector id e
  | dropped {value exponent : String} {error : ConversionError} {e : Document} :
    d.fontSize? id = some value → Measure.exponent? value = some exponent →
    table.rem exponent none = .error error → d.remove id = .ok e →
    OwnVisit table d rule selector id e
  | expanded {value exponent rem : String} {sizes : List (Breakpoint × String)}
      {d₁ e : Document} : d.fontSize? id = some value → Step.argument? value = some exponent →
    table.rem exponent none = .ok rem → Step.sizes table exponent table.responsive = .ok sizes →
    d.insertNewAfter rule (Step.blocks selector sizes) = .ok d₁ → d₁.setValue id rem = .ok e →
    OwnVisit table d rule selector id e

namespace Pass

theorem document_offer_of_applied {s : Sizing} {rest : List Sizing}
    (h : (s.run table p.document id).outcome = .applied) :
    (p.offer table id (s :: rest)).document = (s.run table p.document id).document := by
  simp [offer, h, count, note]

theorem document_offer_of_rejected {s : Sizing} {rest : List Sizing} {r : Rejection}
    (h : s.run table p.document id = .rejected p.document r) (hx : r.excise = some x)
    (he : p.document.remove x = .ok e) : (p.offer table id (s :: rest)).document = e := by
  simp [offer, h, Result.rejected, document_reject, hx, document_excise, note, he, Except.toOption]

theorem isNumber_of_rem {exponent rem : String} {name : Option String}
    (h : table.rem exponent name = .ok rem) : Decimal.isNumber exponent = true := by
  by_contra hno
  obtain ⟨_, hno⟩ := rem_of_not_isNumber ((Bool.not_eq_true _).mp hno) name
  rw [hno] at h
  cases h

theorem ownVisit (hd : p.document.Nested)
    (hp : p.document.isLive id = true → p.document.parent? id = some rule)
    (hk : p.document.kind rule = .ok (.rule selector)) (hs : Root.selectsRoot selector = false)
    (hr : Regular table p.document id) :
    OwnVisit table p.document rule selector id (p.visit table id).document := by
  cases hv : p.document.fontSize? id with
  | none =>
    have hpass : ∀ s : Sizing, s.Passes p.document id := fun s => by cases s <;> simp [Passes, hv]
    rw [visit_eq_of_passes hpass]
    exact .left (by simp [hv])
  | some value =>
    obtain ⟨o, ho, rfl⟩ := exists_offer hv
    obtain ⟨-, hplain | ⟨hms, hscope⟩ | ⟨exponent, ha, hrange⟩⟩ := hr o ho
    all_goals
      have hl := isLive_of_fontSize? hv
      have hattached : p.document.isAttached id = true := hd.isAttached_eq id ▸ hl
    · -- the nearest rule is not that of the root element
      have henc := enclosingRule?_of_parent hd.toWhole (hp hl) hk
      have hpass : ∀ s : Sizing, s.Passes p.document id := by
        obtain ⟨hm, ha⟩ := Bool.and_eq_true_iff.mp hplain
        intro s
        cases s with
        | measure => simpa [Passes, hv] using hm
        | step => simpa [Passes, hv] using ha
        | root => simp [Passes, henc, Root.isRuleOfRoot, hs]
      rw [visit_eq_of_passes hpass]
      exact .left fun value h => by rw [hv] at h; cases h; exact hplain
    · obtain ⟨exponent, he⟩ := Option.isSome_iff_exists.mp hms
      have hrun : Sizing.measure.run table p.document id =
          Measure.apply table p.document id exponent := by
        simp [Sizing.run, Measure.find, hv, he, Match.run]
      rw [visit, if_pos hattached]
      cases hrem : table.rem exponent none with
      | ok rem =>
        obtain ⟨e, hset⟩ := exists_setValue hl rem
        simp only [Measure.apply, hscope, Measure.target, hrem, hset, Result.ofEdit] at hrun
        rw [Sizing.all, document_offer_of_applied (by rw [hrun]), hrun]
        exact .converted hv he hrem hset
      | error error =>
        have hrm := remove_eq_ok (hd.ne_root_of_fontSize? hv) hl
        simp only [Measure.apply, hscope, Measure.target, hrem] at hrun
        rw [Sizing.all, document_offer_of_rejected hrun rfl hrm]
        exact .dropped hv he hrem hrm
    · obtain ⟨rem, hrem⟩ := hrange table.base (List.head_mem _)
      rw [Breakpoints.rem_base] at hrem
      obtain ⟨sizes, hsizes⟩ := Sizing.exists_sizes hrange
      obtain ⟨d₁, e, h₁, he, happly⟩ := Step.apply_eq hd hv (hp hl) hk hrem hsizes
      have hm : Sizing.measure.run table p.document id = .unchanged p.document .notApplicable :=
        run_of_passes (by simp [Passes, hv, exponent_eq_none ha])
      have hrun : Sizing.step.run table p.document id =
          Step.apply table p.document id exponent := by
        simp only [Sizing.run, Step.find, hv, Option.bind_some, ha, isNumber_of_rem hrem,
          ↓reduceIte, Match.run]
      rw [happly] at hrun
      rw [visit, if_pos hattached, Sizing.all, document_offer_of_passed hm,
        document_offer_of_applied (by rw [hrun]), hrun]
      exact .expanded hv ha hrem hsizes h₁ he

end Pass

namespace Sizing

theorem settled?_of_isPlain (h : Root.isPlain value = true) :
    settled? table value = some value := by
  simp only [Root.isPlain, Bool.and_eq_true, Option.isNone_iff_eq_none] at h
  simp only [settled?, h.1, h.2, Option.or_none]

theorem settled?_of_measure {exponent : String} (h : Measure.exponent? value = some exponent) :
    settled? table value = (table.rem exponent none).toOption := by
  simp only [settled?, h, Option.some_or]

theorem settled?_of_step {exponent : String} (h : Step.argument? value = some exponent) :
    settled? table value = (table.rem exponent none).toOption := by
  simp only [settled?, exponent_eq_none h, h, Option.none_or]

end Sizing

namespace Document

theorem fontSize?_of_not_isLive (h : d.isLive id = false) : d.fontSize? id = none := by
  cases hv : d.fontSize? id with
  | none => rfl
  | some value =>
    rw [isLive_of_fontSize? hv] at h
    cases h

/-- A new value leaves all nodes where they are. -/
theorem nodes_setValue (hd : d.Whole) (h : d.setValue id value = .ok e) :
    e.nodes = d.nodes ∧ e.next = d.next := by
  rw [(hd.setValue h).1.whole.nodes_eq, hd.nodes_eq]
  unfold Document.setValue at h
  split at h
  · cases h
  · obtain ⟨-, rfl⟩ := setKind_ok h
    exact ⟨Forest.numbers_modify _ fun _ => rfl, rfl⟩
  · cases h
    exact ⟨rfl, rfl⟩

end Document

/-- The visit gives the declaration its size. -/
theorem OwnVisit.fontSize?_eq (hd : d.Whole) (h : OwnVisit table d rule selector id e) :
    e.fontSize? id = (d.fontSize? id).bind (settled? table) := by
  cases h with
  | left hplain =>
    cases hv : d.fontSize? id with
    | none => rfl
    | some value => rw [Option.bind_some, settled?_of_isPlain (hplain value hv)]
  | converted hv hm hr he =>
    rw [fontSize?_setValue hv he, hv, Option.bind_some, settled?_of_measure hm, hr]
    rfl
  | dropped hv hm hr he =>
    have hgone : e.isLive id = false := by
      rw [Bool.eq_false_iff]
      intro hl
      exact (((hd.remove he).1.isLive id (isLive_of_fontSize? hv)).mp hl id rfl).1 rfl
    rw [fontSize?_of_not_isLive hgone, hv, Option.bind_some, settled?_of_measure hm, hr]
    rfl
  | expanded hv ha hr hs h₁ he =>
    have t₁ := (hd.insertNewAfter h₁).1
    have hl₁ := (t₁.isLive id (isLive_of_fontSize? hv)).mpr (by simp)
    have hv₁ := fontSize?_of_edited hd t₁ hl₁ hv
    rw [fontSize?_setValue hv₁ he, hv, Option.bind_some, settled?_of_step ha, hr]
    rfl

/-! ### The blocks behind the rule -/

/-- The nodes made for a rule that are there come behind it, with none above them but others that
were made and those above the rule. -/
structure Document.Trails (d : Document) (rule : NodeId) (made : List NodeId) : Prop where
  behind : ∀ x ∈ made, d.isLive x = true → [rule, x].Sublist d.nodes
  above : ∀ x ∈ made, d.isLive x = true → ∀ a ∈ d.ancestors x, a ∈ made ∨ a ∈ d.ancestors rule

/-- What was made for a rule is behind all that is below it. -/
theorem Document.Trails.notMem_upTo {made upTo behind : List NodeId} (h : d.Trails rule made)
    (hd : d.Whole) (hr : rule ∉ made) (hc : d.CutBehind rule upTo behind) :
    ∀ x ∈ upTo, x ∉ made := by
  intro x hx hm
  have hl : d.isLive x = true :=
    hd.mem_nodes_iff.mp (hc.nodes ▸ List.mem_append_left _ hx)
  have hnot : rule ∉ d.ancestors x := fun ha =>
    (h.above x hm hl rule ha).elim hr fun ha => (hd.not_above ha).1 rfl
  have hn : (upTo ++ behind).Nodup := hc.nodes ▸ hd.nodup_nodes
  exact List.disjoint_of_nodup_append hn hx (hc.mem_behind x (h.behind x hm hl) hnot)

/-- What the blocks of a rule offer. -/
def RuleView.blockOffers (v : RuleView) (d : Document) : List Offer :=
  v.offers d (d.nodes.filter (· ∈ v.made))

/-- What a step offers at the breakpoints that fit. -/
def RuleView.stepOffers (v : RuleView) (table : Breakpoints) (value : String) : List Offer :=
  match (Step.argument? value).map fun exponent => Step.sizes table exponent table.responsive with
  | some (.ok sizes) => (sizes.filter (·.1.width ≤ v.width)).map fun size => ⟨size.2, false⟩
  | _ => []

namespace RuleView

variable {v : RuleView} {d₁ : Document} {rem : String} {sizes : List (Breakpoint × String)}

/-- Where the nodes that were made stay and no more are made, they offer what they did. -/
theorem blockOffers_of_altered (hd : d.Whole) (h : Altered d e)
    (hlive : ∀ x ∈ v.made, e.isLive x = true ↔ d.isLive x = true)
    (hnode : ∀ x ∈ v.made, d.isLive x = true → e.node? x = d.node? x) :
    v.blockOffers e = v.blockOffers d := by
  have hnodes : e.nodes.filter (· ∈ v.made) = d.nodes.filter (· ∈ v.made) := by
    have hfilter := congrArg (List.filter (· ∈ v.made)) (h.filter_nodes hd)
    rw [List.filter_filter, List.filter_filter] at hfilter
    have hmem : ∀ x ∈ v.made, x ∈ e.nodes ↔ x ∈ d.nodes := by
      intro x hx
      rw [hd.mem_nodes_iff, h.whole.mem_nodes_iff]
      exact hlive x hx
    calc e.nodes.filter (· ∈ v.made)
        = e.nodes.filter fun x => decide (x ∈ v.made) && decide (x ∈ d.nodes) :=
          List.filter_congr fun x hx => by simpa using fun hm => (hmem x hm).mp hx
      _ = d.nodes.filter fun x => decide (x ∈ v.made) && decide (x ∈ e.nodes) := hfilter
      _ = d.nodes.filter (· ∈ v.made) :=
          List.filter_congr fun x hx => by simpa using fun hm => (hmem x hm).mpr hx
  rw [blockOffers, blockOffers, hnodes]
  refine offers_of_altered hd h fun x hx => ?_
  obtain ⟨hx, hm⟩ := List.mem_filter.mp hx
  have hm := of_decide_eq_true hm
  have hl := hd.mem_nodes_iff.mp hx
  exact ⟨hl, (hlive x hm).mpr hl, hnode x hm hl⟩

/-- The blocks of a step come before those that were there. -/
theorem blockOffers_of_expanded (hd : d.Whole) (ht : d.Trails rule v.made)
    (hold : rule ∉ v.made ∧ (∀ a ∈ d.ancestors rule, a ∉ v.made) ∧ id ∉ v.made)
    (hl : d.isLive rule = true) (hv : d.fontSize? id = some value)
    (h₁ : d.insertNewAfter rule (Step.blocks v.selector sizes) = .ok d₁)
    (he : d₁.setValue id rem = .ok e) (hnew : ∀ x, d.next ≤ x → x < e.next → x ∈ v.made)
    (hw : ∀ size ∈ sizes,
      Breakpoint.width? v.documentFontSize size.1.value.toList = some size.1.width) :
    v.blockOffers e =
      ((sizes.filter (·.1.width ≤ v.width)).map fun size => ⟨size.2, false⟩) ++
        v.blockOffers d := by
  obtain ⟨hrm, habove, hid⟩ := hold
  have t₁ := (hd.insertNewAfter h₁).1
  have t := (t₁.whole.setValue he).1
  have hv₁ := fontSize?_of_edited hd t₁ ((t₁.isLive id (isLive_of_fontSize? hv)).mpr (by simp)) hv
  have ha : Altered d e := (Altered.of_edited hd t₁).trans hd (.setValue t₁.whole hv₁ he)
  obtain ⟨hnodes, hnext⟩ := nodes_setValue t₁.whole he
  obtain ⟨upTo, behind, hc⟩ := hd.exists_cutBehind hl
  rw [hc.insertNewAfter _ _ h₁, ← next_insertNewAfter h₁] at hnodes
  have hnumbers : ∀ x ∈ ((Step.blocks v.selector sizes).number d.next).1.numbers,
      d.next ≤ x ∧ x ∈ v.made := by
    intro x hx
    have hr := hx
    rw [next_insertNewAfter h₁, List.mem_range'_1, Nat.add_sub_cancel' t₁.next_le] at hr
    exact ⟨hr.1, hnew x hr.1 (hnext ▸ hr.2)⟩
  have hupTo : upTo.filter (· ∈ v.made) = [] :=
    List.filter_eq_nil_iff.mpr fun x hx => by simpa using ht.notMem_upTo hd hrm hc x hx
  have hbehind : d.nodes.filter (· ∈ v.made) = behind.filter (· ∈ v.made) := by
    rw [hc.nodes, List.filter_append, hupTo, List.nil_append]
  have hall : ((Step.blocks v.selector sizes).number d.next).1.numbers.filter (· ∈ v.made) =
      ((Step.blocks v.selector sizes).number d.next).1.numbers :=
    List.filter_eq_self.mpr fun x hx => decide_eq_true (hnumbers x hx).2
  have hfirst : v.offers e ((Step.blocks v.selector sizes).number d.next).1.numbers =
      (sizes.filter (·.1.width ≤ v.width)).map fun size => ⟨size.2, false⟩ := by
    have hnotMem : id ∉ ((Step.blocks v.selector sizes).number d.next).1.numbers :=
      fun hm => hid (hnumbers id hm).2
    exact offers_blocks (fun x hx => (hnumbers x hx).2) habove hw
      ((Hosts.of_insertNewAfter hd h₁).edited t₁.whole t hnotMem)
  have hrest : v.offers e (d.nodes.filter (· ∈ v.made)) = v.blockOffers d := by
    refine offers_of_altered hd ha fun x hx => ?_
    obtain ⟨hx, hm⟩ := List.mem_filter.mp hx
    have hlx := hd.mem_nodes_iff.mp hx
    have hlx₁ := (t₁.isLive x hlx).mpr (by simp)
    have hlxe := (t.isLive x hlx₁).mpr (by simp)
    have hne : x ∉ [id] := by
      rw [List.mem_singleton]
      rintro rfl
      exact hid (of_decide_eq_true hm)
    have hlt := hd.lt_of_isLive hlx
    refine ⟨hlx, hlxe, ?_⟩
    rw [t.node x (Nat.lt_of_lt_of_le hlt t₁.next_le) hne hlxe,
      t₁.node x hlt List.not_mem_nil hlx₁]
  rw [blockOffers, hnodes, List.filter_append, List.filter_append, hupTo, hall, List.nil_append,
    ← hbehind, offers_append, hfirst, hrest]

end RuleView

namespace Document.Trails

variable {changed made : List NodeId} {lost : Option NodeId} {d₁ : Document} {rem : String}
  {sizes : List (Breakpoint × String)}

/-- An edit that makes no more nodes for the rule. -/
theorem of_edited (h : d.Trails rule made) (hd : d.Whole) (t : Edited changed lost d e)
    (hl : d.isLive rule = true) (hr : e.isLive rule = true)
    (hlive : ∀ x ∈ made, e.isLive x = true → d.isLive x = true) : e.Trails rule made := by
  constructor
  · intro x hx hlx
    exact t.pair hd hr hlx (h.behind x hx (hlive x hx hlx))
  · intro x hx hlx a ha
    have hlt := hd.lt_of_isLive (hlive x hx hlx)
    rw [t.ancestors x hlt hlx] at ha
    rw [t.ancestors rule (hd.lt_of_isLive hl) hr]
    exact h.above x hx (hlive x hx hlx) a ha

theorem of_expanded (h : d.Trails rule made) (hd : d.Whole) (hl : d.isLive rule = true)
    (hid : id ∉ made) (h₁ : d.insertNewAfter rule (Step.blocks selector sizes) = .ok d₁)
    (he : d₁.setValue id rem = .ok e) (hnew : ∀ x, d.next ≤ x → x < e.next → x ∈ made) :
    e.Trails rule made := by
  obtain ⟨t₁, hbehind⟩ := hd.insertNewAfter h₁
  obtain ⟨t, hback⟩ := t₁.whole.setValue he
  obtain ⟨hnodes, hnext⟩ := nodes_setValue t₁.whole he
  have t₂ := t₁.trans hd t
  have hr : e.isLive rule = true := (t₂.isLive rule hl).mpr (by simp)
  have hnumbers : ∀ x, x ∈ ((Step.blocks selector sizes).number d.next).1.numbers ↔
      d.next ≤ x ∧ x < e.next := by
    intro x
    rw [next_insertNewAfter h₁, List.mem_range'_1, Nat.add_sub_cancel' t₁.next_le, hnext]
  have hmade : ∀ x ∈ ((Step.blocks selector sizes).number d.next).1.numbers, x ∈ made :=
    fun x hx => hnew x ((hnumbers x).mp hx).1 ((hnumbers x).mp hx).2
  have hosts := (Hosts.of_insertNewAfter hd h₁).edited t₁.whole t fun hm => hid (hmade id hm)
  constructor
  · intro x hx hlx
    cases hold : d.isLive x with
    | true => exact t₂.pair hd hr hlx (h.behind x hx hold)
    | false =>
      rw [hnodes]
      exact hbehind x (hback x hlx) hold
  · intro x hx hlx a ha
    rw [t₂.ancestors rule (hd.lt_of_isLive hl) hr]
    by_cases hlt : x < d.next
    · rw [t₂.ancestors x hlt hlx] at ha
      exact h.above x hx (t₂.isLive_of_isLive hlt hlx) a ha
    · have hxn := (hnumbers x).mpr ⟨Nat.le_of_not_lt hlt, t.whole.lt_of_isLive hlx⟩
      obtain ⟨as, has⟩ := Option.isSome_iff_exists.mp (Forest.mem_numbers_iff_above.mp hxn)
      rw [hosts.ancestors x as has, List.mem_append] at ha
      refine ha.imp_left fun ha => hmade a ?_
      exact List.map_subset Prod.fst (Forest.above?_subset has) ha

/-- The nodes that were made stay as long as the rule does when an old node or one above it goes. -/
theorem isLive (h : d.Trails rule made) (t : Edited changed lost d e)
    (hlost : ∀ x ∈ lost, x = id ∨ x ∈ d.ancestors id)
    (hold : id ∉ made ∧ ∀ a ∈ d.ancestors id, a ∉ made) (hl : d.isLive rule = true)
    (hr : e.isLive rule = true) (hx : x ∈ made) (hlx : d.isLive x = true) :
    e.isLive x = true := by
  refine (t.isLive x hlx).mpr fun y hy => ?_
  have hym : y ∉ made := by
    rcases hlost y hy with rfl | ha
    · exact hold.1
    · exact hold.2 y ha
  refine ⟨fun e => hym (e ▸ hx), fun ha => ?_⟩
  rcases h.above x hx hlx y ha with hm | ha
  · exact hym hm
  · exact ((t.isLive rule hl).mp hr y hy).2 ha

end Document.Trails

/-- A visit that expands nothing makes no nodes. -/
theorem OwnVisit.unexpanded_or_expanded (hd : d.Whole)
    (h : OwnVisit table d rule selector id e) :
    (e.next = d.next ∧ ∀ value, d.fontSize? id = some value → Step.argument? value = none) ∨
      ∃ value exponent rem sizes d₁, d.fontSize? id = some value ∧
        Step.argument? value = some exponent ∧
        Step.sizes table exponent table.responsive = .ok sizes ∧
        d.insertNewAfter rule (Step.blocks selector sizes) = .ok d₁ ∧
        d₁.setValue id rem = .ok e := by
  have hmeasure : ∀ {value exponent : String}, d.fontSize? id = some value →
      Measure.exponent? value = some exponent →
        ∀ value', d.fontSize? id = some value' → Step.argument? value' = none := by
    intro value exponent hv hm value' hv'
    obtain rfl := Option.some.inj (hv.symm.trans hv')
    cases ha : Step.argument? value with
    | none => rfl
    | some argument =>
      rw [exponent_eq_none ha] at hm
      cases hm
  cases h with
  | left hplain =>
    refine .inl ⟨rfl, fun value hv => ?_⟩
    exact Option.isNone_iff_eq_none.mp (Bool.and_eq_true_iff.mp (hplain value hv)).2
  | converted hv hm _ he => exact .inl ⟨(nodes_setValue hd he).2, hmeasure hv hm⟩
  | dropped hv hm _ he =>
    obtain ⟨-, -, rfl⟩ := remove_ok he
    exact .inl ⟨rfl, hmeasure hv hm⟩
  | expanded hv ha _ hs h₁ he => exact .inr ⟨_, _, _, _, _, hv, ha, hs, h₁, he⟩

end ModularScale
