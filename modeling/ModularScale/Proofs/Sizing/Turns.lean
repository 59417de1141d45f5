import ModularScale.Proofs.Sizing.Frame
import ModularScale.Proofs.Sizing.Shape

/-! # Turns

The visits of a pass one by one. When its turn comes a declaration that is still there is what it
was at first, and so is the nearest rule around it, whatever was done to others before.
-/

namespace ModularScale

open Document Sizing

variable {table : Breakpoints} {p : Pass} {d e : Document} {id x : NodeId} {later : List NodeId}
  {value : String}

/-! ### What a declaration is -/

namespace Document

/-- Whether a node is a plain font size of the root element. -/
def isRootSize (d : Document) (id : NodeId) : Bool :=
  (d.fontSize? id).any Root.isPlain && (Root.enclosingRule? d id).any Root.isRuleOfRoot

/-- Whether a node is a font size that is written in one of the three ways. -/
def isSized (d : Document) (id : NodeId) : Bool :=
  (d.fontSize? id).any (!Root.isPlain ·) || d.isRootSize id

/-- A node has a font size of one of the three kinds, or each of them passes it over. -/
theorem isSized_eq_false : d.isSized id = false ↔ ∀ s : Sizing, s.Passes d id := by
  rw [isSized, Bool.or_eq_false_iff]
  have hplain : (d.fontSize? id).any (!Root.isPlain ·) = false ↔
      Sizing.measure.Passes d id ∧ Sizing.step.Passes d id := by
    cases hv : d.fontSize? id <;> simp [Passes, hv, Root.isPlain]
  rw [hplain]
  constructor
  · rintro ⟨⟨hm, hs⟩, hr⟩ s
    cases s with
    | measure => exact hm
    | step => exact hs
    | root => exact hr
  · intro h
    exact ⟨⟨h .measure, h .step⟩, h .root⟩

/-- Nothing is below a font size. -/
theorem Nested.notMem_ancestors (hd : d.Nested) {value : String}
    (hv : d.fontSize? id = some value) (x : NodeId) : id ∉ d.ancestors x := by
  induction has : d.ancestors x generalizing x with
  | nil => exact List.not_mem_nil
  | cons a as ih =>
    have hp : d.parent? x = some a := by rw [parent?, has, List.head?_cons]
    have ha : d.ancestors a = as := by
      rw [hd.ancestors_of_parent hp] at has
      exact (List.cons.inj has).2
    rw [List.mem_cons, not_or]
    refine ⟨?_, ih a ha⟩
    rintro rfl
    obtain ⟨n, hn⟩ := isLive_iff_node.mp (isLive_of_parent hp)
    obtain ⟨m, _, _, hm, hk, -⟩ := exists_of_fontSize? hv
    have hf := hd.fits hp hn hm
    rw [hk, Kind.inside_eq_leaf rfl, Kind.not_fits_leaf] at hf
    cases hf

theorem not_isRootSize_of_not_isPlain (hv : d.fontSize? id = some value)
    (hp : Root.isPlain value = false) : d.isRootSize id = false := by
  rw [isRootSize, hv, Option.any_some, hp, Bool.false_and]

/-- The nearest rule around a node that stands right in a rule is that rule. -/
theorem enclosingRule?_of_parent {selector : String} {rule : NodeId} (hd : d.Whole)
    (hp : d.parent? id = some rule) (hk : d.kind rule = .ok (.rule selector)) :
    Root.enclosingRule? d id = some (.rule selector) := by
  obtain ⟨n, hn, hkn⟩ := node?_of_kind hk
  rw [Root.enclosingRule?, hd.ancestors_of_parent hp]
  simp [hn, hkn, Root.isRule]

theorem isRootSize_of_parent (hd : d.Whole) {value selector : String} {rule : NodeId}
    (hv : d.fontSize? id = some value) (hplain : Root.isPlain value = true)
    (hp : d.parent? id = some rule) (hk : d.kind rule = .ok (.rule selector))
    (hr : Root.selectsRoot selector = true) : d.isRootSize id = true := by
  rw [isRootSize, hv, enclosingRule?_of_parent hd hp hk, Option.any_some, Option.any_some, hplain]
  exact hr

end Document

/-- What is taken is lost just if it is a plain font size of the root element. -/
theorem Sizing.Taken.edited {s : Sizing} {r : Result} (hd : d.Whole) (h : Taken table d id s r) :
    Edited [id] (if d.isRootSize id then some id else none) d r.document := by
  cases h with
  | measured hv _ _ _ he =>
    obtain ⟨value, hf, hm⟩ := Option.bind_eq_some_iff.mp hv
    have hr := not_isRootSize_of_not_isPlain hf (by simp [Root.isPlain, hm])
    rw [hr]
    exact (hd.setValue he).1
  | stepped hv _ _ _ _ h₁ he =>
    obtain ⟨value, hf, ha⟩ := Option.bind_eq_some_iff.mp hv
    have hr := not_isRootSize_of_not_isPlain hf (by simp [Root.isPlain, ha])
    have t₁ := (hd.insertNewAfter h₁).1
    rw [hr]
    exact t₁.trans hd (t₁.whole.setValue he).1
  | rooted hv hp hk hsel h₁ h₂ he =>
    obtain ⟨value, hf, hplain⟩ := (Option.any_eq_true _ _).mp hv
    have t₁ := (hd.insertNewAfter h₁).1
    have t₂ := t₁.trans hd (t₁.whole.insertNewBefore h₂).1
    rw [isRootSize_of_parent hd hf hplain hp hk hsel]
    exact (t₂.trans hd (t₂.whole.replaceWithNew he).1).mono (List.nil_subset _)
  | dropped hv hr he =>
    have hroot : d.isRootSize id = true := Bool.and_eq_true_iff.mpr ⟨hv, hr⟩
    rw [hroot]
    exact (hd.remove he).1.mono (List.nil_subset _)

/-- A visit loses no more than the declaration or a node above it, with all below that. -/
theorem Pass.Turned.edited {q : Pass} {o : Outcome} (hd : p.document.Nested)
    (h : Turned table id p o q) : ∃ lost, Edited [id] lost p.document q.document ∧
      ∀ x ∈ lost, x = id ∨ x ∈ p.document.ancestors id := by
  cases h with
  | passed => exact ⟨none, (Edited.refl hd.toWhole).mono (List.nil_subset _), nofun⟩
  | taken _ _ ht =>
    refine ⟨_, ht.edited hd.toWhole, fun x hx => .inl ?_⟩
    split at hx
    · exact (Option.some.inj hx).symm
    · cases hx
  | @refused s r _ _ hr =>
    obtain ⟨x, e, _, hx, he, -, hq⟩ :=
      reject_of_removes (p := p.note [.rejected s]) hr (p.document.line? id)
    obtain ⟨y, hy, -, -, habove⟩ := hr.excise
    obtain rfl : x = y := Option.some.inj (hx.symm.trans hy)
    rw [hq]
    refine ⟨some x, (hd.toWhole.remove he).1.mono (List.nil_subset _), ?_⟩
    rintro _ ⟨⟩
    exact habove

theorem Node.Resized.isRule_eq {n m : Node} (h : n.Resized m) :
    Root.isRule m.kind = Root.isRule n.kind ∧ (Root.isRule n.kind = true → m.kind = n.kind) := by
  cases h with
  | refl => exact ⟨rfl, fun _ => rfl⟩
  | value => exact ⟨rfl, nofun⟩

namespace Document

/-- The nodes above a node are the same as before, but for the values of font sizes. -/
theorem Altered.above (h : Altered d e) (hd : d.Whole) (hl : d.isLive id = true)
    (hl' : e.isLive id = true) : e.ancestors id = d.ancestors id ∧
      ∀ a ∈ d.ancestors id, ∃ n m, d.node? a = some n ∧ e.node? a = some m ∧ n.Resized m := by
  obtain ⟨_, k⟩ := h.keeps
  have hup := k.ancestors id (hd.lt_of_isLive hl) hl'
  refine ⟨hup, fun a ha => ?_⟩
  obtain ⟨n, hn⟩ := isLive_iff_node.mp (isLive_of_mem_ancestors ha)
  obtain ⟨m, hm⟩ := isLive_iff_node.mp (isLive_of_mem_ancestors (hup ▸ ha))
  exact ⟨n, m, hn, hm, h.node a n m hn hm⟩

/-- Only values of font sizes are changed, so the nearest rule around a node is what it was. -/
theorem Altered.enclosingRule?_eq (h : Altered d e) (hd : d.Whole) (hl : d.isLive id = true)
    (hl' : e.isLive id = true) : Root.enclosingRule? e id = Root.enclosingRule? d id := by
  obtain ⟨hup, hnode⟩ := h.above hd hl hl'
  rw [Root.enclosingRule?, Root.enclosingRule?, hup]
  generalize d.ancestors id = as at hnode
  induction as with
  | nil => rfl
  | cons a as ih =>
    obtain ⟨⟨n, m, hn, hm, hr⟩, has⟩ := List.forall_mem_cons.mp hnode
    obtain ⟨hrule, hkind⟩ := hr.isRule_eq
    simp only [List.filterMap_cons, hn, hm, Option.map_some, List.find?_cons, hrule, ih has]
    split
    case h_1 ht => rw [hkind ht]
    case h_2 => rfl

/-- So is the scope of a node. -/
theorem Altered.resolve_eq (h : Altered d e) (hd : d.Whole) (hl : d.isLive id = true)
    (hl' : e.isLive id = true) : Scope.resolve e id = Scope.resolve d id := by
  obtain ⟨hup, hnode⟩ := h.above hd hl hl'
  rw [Scope.resolve, Scope.resolve, hup]
  generalize d.ancestors id = as at hnode
  clear hl hl' hup
  induction as generalizing id with
  | nil => rfl
  | cons a as ih =>
    obtain ⟨⟨n, m, hn, hm, hr⟩, has⟩ := List.forall_mem_cons.mp hnode
    rw [Scope.search, Scope.search, kind_of_node? hn, kind_of_node? hm]
    cases hr with
    | refl => rw [@ih a has]
    | value => exact @ih a has

/-- Those of some old nodes that are still there are in their old order. -/
theorem Altered.filter_sublist (h : Altered d e) (hd : d.Whole) {ids : List NodeId}
    (hs : ids.Sublist d.nodes) : e.nodes.filter (· ∈ ids) = ids.filter (· ∈ e.nodes) := by
  have hn : d.nodes.Nodup := hd.nodes_eq ▸ hd.nodup
  calc e.nodes.filter (· ∈ ids)
      = (e.nodes.filter (· ∈ d.nodes)).filter (· ∈ ids) := by
        rw [List.filter_filter]
        exact List.filter_congr fun x _ => by simpa using fun hm => hs.subset hm
    _ = (d.nodes.filter (· ∈ ids)).filter (· ∈ e.nodes) := by
        rw [h.filter_nodes hd, List.filter_comm]
    _ = ids.filter (· ∈ e.nodes) := by rw [filter_mem_of_sublist hs hn]

end Document

/-! ### The turns of a pass -/

namespace Pass

/-- The pass before each visit, with the declaration that is visited. -/
def turns (table : Breakpoints) (p : Pass) : List NodeId → List (Pass × NodeId)
  | [] => []
  | id :: later => (p, id) :: turns table (p.visit table id) later

theorem map_snd_turns (table : Breakpoints) (p : Pass) (ids : List NodeId) :
    (turns table p ids).map Prod.snd = ids := by
  induction ids generalizing p with
  | nil => rfl
  | cons id ids ih => rw [turns, List.map_cons, ih]

/-- What a pass over some document has come to when the turn of a declaration comes. -/
structure AtTurn (d : Document) (p : Pass) (id : NodeId) : Prop where
  nested : p.document.Nested
  altered : Altered d p.document
  node : p.document.isLive id = true → p.document.node? id = d.node? id
  lt_next : id < d.next

namespace AtTurn

theorem isLive (h : AtTurn d p id) (hl : p.document.isLive id = true) : d.isLive id = true := by
  obtain ⟨_, k⟩ := h.altered.keeps
  exact k.isLive_of_isLive h.lt_next hl

theorem fontSize?_eq (h : AtTurn d p id) (hl : p.document.isLive id = true) :
    p.document.fontSize? id = d.fontSize? id := by
  rw [fontSize?, h.node hl, fontSize?]

theorem isRootSize_eq (h : AtTurn d p id) (hd : d.Whole) (hl : p.document.isLive id = true) :
    p.document.isRootSize id = d.isRootSize id := by
  rw [isRootSize, h.fontSize?_eq hl, h.altered.enclosingRule?_eq hd (h.isLive hl) hl, isRootSize]

theorem isSized_eq (h : AtTurn d p id) (hd : d.Whole) (hl : p.document.isLive id = true) :
    p.document.isSized id = d.isSized id := by
  rw [isSized, h.fontSize?_eq hl, h.isRootSize_eq hd hl, isSized]

theorem parent?_eq (h : AtTurn d p id) (hl : p.document.isLive id = true) :
    p.document.parent? id = d.parent? id := by
  obtain ⟨_, k⟩ := h.altered.keeps
  rw [parent?, k.ancestors id h.lt_next hl, parent?]

theorem measure_outcome (h : AtTurn d p id) (hd : d.Nested) (hl : p.document.isLive id = true)
    (exponent : String) : (Measure.apply table p.document id exponent).outcome =
      (Measure.apply table d id exponent).outcome := by
  have hld := h.isLive hl
  unfold Measure.apply
  rw [h.altered.resolve_eq hd.toWhole hld hl]
  cases Scope.resolve d id with
  | error e => rfl
  | ok scope =>
    simp only
    cases Measure.target table scope with
    | error r => rfl
    | ok name =>
      simp only
      cases table.rem exponent name with
      | error e => rfl
      | ok rem =>
        obtain ⟨e, he⟩ := exists_setValue hl rem
        obtain ⟨e', he'⟩ := exists_setValue hld rem
        simp only [he, he', Result.ofEdit]

theorem step_outcome (h : AtTurn d p id) (hd : d.Nested) (hv : p.document.fontSize? id = some value)
    (exponent : String) : (Step.apply table p.document id exponent).outcome =
      (Step.apply table d id exponent).outcome := by
  have hl := isLive_of_fontSize? hv
  have hp := h.parent?_eq hl
  obtain ⟨parent, kind, hpp, hpk, -, -⟩ := h.nested.parent_of_fontSize? hv
  have hpd : d.parent? id = some parent := hp ▸ hpp
  obtain ⟨m, hm, rfl⟩ := node?_of_kind hpk
  obtain ⟨n, hn⟩ := isLive_iff_node.mp (isLive_of_mem_ancestors (mem_ancestors_of_parent hpd))
  have hselector : Step.selectorOf parent m.kind = Step.selectorOf parent n.kind := by
    cases h.altered.node parent n m hn hm <;> rfl
  cases hs : Step.selectorOf parent n.kind with
  | error r =>
    simp only [Step.apply, hpp, hpd, hpk, kind_of_node? hn, hselector, hs]
    rfl
  | ok selector =>
    have hmk := selectorOf_ok (hselector.trans hs)
    have hnk := selectorOf_ok hs
    rw [hmk] at hpk
    have hnk : d.kind parent = .ok (.rule selector) := by rw [kind_of_node? hn, hnk]
    cases hrem : table.rem exponent none with
    | error e => simp only [Step.apply, hpp, hpd, hpk, hnk, Step.selectorOf, hrem]; rfl
    | ok rem =>
      cases hsizes : Step.sizes table exponent table.responsive with
      | error e => simp only [Step.apply, hpp, hpd, hpk, hnk, Step.selectorOf, hrem, hsizes]; rfl
      | ok sizes =>
        obtain ⟨_, _, -, -, ha⟩ := Step.apply_eq h.nested hv hpp hpk hrem hsizes
        obtain ⟨_, _, -, -, ha'⟩ :=
          Step.apply_eq hd (h.fontSize?_eq hl ▸ hv) hpd hnk hrem hsizes
        rw [ha, ha']

/-- What comes of a declaration at its turn is what would have come of it at first. -/
theorem run_outcome (h : AtTurn d p id) (hd : d.Nested) (hl : p.document.isLive id = true)
    (s : Sizing) : (s.run table p.document id).outcome = (s.run table d id).outcome := by
  have hf := h.fontSize?_eq hl
  cases s with
  | measure =>
    simp only [Sizing.run, Measure.find, hf]
    cases (d.fontSize? id).bind Measure.exponent? with
    | none => rfl
    | some exponent => exact h.measure_outcome hd hl exponent
  | step =>
    simp only [Sizing.run, Step.find, hf, h.parent?_eq hl]
    cases hv : (d.fontSize? id).bind Step.argument? with
    | none => rfl
    | some argument =>
      obtain ⟨value, hv, -⟩ := Option.bind_eq_some_iff.mp hv
      simp only
      split
      · exact h.step_outcome hd (hf.trans hv) argument
      · rfl
  | root =>
    have hfind : Root.find p.document id = Root.find d id := by
      rw [Root.find, hf, h.altered.enclosingRule?_eq hd.toWhole (h.isLive hl) hl, Root.find]
    simp only [Sizing.run, hfind]
    cases hr : Root.find d id with
    | absent => rfl
    | present u =>
      have t : Taken table p.document id root (Root.apply table p.document id) :=
        Root.taken h.nested (hfind.trans hr)
      have t' : Taken table d id root (Root.apply table d id) := Root.taken hd hr
      exact t.outcome_eq.trans t'.outcome_eq.symm
    | invalid r => rfl

theorem outcome_eq (h : AtTurn d p id) (hd : d.Nested) (hl : p.document.isLive id = true) :
    p.outcome table id = firstOutcome table d id Sizing.all := by
  have hattached : p.document.isAttached id = true := h.nested.isAttached_eq id ▸ hl
  rw [outcome, if_pos hattached]
  generalize Sizing.all = sizings
  induction sizings with
  | nil => rfl
  | cons s rest ih => simp only [firstOutcome, h.run_outcome hd hl s, ih]

end AtTurn

/-- Visits of other declarations leave those still to be visited as they were. -/
theorem atTurn_of_mem_turns {visited : List NodeId} (hd : d.Whole) (hp : p.Orderly)
    (ha : Altered d p.document) (hk : Keeps visited d p.document)
    (hn : (visited ++ later).Nodup) (hlt : ∀ id ∈ later, id < d.next) :
    ∀ turn ∈ turns table p later, AtTurn d turn.1 turn.2 := by
  induction later generalizing p visited with
  | nil => exact List.forall_mem_nil _
  | cons id later ih =>
    obtain ⟨hid, hlater⟩ := List.forall_mem_cons.mp hlt
    have hnot : id ∉ visited := fun hm =>
      List.disjoint_of_nodup_append hn hm List.mem_cons_self
    have hv := visit_altered hp.nested.toWhole table id
    obtain ⟨lost, t, -⟩ := (visit_visited table id hp.nested.toWhole).edited
    refine List.forall_mem_cons.mpr ⟨⟨hp.nested, ha, hk.node id hid hnot, hid⟩, ?_⟩
    refine ih (hp.visit table id) (ha.trans hd hv) (hk.trans t.toKeeps) ?_ hlater
    rwa [List.append_assoc]

theorem atTurn_of_mem (hd : d.Nested) :
    ∀ turn ∈ turns table (start d) d.declarations, AtTurn d turn.1 turn.2 := by
  refine atTurn_of_mem_turns (p := start d) hd.toWhole (start_orderly hd)
    (.refl hd.toWhole) (.refl d) (nodup_declarations hd.toWhole) fun id hm => ?_
  obtain ⟨n, hn, -⟩ := declaration_of_mem_declarations hd.toWhole hm
  exact hd.lt_of_isLive (isLive_iff_node.mpr ⟨n, hn⟩)

end Pass

end ModularScale
