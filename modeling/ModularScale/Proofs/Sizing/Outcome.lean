import ModularScale.Proofs.Document.Nesting
import ModularScale.Proofs.Sizing.Visit

/-! # Outcomes

All that can come of a visit. In a document whose nodes stand where they can no edit fails, so a
declaration is passed over, taken, or rejected along with a node to be removed.
-/

namespace ModularScale

open Document

variable {table : Breakpoints} {d e : Document} {id x parent : NodeId} {value : String}

namespace Document

/-! ### Edits that do not fail -/

theorem checkAnchor_eq_ok (h : d.parent? id = some parent) : d.checkAnchor id = .ok () := by
  simp [checkAnchor, checkLive, isLive_of_parent h, h, bind, Except.bind, pure, Except.pure]

theorem exists_insertNew
    (insert : Forest (NodeId × Node) → Forest (NodeId × Node) → Forest (NodeId × Node))
    (h : d.parent? id = some parent) (new : Forest Node) :
    ∃ e, insertNew insert d id new = .ok e := by
  unfold insertNew
  split
  · exact ⟨d, rfl⟩
  · rw [checkAnchor_eq_ok h]
    exact ⟨_, rfl⟩

theorem exists_insertNewAfter (h : d.parent? id = some parent) (new : Forest Node) :
    ∃ e, d.insertNewAfter id new = .ok e :=
  exists_insertNew (Forest.insertAfter (isNode id)) h new

theorem exists_insertNewBefore (h : d.parent? id = some parent) (new : Forest Node) :
    ∃ e, d.insertNewBefore id new = .ok e :=
  exists_insertNew (Forest.insertBefore (isNode id)) h new

theorem exists_replaceWithNew (h : d.parent? id = some parent) (hr : id ≠ root) (node : Node) :
    ∃ e, d.replaceWithNew id node = .ok e := by
  obtain ⟨d', hd'⟩ := exists_insertNewBefore h (.single node .nil)
  unfold replaceWithNew
  rw [if_neg hr]
  simp only [hd', bind, Except.bind, pure, Except.pure]
  exact ⟨_, rfl⟩

theorem exists_setValue (h : d.isLive id = true) (value : String) :
    ∃ e, d.setValue id value = .ok e := by
  obtain ⟨n, hn⟩ := isLive_iff_node.mp h
  unfold setValue
  rw [kind_of_node? hn]
  split
  case h_1 => contradiction
  case h_2 => simp [setKind, h]
  case h_3 => exact ⟨d, rfl⟩

namespace Nested

theorem ne_root_of_fontSize? (hd : d.Nested) (h : d.fontSize? id = some value) : id ≠ root := by
  rintro rfl
  obtain ⟨n, _, _, hn, hk, -⟩ := exists_of_fontSize? h
  have hr := hd.kind_root
  rw [kind_of_node? hn, hk] at hr
  cases hr

theorem ne_root (hd : d.Nested) {kind : Kind} (hk : d.kind x = .ok kind) (h : kind ≠ .root) :
    x ≠ root := by
  rintro rfl
  rw [hd.kind_root] at hk
  cases hk
  exact h rfl

/-- A font size stands in a rule or in the block of an at-rule. -/
theorem parent_of_fontSize? (hd : d.Nested) (h : d.fontSize? id = some value) :
    ∃ parent kind, d.parent? id = some parent ∧ d.kind parent = .ok kind ∧
      kind.inside = .block ∧ parent ≠ root := by
  have hl := isLive_of_fontSize? h
  obtain ⟨parent, hp⟩ :=
    Option.isSome_iff_exists.mp (hd.parent_isSome hl (hd.ne_root_of_fontSize? h))
  obtain ⟨n, property, important, hn, hk, -⟩ := exists_of_fontSize? h
  obtain ⟨m, hm⟩ := node_parent hp
  have hf := hd.fits hp hn hm
  rw [hk, Kind.fits, decide_eq_true_eq] at hf
  have hk := kind_of_node? hm
  exact ⟨parent, m.kind, hp, hk, hf, hd.ne_root hk fun h => by rw [h] at hf; cases hf⟩

end Nested

end Document

/-- An error that tells of a node in a place where it cannot stand. -/
def SizingError.isMisplaced : SizingError → Bool
  | tree _ => true
  | stepOutsideRule place => place = "the stylesheet root"
  | _ => false

/-- A rejection that is not due to the shape of the document, and removes the declaration or a node
around it. -/
structure Rejection.Removes (d : Document) (id : NodeId) (r : Rejection) : Prop where
  cause : r.cause.isMisplaced = false
  excise : ∃ x, r.excise = some x ∧ x ≠ root ∧ d.isLive x = true ∧ (x = id ∨ x ∈ d.ancestors id)

namespace Sizing

/-- The declaration is not of a kind that is dealt with in this way. -/
def Passes (d : Document) (id : NodeId) : Sizing → Prop
  | measure => (d.fontSize? id).bind Measure.exponent? = none
  | step => (d.fontSize? id).bind Step.argument? = none
  | root =>
    ((d.fontSize? id).any Root.isPlain && (Root.enclosingRule? d id).any Root.isRuleOfRoot) = false

/-- What comes of a declaration that is taken. -/
inductive Taken (table : Breakpoints) (d : Document) (id : NodeId) : Sizing → Result → Prop
  | measured {exponent rem : String} {scope : Scope} {name : Option String} {e : Document} :
    (d.fontSize? id).bind Measure.exponent? = some exponent → Scope.resolve d id = .ok scope →
    Measure.target table scope = .ok name → table.rem exponent name = .ok rem →
    d.setValue id rem = .ok e →
    Taken table d id measure ⟨.applied, e, [.converted exponent rem scope]⟩
  | stepped {exponent rem selector : String} {rule : NodeId} {sizes : List (Breakpoint × String)}
      {d₁ e : Document} :
    (d.fontSize? id).bind Step.argument? = some exponent → d.parent? id = some rule →
    d.kind rule = .ok (.rule selector) → table.rem exponent none = .ok rem →
    Step.sizes table exponent table.responsive = .ok sizes →
    d.insertNewAfter rule (Step.blocks selector sizes) = .ok d₁ → d₁.setValue id rem = .ok e →
    Taken table d id step
      ⟨.applied, e, Step.events exponent selector sizes ++ [.expanded exponent rem selector]⟩
  | rooted {selector : String} {rule : NodeId} {d₁ d₂ e : Document} :
    (d.fontSize? id).any Root.isPlain = true → d.parent? id = some rule →
    d.kind rule = .ok (.rule selector) → Root.selectsRoot selector = true →
    d.insertNewAfter rule (Root.blocks table.scale table.responsive) = .ok d₁ →
    d₁.insertNewBefore id (Root.widthProperties table.responsive) = .ok d₂ →
    d₂.replaceWithNew id (Template.fontSize (table.scale.percentage table.base.root)) = .ok e →
    Taken table d id root ⟨.applied, e, [.rootSized (table.scale.percentage table.base.root)]⟩
  | dropped {e : Document} :
    (d.fontSize? id).any Root.isPlain = true →
    (Root.enclosingRule? d id).any Root.isRuleOfRoot = true → d.remove id = .ok e →
    Taken table d id root ⟨.applied, e, [.nestedRootDropped]⟩

theorem Taken.outcome_eq {s : Sizing} {r : Result} (h : Taken table d id s r) :
    r.outcome = .applied := by
  cases h <;> rfl

/-- All that can come of offering a declaration. -/
inductive Offered (table : Breakpoints) (d : Document) (id : NodeId) (s : Sizing) : Result → Prop
  | passed : s.Passes d id → Offered table d id s (.unchanged d .notApplicable)
  | taken {r : Result} : Taken table d id s r → Offered table d id s r
  | refused {r : Rejection} : r.Removes d id → Offered table d id s (.rejected d r)

theorem resolve_ok (hd : d.Nested) (h : d.isLive id = true) (hr : id ≠ Document.root) :
    ∃ scope, Scope.resolve d id = .ok scope ∧
      ∀ a name params, scope = .atRule a name params → a ∈ d.ancestors id ∧ a ≠ Document.root := by
  have hroot := hd.root_mem_ancestors h hr
  have hlive : ∀ a ∈ d.ancestors id, d.isLive a = true := fun a => isLive_of_mem_ancestors
  unfold Scope.resolve
  generalize d.ancestors id = as at hroot hlive
  clear h hr
  induction as generalizing id with
  | nil => cases hroot
  | cons b bs ih =>
    obtain ⟨n, hn⟩ := isLive_iff_node.mp (hlive b List.mem_cons_self)
    have hk := kind_of_node? hn
    have hbelow : n.kind ≠ .root → Document.root ∈ bs := by
      intro hne
      rcases List.mem_cons.mp hroot with he | hm
      · rw [← he, hd.kind_root, Except.ok.injEq] at hk
        exact absurd hk.symm hne
      · exact hm
    have hrec : n.kind ≠ .root → _ := fun hne =>
      @ih b (hbelow hne) fun a ha => hlive a (List.mem_cons_of_mem b ha)
    unfold Scope.search
    rw [hk]
    cases hnk : n.kind with
    | root => exact ⟨.root, rfl, by rintro _ _ _ ⟨⟩⟩
    | atRule name params afterName hasBlock =>
      refine ⟨_, rfl, ?_⟩
      rintro _ _ _ ⟨⟩
      exact ⟨List.mem_cons_self, hd.ne_root hk (by simp [hnk])⟩
    | rule selector =>
      obtain ⟨scope, hs, ha⟩ := hrec (by simp [hnk])
      exact ⟨scope, hs, fun a n p h => (ha a n p h).imp_left (List.mem_cons_of_mem b)⟩
    | declaration property value important =>
      obtain ⟨scope, hs, ha⟩ := hrec (by simp [hnk])
      exact ⟨scope, hs, fun a n p h => (ha a n p h).imp_left (List.mem_cons_of_mem b)⟩
    | comment text =>
      obtain ⟨scope, hs, ha⟩ := hrec (by simp [hnk])
      exact ⟨scope, hs, fun a n p h => (ha a n p h).imp_left (List.mem_cons_of_mem b)⟩

theorem Measure.offered (hd : d.Nested) {exponent : String}
    (hv : (d.fontSize? id).bind Measure.exponent? = some exponent) :
    Offered table d id measure (Measure.apply table d id exponent) := by
  obtain ⟨value, hf, -⟩ := Option.bind_eq_some_iff.mp hv
  have hl := isLive_of_fontSize? hf
  have hr := hd.ne_root_of_fontSize? hf
  obtain ⟨scope, hs, ha⟩ := resolve_ok hd hl hr
  unfold Measure.apply
  rw [hs]
  simp only
  cases ht : Measure.target table scope with
  | error rejection =>
    obtain ⟨a, name, params, rfl, hx⟩ := target_error ht
    obtain ⟨ha, hne⟩ := ha a name params rfl
    refine .refused ⟨?_, a, hx, hne, isLive_of_mem_ancestors ha, .inr ha⟩
    simp only [Measure.target] at ht
    split at ht
    · cases ht; rfl
    · split at ht
      · cases ht
      · cases ht; rfl
  | ok name =>
    simp only
    cases hm : table.rem exponent name with
    | error e => exact .refused ⟨rfl, id, rfl, hr, hl, .inl rfl⟩
    | ok rem =>
      obtain ⟨e, he⟩ := exists_setValue hl rem
      simp only [he, Result.ofEdit]
      exact .taken (.measured hv hs ht hm he)

theorem stepOutsideRule_ne (name : String) : "@" ++ name ≠ "the stylesheet root" := by
  intro h
  have hc := congrArg (fun s => s.toList.head?) h
  simp at hc

/-- A step that has a size at each breakpoint is expanded if it stands in a rule. -/
theorem Step.apply_eq (hd : d.Nested) (hf : d.fontSize? id = some value)
    {exponent rem selector : String} {rule : NodeId} {sizes : List (Breakpoint × String)}
    (hp : d.parent? id = some rule) (hk : d.kind rule = .ok (.rule selector))
    (hr : table.rem exponent none = .ok rem)
    (hs : Step.sizes table exponent table.responsive = .ok sizes) :
    ∃ d₁ e, d.insertNewAfter rule (Step.blocks selector sizes) = .ok d₁ ∧
      d₁.setValue id rem = .ok e ∧ Step.apply table d id exponent =
        ⟨.applied, e, Step.events exponent selector sizes ++ [.expanded exponent rem selector]⟩ := by
  have hne : rule ≠ Document.root := hd.ne_root hk (by simp)
  have hrl := isLive_of_mem_ancestors (mem_ancestors_of_parent hp)
  obtain ⟨_, hpp⟩ := Option.isSome_iff_exists.mp (hd.parent_isSome hrl hne)
  obtain ⟨d₁, h₁⟩ := exists_insertNewAfter hpp (Step.blocks selector sizes)
  have t := (hd.toWhole.insertNewAfter h₁).1
  obtain ⟨e, he⟩ := exists_setValue ((t.isLive id (isLive_of_fontSize? hf)).mpr (by simp)) rem
  refine ⟨d₁, e, h₁, he, ?_⟩
  simp only [Step.apply, hp, hk, Step.selectorOf, hr, hs, h₁, he, Result.ofEdit]

theorem Step.offered (hd : d.Nested) {exponent : String}
    (hv : (d.fontSize? id).bind Step.argument? = some exponent) :
    Offered table d id step (Step.apply table d id exponent) := by
  obtain ⟨value, hf, -⟩ := Option.bind_eq_some_iff.mp hv
  obtain ⟨rule, kind, hp, hk, hb, hne⟩ := hd.parent_of_fontSize? hf
  have hm := mem_ancestors_of_parent hp
  have hrl := isLive_of_mem_ancestors hm
  have hrefused : ∀ cause : SizingError, cause.isMisplaced = false →
      Offered table d id step (.rejected d (.excising rule cause)) := fun cause hc =>
    .refused ⟨hc, rule, rfl, hne, hrl, .inr hm⟩
  cases kind with
  | rule selector =>
    cases hr : table.rem exponent none with
    | error e =>
      simp only [Step.apply, hp, hk, Step.selectorOf, hr]
      exact hrefused _ rfl
    | ok rem =>
    cases hs : Step.sizes table exponent table.responsive with
    | error e =>
      simp only [Step.apply, hp, hk, Step.selectorOf, hr, hs]
      exact hrefused _ rfl
    | ok sizes =>
      obtain ⟨d₁, e, h₁, he, happly⟩ := Step.apply_eq hd hf hp hk hr hs
      rw [happly]
      exact .taken (.stepped hv hp hk hr hs h₁ he)
  | atRule name params afterName hasBlock =>
    simp only [Step.apply, hp, hk, Step.selectorOf]
    exact hrefused _ (decide_eq_false (stepOutsideRule_ne name))
  | _ => cases hb

/-- A plain size of the root element is always taken. -/
theorem Root.taken (hd : d.Nested) {u : Unit} (h : Root.find d id = .present u) :
    Taken table d id root (Root.apply table d id) := by
  unfold Root.find at h
  split at h
  case isFalse => cases h
  case isTrue hfind =>
    obtain ⟨hany, hrule⟩ := Bool.and_eq_true_iff.mp hfind
    obtain ⟨value, hf, -⟩ := (Option.any_eq_true _ _).mp hany
    have hl := isLive_of_fontSize? hf
    have hid := hd.ne_root_of_fontSize? hf
    obtain ⟨rule, kind, hp, hk, hb, hne⟩ := hd.parent_of_fontSize? hf
    have hrl := isLive_of_mem_ancestors (mem_ancestors_of_parent hp)
    unfold Root.apply
    simp only [hp, hk]
    cases hsel : Root.isRuleOfRoot kind with
    | false =>
      have he := remove_eq_ok hid hl
      simp only [Bool.false_eq_true, ↓reduceIte, he, Result.ofEdit]
      exact .dropped hany hrule he
    | true =>
      obtain ⟨selector, rfl⟩ := isRuleOfRoot_rule hsel
      obtain ⟨_, hpp⟩ := Option.isSome_iff_exists.mp (hd.parent_isSome hrl hne)
      obtain ⟨d₁, h₁⟩ := exists_insertNewAfter hpp (Root.blocks table.scale table.responsive)
      have t₁ := (hd.toWhole.insertNewAfter h₁).1
      have hp₁ : d₁.parent? id = some rule := by
        rw [parent?, t₁.ancestors_eq hd.toWhole hl]
        exact hp
      obtain ⟨d₂, h₂⟩ := exists_insertNewBefore hp₁ (Root.widthProperties table.responsive)
      have t₂ := (t₁.whole.insertNewBefore h₂).1
      have hp₂ : d₂.parent? id = some rule := by
        rw [parent?, t₂.ancestors_eq t₁.whole (isLive_of_parent hp₁)]
        exact hp₁
      obtain ⟨e, he⟩ := exists_replaceWithNew hp₂ hid
        (Template.fontSize (table.scale.percentage table.base.root))
      simp only [↓reduceIte, Root.expand, h₁, h₂, he, Result.ofEdit]
      exact .rooted hany hp hk hsel h₁ h₂ he

/-- In a document whose nodes stand where they can there is no failure of an edit. -/
theorem run_offered (hd : d.Nested) (s : Sizing) : Offered table d id s (s.run table d id) := by
  cases s with
  | measure =>
    simp only [run, Measure.find]
    cases h : (d.fontSize? id).bind Measure.exponent? with
    | none => exact .passed h
    | some exponent => exact Measure.offered hd h
  | step =>
    simp only [run, Step.find]
    cases h : (d.fontSize? id).bind Step.argument? with
    | none => exact .passed h
    | some argument =>
      simp only
      split
      · exact Step.offered hd h
      · obtain ⟨value, hf, -⟩ := Option.bind_eq_some_iff.mp h
        obtain ⟨rule, _, hp, -, -, hne⟩ := hd.parent_of_fontSize? hf
        have hm := mem_ancestors_of_parent hp
        exact .refused ⟨rfl, rule, hp, hne, isLive_of_mem_ancestors hm, .inr hm⟩
  | root =>
    simp only [run]
    cases h : Root.find d id with
    | absent =>
      refine .passed ?_
      unfold Root.find at h
      split at h
      case isTrue => cases h
      case isFalse hn => exact (Bool.not_eq_true _).mp hn
    | present u => exact .taken (Root.taken hd h)
    | invalid rejection =>
      unfold Root.find at h
      split at h <;> cases h

/-- A declaration of no kind that is dealt with in some way is left alone. -/
theorem run_of_passes {s : Sizing} (h : s.Passes d id) :
    s.run table d id = .unchanged d .notApplicable := by
  cases s with
  | measure => simp only [run, Measure.find, show _ = none from h, Match.run]
  | step => simp only [run, Step.find, show _ = none from h, Match.run]
  | root => simp [run, Root.find, show _ = false from h, Match.run]

/-- What comes of a declaration that is offered to some ways of giving a font size. -/
def firstOutcome (table : Breakpoints) (d : Document) (id : NodeId) : List Sizing → Outcome
  | [] => .notApplicable
  | s :: rest =>
    match (s.run table d id).outcome with
    | .notApplicable => firstOutcome table d id rest
    | .applied => .applied
    | .rejected rejection => .rejected rejection

end Sizing

namespace Pass

open Sizing

variable {p q : Pass} {o : Outcome}

/-- What comes of a declaration when it is visited. -/
def outcome (table : Breakpoints) (p : Pass) (id : NodeId) : Outcome :=
  if p.document.isAttached id then firstOutcome table p.document id Sizing.all else .notApplicable

/-- All that can come of a visit. -/
inductive Visit (table : Breakpoints) (id : NodeId) (p : Pass) : Pass → Prop
  | passed : (p.document.isLive id = true → ∀ s : Sizing, s.Passes p.document id) →
    Visit table id p p
  | taken {s : Sizing} {r : Result} : p.document.isLive id = true → Taken table p.document id s r →
    Visit table id p ({ p with document := r.document }.note r.log).count
  | refused {s : Sizing} {r : Rejection} : r.Removes p.document id →
    Visit table id p ((p.note [.rejected s]).reject (p.document.line? id) r)

/-- What a visit does for each outcome. -/
inductive Turned (table : Breakpoints) (id : NodeId) (p : Pass) : Outcome → Pass → Prop
  | passed : (p.document.isLive id = true → ∀ s : Sizing, s.Passes p.document id) →
    Turned table id p .notApplicable p
  | taken {s : Sizing} {r : Result} : p.document.isLive id = true → ¬s.Passes p.document id →
    Taken table p.document id s r →
    Turned table id p .applied ({ p with document := r.document }.note r.log).count
  | refused {s : Sizing} {r : Rejection} : p.document.isLive id = true → ¬s.Passes p.document id →
    r.Removes p.document id →
    Turned table id p (.rejected r) ((p.note [.rejected s]).reject (p.document.line? id) r)

theorem Turned.visit (h : Turned table id p o q) : Visit table id p q := by
  cases h with
  | passed hp => exact .passed hp
  | taken hl _ ht => exact .taken hl ht
  | refused _ _ hr => exact .refused hr

theorem note_nil (p : Pass) : p.note [] = p := by
  simp [note]

theorem offer_turned (hd : p.document.Nested) (hl : p.document.isLive id = true)
    {sizings : List Sizing} (hs : ∀ s ∉ sizings, s.Passes p.document id) :
    Turned table id p (firstOutcome table p.document id sizings) (p.offer table id sizings) := by
  induction sizings with
  | nil => exact .passed fun _ s => hs s List.not_mem_nil
  | cons s rest ih =>
    have hnil : ({ p with document := p.document }.note []) = p := note_nil p
    by_cases hp : s.Passes p.document id
    · have hrun : s.run table p.document id = .unchanged p.document .notApplicable :=
        run_of_passes hp
      simp only [offer, firstOutcome, hrun, Result.unchanged, hnil]
      refine ih fun s' hs' => ?_
      by_cases he : s' = s
      · exact he ▸ hp
      · exact hs s' (by simp [he, hs'])
    · have ho : Offered table p.document id s (s.run table p.document id) := run_offered hd s
      unfold offer firstOutcome
      generalize s.run table p.document id = r at ho
      cases ho with
      | passed hp' => exact absurd hp' hp
      | taken ht =>
        simp only [ht.outcome_eq]
        exact .taken hl hp ht
      | refused hr =>
        simp only [Result.rejected, hnil]
        exact .refused hl hp hr

theorem visit_turned (hd : p.document.Nested) (table : Breakpoints) (id : NodeId) :
    Turned table id p (p.outcome table id) (p.visit table id) := by
  unfold outcome visit
  rw [hd.isAttached_eq]
  cases hl : p.document.isLive id with
  | false => exact .passed (by simp [hl])
  | true => exact offer_turned hd hl fun s hs => by cases s <;> simp [Sizing.all] at hs

theorem visit_visit (hd : p.document.Nested) (table : Breakpoints) (id : NodeId) :
    Visit table id p (p.visit table id) :=
  (visit_turned hd table id).visit

end Pass

end ModularScale
