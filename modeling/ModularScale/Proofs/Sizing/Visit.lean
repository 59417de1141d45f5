import ModularScale.Proofs.Document.Keeping
import ModularScale.Proofs.Text.Trim
import ModularScale.Sizing.Pass

/-! # Visits

What a pass does to a document when it visits a declaration. The visit changes no other node, puts
new nodes behind the rule of the declaration or into it, and removes at most one node with all
below it: the declaration, an at-rule, or the rule if the declaration calls a step that fails.
-/

namespace ModularScale

open Document

namespace Sizing

variable {table : Breakpoints} {d e : Document} {id x : NodeId}

/-- The value calls a step that has no size at the base breakpoint or at a responsive one. -/
def Step.Fails (table : Breakpoints) (value : String) : Prop :=
  ∃ argument, Step.argument? value = some argument ∧
    ∃ name ∈ none :: table.responsive.map fun b => some b.name,
      ∃ e, table.rem argument name = .error e

/-- A step fails if its argument is no number. -/
theorem rem_of_not_isNumber {argument : String} (h : Decimal.isNumber argument = false)
    (name : Option String) : ∃ e, table.rem argument name = .error e := by
  rw [Decimal.isNumber, Option.isSome_eq_false_iff, Option.isNone_iff_eq_none] at h
  exact ⟨_, by rw [Breakpoints.rem, h]⟩

theorem sizes_error_iff {exponent : String} {bs : List Breakpoint} :
    (∃ e, Step.sizes table exponent bs = .error e) ↔
      ∃ b ∈ bs, ∃ e, table.rem exponent (some b.name) = .error e := by
  induction bs with
  | nil => simp [Step.sizes]
  | cons b bs ih =>
    rw [List.exists_mem_cons_iff, ← ih, Step.sizes]
    cases table.rem exponent (some b.name) with
    | error e => simp
    | ok rem => cases Step.sizes table exponent bs <;> simp [Except.map]

/-- The sizes are those of the steps at the breakpoints. -/
theorem sizes_ok {exponent : String} {bs : List Breakpoint} {sizes : List (Breakpoint × String)}
    (h : Step.sizes table exponent bs = .ok sizes) :
    sizes.map Prod.fst = bs ∧
      ∀ size ∈ sizes, table.rem exponent (some size.1.name) = .ok size.2 := by
  induction bs generalizing sizes with
  | nil =>
    cases h
    simp
  | cons b bs ih =>
    unfold Step.sizes at h
    split at h
    · cases h
    case h_2 rem hr =>
      cases hs : Step.sizes table exponent bs with
      | error e =>
        rw [hs] at h
        cases h
      | ok rest =>
        rw [hs] at h
        cases h
        obtain ⟨hmap, hrem⟩ := ih hs
        exact ⟨by rw [List.map_cons, hmap], List.forall_mem_cons.mpr ⟨hr, hrem⟩⟩

/-- A node that the visit of a declaration may remove. -/
def Doomed (table : Breakpoints) (d : Document) (id x : NodeId) : Prop :=
  x = id ∨ (∃ name params afterName hasBlock,
      d.kind x = .ok (.atRule name params afterName hasBlock)) ∨
    (d.parent? id = some x ∧ ∃ value, d.fontSize? id = some value ∧ Step.Fails table value)

/-- The rule that a declaration stands in directly. -/
def InRule (d : Document) (id rule : NodeId) : Prop :=
  d.parent? id = some rule ∧ ∃ selector, d.kind rule = .ok (.rule selector)

/-- What one way of giving a font size does to a document. -/
structure Effect (table : Breakpoints) (d : Document) (id : NodeId) (r : Result) : Prop where
  passed : r.outcome = .notApplicable → r.document = d
  edited : ∃ lost, Edited [id] lost d r.document ∧ ∀ x ∈ lost, x = id
  added : ∀ y, r.document.isLive y = true → d.isLive y = false →
    ∃ rule, InRule d id rule ∧ [rule, y].Sublist r.document.nodes
  rejected : ∀ x cause, r.outcome = .rejected ⟨some x, cause⟩ →
    r.document = d ∧ Doomed table d id x

theorem Effect.unchanged (hd : d.Whole) (outcome : Outcome)
    (h : ∀ x cause, outcome = .rejected ⟨some x, cause⟩ → Doomed table d id x) :
    Effect table d id (.unchanged d outcome) where
  passed _ := rfl
  edited := ⟨none, (Edited.refl hd).mono (by simp), by simp⟩
  added y hy hn := by simp [Result.unchanged, hn] at hy
  rejected x cause h' := ⟨rfl, h x cause h'⟩

theorem Effect.rejection (hd : d.Whole) {rejection : Rejection}
    (h : ∀ x ∈ rejection.excise, Doomed table d id x) :
    Effect table d id (.rejected d rejection) :=
  .unchanged hd _ fun x cause h' => h x (by cases h'; rfl)

/-- What came of a last edit, after others that removed nothing. -/
theorem Effect.ofEdit {d₁ : Document} {log : List Event} {edited : Except TreeError Document}
    (ht : Edited [] none d d₁)
    (ha : ∀ y, d₁.isLive y = true → d.isLive y = false →
      ∃ rule, InRule d id rule ∧ [rule, y].Sublist d₁.nodes)
    (h : ∀ e, edited = .ok e → (∃ lost, Edited [id] lost d e ∧ ∀ x ∈ lost, x = id) ∧
      ∀ y, e.isLive y = true → d.isLive y = false →
        ∃ rule, InRule d id rule ∧ [rule, y].Sublist e.nodes) :
    Effect table d id (.ofEdit d₁ log edited) := by
  cases edited with
  | error e =>
    exact ⟨by simp [Result.ofEdit], ⟨none, ht.mono (by simp), by simp⟩, ha, fun x cause h' => by
      simp [Result.ofEdit, Rejection.ofTree] at h'⟩
  | ok e =>
    obtain ⟨he, hn⟩ := h e rfl
    exact ⟨by simp [Result.ofEdit], he, hn, fun x cause h' => by simp [Result.ofEdit] at h'⟩

theorem resolve_atRule {a : NodeId} {name params : String}
    (h : Scope.resolve d id = .ok (.atRule a name params)) :
    ∃ afterName hasBlock, d.kind a = .ok (.atRule name params afterName hasBlock) := by
  unfold Scope.resolve at h
  generalize d.ancestors id = as at h
  induction as generalizing id with
  | nil => simp [Scope.search] at h
  | cons b as ih =>
    unfold Scope.search at h
    split at h
    · cases h
    · cases h
    · cases h; exact ⟨_, _, ‹_›⟩
    · exact ih h

theorem target_error {scope : Scope} {rejection : Rejection}
    (h : Measure.target table scope = .error rejection) :
    ∃ a name params, scope = .atRule a name params ∧ rejection.excise = some a := by
  cases scope with
  | root => cases h
  | atRule a name params =>
    refine ⟨a, name, params, rfl, ?_⟩
    simp only [Measure.target] at h
    split at h
    · cases h; rfl
    · split at h
      · cases h
      · cases h; rfl

theorem Measure.effect (hd : d.Whole) (exponent : String) :
    Effect table d id (Measure.apply table d id exponent) := by
  unfold Measure.apply
  split
  · exact .rejection hd (by simp [Rejection.ofTree])
  case h_2 scope hs =>
    split
    case h_1 rejection ht =>
      obtain ⟨a, name, params, rfl, ha⟩ := target_error ht
      refine .rejection hd fun x hx => ?_
      rw [ha] at hx
      cases hx
      obtain ⟨afterName, hasBlock, hk⟩ := resolve_atRule hs
      exact .inr (.inl ⟨name, params, afterName, hasBlock, hk⟩)
    · split
      · refine .rejection hd fun x hx => .inl ?_
        cases hx
        rfl
      · refine .ofEdit (.refl hd) (fun y hy hn => by simp [hy] at hn) fun e he => ?_
        obtain ⟨ht, hn⟩ := hd.setValue he
        exact ⟨⟨none, ht, by simp⟩, fun y hy hl => by simp [hn y hy] at hl⟩

/-- A node stays in order behind one above the declaration if at most the declaration is removed. -/
theorem pair_of_edited {changed : List NodeId} {lost : Option NodeId} {rule y : NodeId}
    (hd : d.Whole) (t : Edited changed lost d e) (hl : ∀ x ∈ lost, x = id)
    (hr : rule ∈ d.ancestors id) (hy : e.isLive y = true) (h : [rule, y].Sublist d.nodes) :
    [rule, y].Sublist e.nodes := by
  refine t.pair hd ((t.isLive rule (isLive_of_mem_ancestors hr)).mpr fun x hx => ?_) hy h
  rw [hl x hx]
  exact hd.not_above hr

theorem selectorOf_ok {parent : NodeId} {kind : Kind} {selector : String}
    (h : Step.selectorOf parent kind = .ok selector) : kind = .rule selector := by
  cases kind <;> simp_all [Step.selectorOf]

theorem selectorOf_error {parent x : NodeId} {kind : Kind} {rejection : Rejection}
    (h : Step.selectorOf parent kind = .error rejection) (hx : x ∈ rejection.excise) :
    x = parent ∧ ∃ name params afterName hasBlock, kind = .atRule name params afterName hasBlock := by
  cases kind with
  | atRule name params afterName hasBlock =>
    cases h
    cases hx
    exact ⟨rfl, name, params, afterName, hasBlock, rfl⟩
  | rule => cases h
  | root => cases h; cases hx
  | declaration => cases h; cases hx
  | comment => cases h; cases hx

theorem Step.effect (hd : d.Whole) {exponent value : String}
    (hv : d.fontSize? id = some value) (ha : Step.argument? value = some exponent) :
    Effect table d id (Step.apply table d id exponent) := by
  unfold Step.apply
  split
  · exact .rejection hd (by simp [Rejection.ofTree])
  case h_2 parent hp =>
    split
    · exact .rejection hd (by simp [Rejection.ofTree])
    case h_2 kind hk =>
      split
      case h_1 rejection hs =>
        refine .rejection hd fun x hx => ?_
        obtain ⟨rfl, name, params, afterName, hasBlock, rfl⟩ := selectorOf_error hs hx
        exact .inr (.inl ⟨name, params, afterName, hasBlock, hk⟩)
      case h_2 selector hs =>
        rw [selectorOf_ok hs] at hk
        have hin : InRule d id parent := ⟨hp, selector, hk⟩
        have hfail : ∀ name ∈ none :: table.responsive.map fun b => some b.name,
            (∃ e, table.rem exponent name = .error e) → ∀ cause,
              Effect table d id (.rejected d (.excising parent cause)) := by
          intro name hn he cause
          refine .rejection hd fun x hx => ?_
          cases hx
          exact .inr (.inr ⟨hp, value, hv, exponent, ha, name, hn, he⟩)
        cases hb : table.rem exponent none with
        | error e => exact hfail none (by simp) ⟨e, hb⟩ _
        | ok rem =>
        cases hr : Step.sizes table exponent table.responsive with
        | error e =>
          obtain ⟨b, hb, he⟩ := sizes_error_iff.mp ⟨e, hr⟩
          exact hfail (some b.name) (by simpa using ⟨b, hb, rfl⟩) he _
        | ok sizes =>
          simp only
          split
          · exact .rejection hd (by simp [Rejection.ofTree])
          case h_2 d₁ hi =>
            obtain ⟨t, hn⟩ := hd.insertNewAfter hi
            refine .ofEdit t (fun y hy hl => ⟨parent, hin, hn y hy hl⟩) fun e he => ?_
            obtain ⟨t', hn'⟩ := t.whole.setValue he
            have hpa : parent ∈ d₁.ancestors id :=
              t.ancestors_eq hd (isLive_of_parent hp) ▸ mem_ancestors_of_parent hp
            refine ⟨⟨none, t.trans hd t', by simp⟩, fun y hy hl => ⟨parent, hin, ?_⟩⟩
            exact pair_of_edited t.whole t' (by simp) hpa hy (hn y (hn' y hy) hl)

theorem isRuleOfRoot_rule {kind : Kind} (h : Root.isRuleOfRoot kind = true) :
    ∃ selector, kind = .rule selector := by
  cases kind <;> simp_all [Root.isRuleOfRoot]

theorem Root.effect (hd : d.Whole) : Effect table d id (Root.apply table d id) := by
  unfold Root.apply
  split
  · exact .rejection hd (by simp [Rejection.ofTree])
  case h_2 parent hp =>
    split
    · exact .rejection hd (by simp [Rejection.ofTree])
    case h_2 kind hk =>
      split
      case isFalse =>
        refine .ofEdit (.refl hd) (fun y hy hn => by simp [hy] at hn) fun e he => ?_
        obtain ⟨t, hn⟩ := hd.remove he
        exact ⟨⟨some id, t.mono (by simp), by simp⟩, fun y hy hl => by simp [hn y hy] at hl⟩
      case isTrue hr =>
        obtain ⟨selector, rfl⟩ := isRuleOfRoot_rule hr
        have hin : InRule d id parent := ⟨hp, selector, hk⟩
        have hl := isLive_of_parent hp
        have hpa := mem_ancestors_of_parent hp
        unfold Root.expand
        split
        · exact .rejection hd (by simp [Rejection.ofTree])
        case h_2 d₁ h₁ =>
          obtain ⟨t₁, n₁⟩ := hd.insertNewAfter h₁
          have hpa₁ : parent ∈ d₁.ancestors id := t₁.ancestors_eq hd hl ▸ hpa
          split
          case h_1 e _ =>
            show Effect table d id (.ofEdit d₁ [] (.error e))
            exact .ofEdit t₁ (fun y hy hn => ⟨parent, hin, n₁ y hy hn⟩) (by simp)
          case h_2 d₂ h₂ =>
            obtain ⟨t₂, n₂⟩ := t₁.whole.insertNewBefore h₂
            have hl₁ : d₁.isLive id = true := (t₁.isLive id hl).mpr (by simp)
            have hpa₂ : parent ∈ d₂.ancestors id := t₂.ancestors_eq t₁.whole hl₁ ▸ hpa₁
            have t₁₂ := t₁.trans hd t₂
            have n₁₂ : ∀ y, d₂.isLive y = true → d.isLive y = false →
                [parent, y].Sublist d₂.nodes := by
              intro y hy hn
              cases hy₁ : d₁.isLive y with
              | false => exact n₂ y hy hy₁ parent hpa₁
              | true => exact pair_of_edited t₁.whole t₂ (by simp) hpa₁ hy (n₁ y hy₁ hn)
            refine .ofEdit t₁₂ (fun y hy hn => ⟨parent, hin, n₁₂ y hy hn⟩) fun e he => ?_
            obtain ⟨t₃, n₃⟩ := t₂.whole.replaceWithNew he
            refine ⟨⟨some id, (t₁₂.trans hd t₃).mono (by simp), by simp⟩,
              fun y hy hn => ⟨parent, hin, ?_⟩⟩
            cases hy₂ : d₂.isLive y with
            | false => exact n₃ y hy hy₂ parent hpa₂
            | true => exact pair_of_edited t₂.whole t₃ (by simp) hpa₂ hy (n₁₂ y hy₂ hn)

/-- Every way of giving a font size has such an effect. -/
theorem run_effect (hd : d.Whole) (s : Sizing) : Effect table d id (s.run table d id) := by
  cases s with
  | measure =>
    simp only [run, Measure.find]
    split
    · exact Measure.effect hd _
    · exact .unchanged hd _ (by simp)
  | step =>
    simp only [run, Step.find]
    split
    · exact .unchanged hd _ (by simp)
    case h_2 argument h =>
      obtain ⟨value, hv, ha⟩ := Option.bind_eq_some_iff.mp h
      split
      · exact Step.effect hd hv ha
      case isFalse hn =>
        refine .rejection hd fun x hx => ?_
        exact .inr (.inr ⟨hx, value, hv, argument, ha, none, by simp,
          rem_of_not_isNumber (by simpa using hn) none⟩)
  | root =>
    simp only [run, Root.find]
    split
    · exact Root.effect hd
    · exact .unchanged hd _ (by simp)

theorem paren_mem_of_afterCall? {cs after : List Char} (h : Step.afterCall? cs = some after) :
    '(' ∈ cs := by
  induction cs with
  | nil => cases h
  | cons c cs ih =>
    unfold Step.afterCall? at h
    split at h
    case isTrue he =>
      have hm : '(' ∈ Text.asciiLower ((c :: cs).take 5) := by
        rw [beq_iff_eq.mp he]
        decide
      exact List.mem_of_mem_take (Text.mem_of_mem_asciiLower hm rfl)
    case isFalse => exact List.mem_cons_of_mem _ (ih h)

theorem paren_notMem_of_isSignedDecimal {cs : List Char}
    (h : Measure.isSignedDecimal cs = true) : '(' ∉ cs := by
  have hd : ∀ cs, Measure.isDecimal cs = true → '(' ∉ cs := by
    intro cs h hm
    simp only [Measure.isDecimal, Bool.and_eq_true, List.all_eq_true] at h
    exact absurd (h.1.1 _ hm) (by decide)
  unfold Measure.isSignedDecimal at h
  split at h
  · simpa using hd _ h
  · simpa using hd _ h
  · exact hd _ h

/-- A value that calls a step is no number of steps. -/
theorem exponent_eq_none {value argument : String} (h : Step.argument? value = some argument) :
    Measure.exponent? value = none := by
  obtain ⟨after, hc, -⟩ := Option.map_eq_some_iff.mp h
  have hm : '(' ∈ Text.trim value.toList := Text.mem_trim (paren_mem_of_afterCall? hc) rfl
  unfold Measure.exponent?
  generalize Text.trim value.toList = trimmed at hm ⊢
  refine if_neg fun hn => ?_
  rw [Bool.and_eq_true] at hn
  obtain ⟨hms, hn⟩ := hn
  have hp : trimmed.dropLast.dropLast ++ trimmed.drop trimmed.dropLast.dropLast.length = trimmed :=
    List.prefix_iff_eq_append.mp ((List.dropLast_prefix _).trans (List.dropLast_prefix _))
  rw [← hp, List.mem_append] at hm
  rcases hm with hm | hm
  · exact paren_notMem_of_isSignedDecimal hn hm
  · have hm := List.mem_map_of_mem (f := Char.toLower) hm
    rw [show List.map Char.toLower _ = _ from beq_iff_eq.mp hms] at hm
    exact absurd hm (by decide)

/-- A declaration whose step fails is rejected along with its rule. -/
theorem step_fails {rule : NodeId} {selector value : String} (hp : d.parent? id = some rule)
    (hk : d.kind rule = .ok (.rule selector)) (hv : d.fontSize? id = some value)
    (hf : Step.Fails table value) :
    ∃ cause, step.run table d id = .rejected d (.excising rule cause) := by
  obtain ⟨argument, ha, name, hn, hr⟩ := hf
  simp only [run, Step.find, hv, Option.bind_some, ha]
  split
  case isFalse => exact ⟨.invalidStep argument, by simp [Match.run, hp, Rejection.excising]⟩
  case isTrue =>
    simp only [Match.run, Step.apply, hp, hk, Step.selectorOf]
    cases hb : table.rem argument none with
    | error e => exact ⟨.conversion e, rfl⟩
    | ok rem =>
      cases hs : Step.sizes table argument table.responsive with
      | error e => exact ⟨.conversion e, rfl⟩
      | ok sizes =>
        rcases List.mem_cons.mp hn with rfl | hn
        · simp [hb] at hr
        · obtain ⟨b, hb, rfl⟩ := List.mem_map.mp hn
          obtain ⟨e, he⟩ := sizes_error_iff.mpr ⟨b, hb, hr⟩
          simp [he] at hs

end Sizing

namespace Pass

open Sizing

variable {table : Breakpoints} {p : Pass} {id rule : NodeId}

/-- What a visit does to a document. -/
structure Visited (table : Breakpoints) (id : NodeId) (d e : Document) : Prop where
  edited : ∃ lost, Edited [id] lost d e ∧ ∀ x ∈ lost, Doomed table d id x
  added : ∀ y, e.isLive y = true → d.isLive y = false →
    ∃ rule, InRule d id rule ∧ [rule, y].Sublist e.nodes

theorem document_reject (line : Option Nat) (r : Rejection) :
    (p.reject line r).document =
      match r.excise with
      | some x => (p.excise x).document
      | none => p.document := by
  unfold reject
  cases r.excise <;> rfl

theorem document_excise (x : NodeId) :
    (p.excise x).document = (p.document.remove x).toOption.getD p.document := by
  unfold excise
  cases p.document.remove x <;> rfl

theorem visited_refl (hd : p.document.Whole) : Visited table id p.document p.document where
  edited := ⟨none, (Edited.refl hd).mono (by simp), by simp⟩
  added y hy hn := by simp [hy] at hn

theorem document_offer_of_passed {sizing : Sizing} {rest : List Sizing}
    (h : sizing.run table p.document id = .unchanged p.document .notApplicable) :
    (p.offer table id (sizing :: rest)).document = (p.offer table id rest).document := by
  simp [offer, h, Result.unchanged, note]

/-- Whatever a declaration is offered to has the effect of a visit. -/
theorem offer_visited (hd : p.document.Whole) (sizings : List Sizing) :
    Visited table id p.document (p.offer table id sizings).document := by
  induction sizings generalizing p with
  | nil => exact visited_refl hd
  | cons sizing rest ih =>
    have he : Effect table p.document id (sizing.run table p.document id) := run_effect hd sizing
    unfold offer
    cases ho : (sizing.run table p.document id).outcome with
    | notApplicable =>
      simp only [ho, note, he.passed ho]
      exact @ih { p with log := p.log ++ (sizing.run table p.document id).log } hd
    | applied =>
      simp only [ho, count, note]
      obtain ⟨lost, ht, hl⟩ := he.edited
      exact ⟨⟨lost, ht, fun x hx => .inl (hl x hx)⟩, he.added⟩
    | rejected rejection =>
      simp only [ho, document_reject]
      cases hx : rejection.excise with
      | none =>
        simp only [note]
        obtain ⟨lost, ht, hl⟩ := he.edited
        exact ⟨⟨lost, ht, fun x hx => .inl (hl x hx)⟩, he.added⟩
      | some x =>
        obtain ⟨hr, hdoom⟩ := he.rejected x rejection.cause (by rw [ho, ← hx])
        simp only [document_excise, note, hr]
        cases hm : p.document.remove x with
        | error _ => exact visited_refl hd
        | ok e =>
          obtain ⟨ht, hn⟩ := hd.remove hm
          refine ⟨⟨some x, ht.mono (by simp), ?_⟩, fun y hy hl => ?_⟩
          · rintro _ ⟨⟩
            exact hdoom
          · exact absurd (hn y hy) (by simp [hl])

theorem visit_visited (table : Breakpoints) (id : NodeId) (hd : p.document.Whole) :
    Visited table id p.document (p.visit table id).document := by
  unfold visit
  split
  · exact offer_visited hd _
  · exact visited_refl hd

/-- A declaration whose step fails takes its rule with it. -/
theorem not_isLive_of_fails {selector value : String} (hd : p.document.Whole)
    (hp : p.document.parent? id = some rule) (hk : p.document.kind rule = .ok (.rule selector))
    (hv : p.document.fontSize? id = some value) (hf : Step.Fails table value)
    (hroot : rule ≠ Document.root) : (p.visit table id).document.isLive rule = false := by
  have ⟨argument, ha, _⟩ := hf
  obtain ⟨cause, hr⟩ := step_fails hp hk hv hf
  have hm : Sizing.measure.run table p.document id = .unchanged p.document .notApplicable := by
    simp [Sizing.run, Measure.find, hv, exponent_eq_none ha, Match.run]
  have ha : p.document.isAttached id = true := hd.isAttached_eq id ▸ isLive_of_parent hp
  rw [visit, if_pos ha, Sizing.all, document_offer_of_passed hm]
  have hl : p.document.isLive rule = true := isLive_of_mem_ancestors (mem_ancestors_of_parent hp)
  simp only [offer, hr, Result.rejected, Rejection.excising, document_reject, document_excise, note,
    remove_eq_ok hroot hl, Except.toOption, Option.getD_some]
  rw [Bool.eq_false_iff]
  intro h
  exact (((hd.cut hroot).isLive rule hl).mp h rule rfl).1 rfl

end Pass

end ModularScale
