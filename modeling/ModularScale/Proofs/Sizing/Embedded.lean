import ModularScale.Proofs.Document.Embedding
import ModularScale.Proofs.Document.OfSheet
import ModularScale.Proofs.Sizing.Visit

/-! # Passes over embedded documents

A visit of a declaration in a larger document does what the visit does in the document embedded
there. What is reported and noted down says the same too, as no text tells the number of a node.
-/

namespace ModularScale

open Document Sizing

variable {table : Breakpoints} {d : Document} {id : NodeId} {earlier p : Pass}

namespace Embedding

def cause (E : Embedding) : SizingError → SizingError
  | .tree e => .tree (E.error e)
  | cause => cause

def rejection (E : Embedding) (r : Rejection) : Rejection :=
  ⟨r.excise.map E.number, E.cause r.cause⟩

def scope (E : Embedding) : Scope → Scope
  | .root => .root
  | .atRule node name params => .atRule (E.number node) name params

def event (E : Embedding) : Event → Event
  | .converted exponent rem scope => .converted exponent rem (E.scope scope)
  | .excisionFailed e => .excisionFailed (E.error e)
  | event => event

def outcome (E : Embedding) : Outcome → Outcome
  | .rejected r => .rejected (E.rejection r)
  | outcome => outcome

def found {α : Type} (E : Embedding) : Match α → Match α
  | .invalid r => .invalid (E.rejection r)
  | found => found

def result (E : Embedding) (r : Result) : Result :=
  ⟨E.outcome r.outcome, E.document r.document, r.log.map E.event⟩

/-- A pass over an embedded document, after what an earlier pass has done elsewhere. -/
def pass (E : Embedding) (earlier p : Pass) : Pass where
  document := E.document p.document
  report :=
    ⟨earlier.report.converted + p.report.converted,
      earlier.report.diagnostics ++ p.report.diagnostics⟩
  log := earlier.log ++ p.log.map E.event

section

variable (E : Embedding)

theorem message_cause (cause : SizingError) : (E.cause cause).message = cause.message := by
  cases cause with
  | tree e => exact e.message_rename E.number
  | _ => rfl

theorem describe_scope (scope : Scope) : (E.scope scope).describe = scope.describe := by
  cases scope <;> simp only [Embedding.scope, Scope.describe]

theorem responsive?_scope (scope : Scope) : (E.scope scope).responsive? = scope.responsive? := by
  cases scope <;> rfl

theorem describe_event (e : Event) : (E.event e).describe = e.describe := by
  have hl : (E.event e).level = e.level := by cases e <;> rfl
  have hm : (E.event e).message = e.message := by
    unfold Event.message
    cases e with
    | converted exponent rem scope => simp only [event, E.describe_scope]
    | excisionFailed e => simp only [event, error, TreeError.message_rename]
    | _ => rfl
  rw [Event.describe, hl, hm, Event.describe]

theorem ofEdit (d : Document) (log : List Event) (edited : Except TreeError Document) :
    Result.ofEdit (E.document d) (log.map E.event) (E.edited edited) =
      E.result (Result.ofEdit d log edited) := by
  cases edited <;> rfl

theorem target (table : Breakpoints) (scope : Scope) :
    Measure.target table (E.scope scope) = (Measure.target table scope).mapError E.rejection := by
  cases scope with
  | root => rfl
  | atRule node name params =>
    have hresponsive : (Scope.atRule (E.number node) name params).responsive? =
        (Scope.atRule node name params).responsive? := E.responsive?_scope (.atRule node name params)
    simp only [Embedding.scope, Measure.target, hresponsive]
    split
    · rfl
    · split <;> rfl

theorem selectorOf (parent : NodeId) (kind : Kind) : Step.selectorOf (E.number parent) kind =
    (Step.selectorOf parent kind).mapError E.rejection := by
  cases kind <;> rfl

theorem run_found {α : Type} (m : Match α) {apply apply' : α → Result}
    (h : ∀ a, apply' a = E.result (apply a)) :
    (E.found m).run (E.document d) apply' = E.result (m.run d apply) := by
  cases m with
  | absent => rfl
  | present found => exact h found
  | invalid rejection => rfl

theorem note (events : List Event) :
    (E.pass earlier p).note (events.map E.event) = E.pass earlier (p.note events) := by
  simp [pass, Pass.note]

end

variable {E : Embedding}

theorem search {as : List NodeId} (has : ∀ a ∈ as, E.Known a) (d : Document) (id : NodeId) :
    Scope.search (E.document d) (E.number id) (as.map E.number) =
      ((Scope.search d id as).mapError E.error).map E.scope := by
  induction as generalizing id with
  | nil => rfl
  | cons a as ih =>
    obtain ⟨ha, has⟩ := List.forall_mem_cons.mp has
    rw [List.map_cons, Scope.search, kind ha, Scope.search, ih has]
    cases d.kind a with
    | error e => rfl
    | ok kind => cases kind <;> rfl

section

variable (h : E.Known id)
include h

theorem find_measure (d : Document) :
    Measure.find (E.document d) (E.number id) = E.found (Measure.find d id) := by
  rw [Measure.find, fontSize? h, Measure.find]
  split <;> rfl

theorem find_step (d : Document) :
    Step.find (E.document d) (E.number id) = E.found (Step.find d id) := by
  rw [Step.find, fontSize? h, parent? h, Step.find]
  split
  · rfl
  · split <;> rfl

theorem excise (p : Pass) :
    (E.pass earlier p).excise (E.number id) = E.pass earlier (p.excise id) := by
  rw [Pass.excise, Pass.excise]
  simp only [pass, remove h]
  cases p.document.remove id with
  | ok d => rfl
  | error e => exact E.note [.excisionFailed e]

variable (hd : E.Fits d)
include hd

theorem find_root : Root.find (E.document d) (E.number id) = E.found (Root.find d id) := by
  have hrule : Root.enclosingRule? (E.document d) (E.number id) = Root.enclosingRule? d id := by
    rw [Root.enclosingRule?, E.ancestors h, List.filterMap_map, Root.enclosingRule?]
    refine congrArg (List.find? Root.isRule) (List.filterMap_congr fun a ha => ?_)
    rw [Function.comp_apply, E.node? (known_of_mem_ancestors hd ha)]
  rw [Root.find, fontSize? h, hrule, Root.find]
  split <;> rfl

theorem measure (table : Breakpoints) (exponent : String) :
    Measure.apply table (E.document d) (E.number id) exponent =
      E.result (Measure.apply table d id exponent) := by
  have hs : Scope.resolve (E.document d) (E.number id) =
      ((Scope.resolve d id).mapError E.error).map E.scope := by
    rw [Scope.resolve, E.ancestors h, search fun a => known_of_mem_ancestors hd, Scope.resolve]
  rw [Measure.apply, hs, Measure.apply]
  cases Scope.resolve d id with
  | error e => rfl
  | ok scope =>
    simp only [Except.mapError, Except.map, E.target]
    cases Measure.target table scope with
    | error rejection => rfl
    | ok name =>
      simp only
      cases table.rem exponent name with
      | error e => rfl
      | ok rem =>
        simp only [setValue h]
        exact E.ofEdit d [.converted exponent rem scope] _

theorem step (table : Breakpoints) (exponent : String) :
    Step.apply table (E.document d) (E.number id) exponent =
      E.result (Step.apply table d id exponent) := by
  unfold Step.apply
  rw [parent? h]
  cases hp : d.parent? id with
  | none => rfl
  | some parent =>
    have hparent := known_of_mem_ancestors hd (mem_ancestors_of_parent hp)
    simp only [Option.map_some, kind hparent]
    cases d.kind parent with
    | error e => rfl
    | ok kind =>
      simp only [Except.mapError, E.selectorOf]
      cases Step.selectorOf parent kind with
      | error rejection => rfl
      | ok selector =>
        simp only
        cases table.rem exponent none with
        | error e => rfl
        | ok rem =>
          cases Step.sizes table exponent table.responsive with
          | error e => rfl
          | ok sizes =>
            simp only [insertNewAfter hparent hd]
            cases d.insertNewAfter parent (Step.blocks selector sizes) with
            | error e => rfl
            | ok d₁ =>
              have hlog : (Step.events exponent selector sizes ++
                  [Event.expanded exponent rem selector]).map E.event =
                  Step.events exponent selector sizes ++ [.expanded exponent rem selector] := by
                simp [Step.events, event]
              rw [← E.ofEdit, hlog, ← setValue h]
              rfl

theorem root (table : Breakpoints) :
    Root.apply table (E.document d) (E.number id) = E.result (Root.apply table d id) := by
  unfold Root.apply
  rw [parent? h]
  cases hp : d.parent? id with
  | none => rfl
  | some parent =>
    have hparent := known_of_mem_ancestors hd (mem_ancestors_of_parent hp)
    simp only [Option.map_some, kind hparent]
    cases d.kind parent with
    | error e => rfl
    | ok kind =>
      simp only [Except.mapError]
      split
      case isFalse =>
        rw [remove h]
        exact E.ofEdit d [.nestedRootDropped] _
      case isTrue =>
        simp only [Root.expand, insertNewAfter hparent hd]
        cases h₁ : d.insertNewAfter parent (Root.blocks table.scale table.responsive) with
        | error e => rfl
        | ok d₁ =>
          have t₁ := ((E.whole hd).insertNewAfter h₁).1
          have hd₁ := E.of_edited hd t₁
          simp only [edited, Except.mapError, Except.map, insertNewBefore h hd₁]
          cases h₂ : d₁.insertNewBefore id (Root.widthProperties table.responsive) with
          | error e => rfl
          | ok d₂ =>
            have hd₂ := E.of_edited hd₁ (t₁.whole.insertNewBefore h₂).1
            simp only [edited, Except.mapError, Except.map, replaceWithNew h hd₂]
            exact E.ofEdit d₂ [.rootSized _] _

/-- What comes of a declaration in a larger document is what comes of it in its own. -/
theorem run (table : Breakpoints) (s : Sizing) :
    s.run table (E.document d) (E.number id) = E.result (s.run table d id) := by
  cases s with
  | measure =>
    rw [Sizing.run, find_measure h]
    exact E.run_found _ (measure h hd table)
  | step =>
    rw [Sizing.run, find_step h]
    exact E.run_found _ (step h hd table)
  | root =>
    rw [Sizing.run, find_root h hd]
    exact E.run_found _ fun _ => root h hd table

end

theorem reject {r : Rejection} (hr : ∀ x ∈ r.excise, E.Known x) (p : Pass) (line : Option Nat) :
    (E.pass earlier p).reject line (E.rejection r) = E.pass earlier (p.reject line r) := by
  obtain ⟨excised, cause⟩ := r
  cases excised with
  | none => simp [Pass.reject, rejection, pass, Pass.note, message_cause, event]
  | some x =>
    have hx := hr x rfl
    have hline : (E.pass earlier p).document.line? (E.number x) = p.document.line? x :=
      line? hx _
    simp only [Pass.reject, rejection, Option.map_some, Option.bind_some, hline, excise hx,
      message_cause]
    simp [pass, Pass.note, event]

theorem known_of_doomed {x : NodeId} (hd : E.Fits d) (h : E.Known id) (hx : Doomed table d id x) :
    E.Known x := by
  rcases hx with rfl | ⟨_, _, _, _, hk⟩ | ⟨hp, -⟩
  · exact h
  · obtain ⟨n, hn, -⟩ := node?_of_kind hk
    exact E.known hd (isLive_iff_node.mpr ⟨n, hn⟩)
  · exact known_of_mem_ancestors hd (mem_ancestors_of_parent hp)

theorem offer (hd : E.Fits p.document) (h : E.Known id) (table : Breakpoints)
    (sizings : List Sizing) : (E.pass earlier p).offer table (E.number id) sizings =
      E.pass earlier (p.offer table id sizings) := by
  induction sizings generalizing p with
  | nil => rfl
  | cons s rest ih =>
    have he : Effect table p.document id (s.run table p.document id) := run_effect (E.whole hd) s
    have hrun : s.run table (E.pass earlier p).document (E.number id) = _ := run h hd table s
    unfold Pass.offer
    rw [hrun]
    generalize s.run table p.document id = r at he
    let next := { p with document := r.document }.note r.log
    have hnext : { E.pass earlier p with document := (E.result r).document }.note
        (E.result r).log = E.pass earlier next :=
      E.note (p := { p with document := r.document }) r.log
    simp only [hnext]
    cases ho : r.outcome with
    | notApplicable =>
      simp only [result, ho, outcome]
      have hr : E.Fits r.document := (he.passed ho).symm ▸ hd
      exact @ih next hr
    | applied =>
      simp only [result, ho, outcome]
      simp [pass, Pass.count, Pass.note, next, Nat.add_assoc]
    | rejected rejection =>
      have hline : (E.pass earlier p).document.line? (E.number id) = p.document.line? id :=
        line? h _
      have hx : ∀ x ∈ rejection.excise, E.Known x := fun x hx =>
        known_of_doomed hd h (he.rejected x rejection.cause (by rw [ho, ← hx])).2
      simp only [result, ho, outcome, hline]
      exact (congrArg (Pass.reject · _ _) (E.note [.rejected s])).trans (reject hx _ _)

/-- A visit of a declaration in a larger document does what it does in the document alone. -/
theorem visit (hd : E.Fits p.document) (h : E.Known id) (table : Breakpoints) :
    (E.pass earlier p).visit table (E.number id) = E.pass earlier (p.visit table id) := by
  have ha : (E.pass earlier p).document.isAttached (E.number id) = p.document.isAttached id :=
    isAttached h _
  rw [Pass.visit, ha, Pass.visit]
  split
  · exact offer hd h table Sizing.all
  · rfl

theorem foldl_visit (hd : E.Fits p.document) (table : Breakpoints) {ids : List NodeId}
    (h : ∀ id ∈ ids, E.Known id) :
    (ids.map E.number).foldl (Pass.visit table) (E.pass earlier p) =
      E.pass earlier (ids.foldl (Pass.visit table) p) := by
  induction ids generalizing p with
  | nil => rfl
  | cons id ids ih =>
    obtain ⟨hid, hids⟩ := List.forall_mem_cons.mp h
    obtain ⟨_, t, -⟩ := (Pass.visit_visited table id (E.whole hd)).edited
    rw [List.map_cons, List.foldl_cons, visit hd hid, List.foldl_cons]
    exact ih (E.of_edited hd t) hids

/-- The visits of all declarations of a document in a larger one are a pass over the document. -/
theorem foldl_visit_declarations (hd : E.Fits d) (earlier : Pass) (table : Breakpoints) :
    (d.declarations.map E.number).foldl (Pass.visit table) (E.pass earlier (.start d)) =
      E.pass earlier (.run table d) := by
  refine foldl_visit (p := .start d) hd table fun id hm => ?_
  obtain ⟨n, hn, -⟩ := declaration_of_mem_declarations (E.whole hd) hm
  exact E.known hd (isLive_iff_node.mpr ⟨n, hn⟩)

end Embedding

end ModularScale
