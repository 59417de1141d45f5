import ModularScale.Proofs.Document.Scripts
import ModularScale.Proofs.Scale.Table

/-! # Refusals

A declaration that is not rewritten leaves the document as it is. Where the edits are made one at a
time, a rewrite that fails has made new nodes by then, and none of them is part of what was there.
-/

namespace ModularScale

open Document

variable {table : Breakpoints} {d e : Document} {id : NodeId}

namespace Sizing

/-! ### Rewrites one edit at a time -/

/-- The edits for a size in scale steps, once its length is known. -/
def Measure.script (table : Breakpoints) (d : Document) (id : NodeId) (exponent : String) :
    Except Rejection (Script Unit) :=
  match Scope.resolve d id with
  | .error e => .error (.ofTree e)
  | .ok scope =>
    match target table scope with
    | .error rejection => .error rejection
    | .ok name =>
      match table.rem exponent name with
      | .error e => .error (.excising id (.conversion e))
      | .ok rem => .ok (.setValue id rem)

/-- The edits for an expanded step, once all sizes are known. -/
def Step.script (table : Breakpoints) (d : Document) (id : NodeId) (exponent : String) :
    Except Rejection (Script Unit) :=
  match d.parent? id with
  | none => .error (.ofTree (.noParent id))
  | some parent =>
    match d.kind parent with
    | .error e => .error (.ofTree e)
    | .ok kind =>
      match selectorOf parent kind with
      | .error rejection => .error rejection
      | .ok selector =>
        match table.rem exponent none, sizes table exponent table.responsive with
        | .error e, _ => .error (.excising parent (.conversion e))
        | .ok _, .error e => .error (.excising parent (.conversion e))
        | .ok rem, .ok sizes => .ok do
          sizes.reverse.forM fun size =>
            .putBlock parent size.1.value selector [Template.fontSize size.2]
          .setValue id rem

/-- The edits for the size of the root element. -/
def Root.script (table : Breakpoints) (d : Document) (id : NodeId) :
    Except Rejection (Script Unit) :=
  match d.parent? id with
  | none => .error (.ofTree (.noParent id))
  | some parent =>
    match d.kind parent with
    | .error e => .error (.ofTree e)
    | .ok kind =>
      if isRuleOfRoot kind then .ok do
        table.responsive.reverse.forM fun b =>
          .putBlock parent b.value Template.rootSelector
            [Template.variableOf b, Template.fontSize (table.scale.percentage b.root)]
        .putNodes id (table.responsive.map Template.variableOf)
        .edit (.replace id
          (← .make (Template.fontSize (table.scale.percentage table.base.root))))
      else .ok (.edit (.remove id))

/-- Makes the edits of a rewrite, unless there is a reason not to begin. -/
def carryOut (d : Document) : Except Rejection (Script Unit) → Outcome × Document
  | .error rejection => (.rejected rejection, d)
  | .ok script =>
    match script.perform d with
    | (.ok (), e) => (.applied, e)
    | (.error fault, e) => (.rejected (.ofTree fault), e)

def Match.inTurn (d : Document) (m : Match α) (script : α → Except Rejection (Script Unit)) :
    Outcome × Document :=
  match m with
  | .absent => (.notApplicable, d)
  | .present found => carryOut d (script found)
  | .invalid rejection => (.rejected rejection, d)

/-- Offers a declaration to one way of giving a font size, which makes one edit at a time. -/
def inTurn (table : Breakpoints) (d : Document) (id : NodeId) : Sizing → Outcome × Document
  | measure => (Measure.find d id).inTurn d (Measure.script table d id)
  | step => (Step.find d id).inTurn d (Step.script table d id)
  | root => (Root.find d id).inTurn d fun _ => Root.script table d id

/-! ### What a refusal leaves -/

/-- One edit at a time comes out as all at once does, and a refusal leaves what was there. -/
structure Agrees (d : Document) (r : Result) (turn : Outcome × Document) : Prop where
  outcome : turn.1 = r.outcome
  spares : r.outcome ≠ .applied → r.document = d ∧ Spares d turn.2

theorem Agrees.refused (hs : Spares d d) {outcome : Outcome} :
    Agrees d (.unchanged d outcome) (outcome, d) :=
  ⟨rfl, fun _ => ⟨rfl, hs⟩⟩

theorem Agrees.applied {log : List Event} {script : Script Unit}
    (h : script.perform d = (.ok (), e)) {d' : Document} :
    Agrees d ⟨.applied, d', log⟩ (carryOut d (.ok script)) := by
  rw [carryOut, h]
  exact ⟨rfl, fun hn => absurd rfl hn⟩

theorem Agrees.failed {script : Script Unit} {fault : TreeError}
    (h : script.perform d = (.error fault, e)) (hs : Spares d e) :
    Agrees d (.rejected d (.ofTree fault)) (carryOut d (.ok script)) := by
  rw [carryOut, h]
  exact ⟨rfl, fun _ => ⟨rfl, hs⟩⟩

theorem Measure.agrees (hs : Spares d d) (hl : d.isLive id = true) (exponent : String) :
    Agrees d (apply table d id exponent) (carryOut d (script table d id exponent)) := by
  unfold apply script
  cases Scope.resolve d id with
  | error e => exact .refused hs
  | ok scope =>
    dsimp only
    cases target table scope with
    | error rejection => exact .refused hs
    | ok name =>
      dsimp only
      cases table.rem exponent name with
      | error e => exact .refused hs
      | ok rem =>
        obtain ⟨d', hd'⟩ := exists_setValue hl rem
        obtain ⟨e, he⟩ := Script.exists_perform_setValue hl rem
        dsimp only
        rw [hd']
        exact .applied he

theorem Step.blocks_eq_nil_iff (selector : String) (sizes : List (Breakpoint × String)) :
    blocks selector sizes = .nil ↔ sizes = [] := by
  cases sizes with
  | nil => exact iff_of_true rfl rfl
  | cons size sizes => exact iff_of_false nofun nofun

theorem Root.blocks_eq_nil_iff (scale : Scale) (bs : List Breakpoint) :
    blocks scale bs = .nil ↔ bs = [] := by
  cases bs with
  | nil => exact iff_of_true rfl rfl
  | cons b bs => exact iff_of_false nofun nofun

theorem Step.agrees (hd : d.Numbered) (hpos : Document.root < d.next) (hl : d.isLive id = true)
    (exponent : String) :
    Agrees d (apply table d id exponent) (carryOut d (script table d id exponent)) := by
  have hs := hd.spares_refl hpos
  unfold apply script
  cases hp : d.parent? id with
  | none => exact .refused hs
  | some parent =>
    dsimp only
    cases d.kind parent with
    | error e => exact .refused hs
    | ok kind =>
      dsimp only
      cases selectorOf parent kind with
      | error rejection => exact .refused hs
      | ok selector =>
        dsimp only
        cases table.rem exponent none with
        | error e => exact .refused hs
        | ok rem =>
          cases sizes table exponent table.responsive with
          | error e => exact .refused hs
          | ok sizes =>
            have hlp := isLive_of_mem_ancestors (mem_ancestors_of_parent hp)
            have hblocks := Script.perform_putBlocks hd hpos hlp
              (blocks_eq_nil_iff selector sizes) selector
              (fun size => size.1.value) fun size => [Template.fontSize size.2]
            dsimp only
            rcases hblocks with ⟨c, c', hc, hkeep, hc', hkeep'⟩ | ⟨fault, e, hfault, he, hspares⟩
            · obtain ⟨d', hd'⟩ := exists_setValue (hkeep.isLive id hl) rem
              obtain ⟨e, he⟩ := Script.exists_perform_setValue (hkeep'.isLive id hl) rem
              rw [hc]
              dsimp only
              rw [hd']
              exact .applied ((Script.perform_bind_of_ok hc').trans he)
            · rw [hfault]
              exact .failed (Script.perform_bind_of_error he) hspares

theorem Root.agrees (hd : d.Numbered) (hpos : Document.root < d.next) (hl : d.isLive id = true)
    (hr : id ≠ Document.root) :
    Agrees d (apply table d id) (carryOut d (script table d id)) := by
  have hs := hd.spares_refl hpos
  unfold apply script
  cases hp : d.parent? id with
  | none => exact .refused hs
  | some parent =>
    dsimp only
    cases d.kind parent with
    | error e => exact .refused hs
    | ok kind =>
      dsimp only
      split
      case isTrue =>
        have hlp := isLive_of_mem_ancestors (mem_ancestors_of_parent hp)
        have hblocks := Script.perform_putBlocks hd hpos hlp
          (blocks_eq_nil_iff table.scale table.responsive) Template.rootSelector (fun b => b.value)
          fun b => [Template.variableOf b, Template.fontSize (table.scale.percentage b.root)]
        unfold expand
        rcases hblocks with ⟨c, c', hc, hkeep, hc', hkeep'⟩ | ⟨fault, e, hfault, he, hspares⟩
        · have hpc := (hkeep.parent? id hl).trans hp
          have hpc' := (hkeep'.parent? id hl).trans hp
          obtain ⟨d₁, hd₁⟩ := exists_insertNewBefore hpc (widthProperties table.responsive)
          have hp₁ := ((retains_insertNewBefore hkeep.numbered hd₁).parent? id
            (isLive_of_parent hpc)).trans hpc
          obtain ⟨d₂, hd₂⟩ := exists_replaceWithNew hp₁ hr
            (Template.fontSize (table.scale.percentage table.base.root))
          obtain ⟨e₁, he₁, hkeep₁⟩ := Script.exists_perform_putNodes hkeep'.numbered hpc'
            (table.responsive.map Template.variableOf)
          obtain ⟨e₂, he₂⟩ := Script.exists_perform_replace hkeep₁.numbered
            ((hkeep₁.parent? id (isLive_of_parent hpc')).trans hpc') hr
            (Template.fontSize (table.scale.percentage table.base.root))
          simp only [hc, hd₁, hd₂, Result.ofEdit]
          exact .applied ((Script.perform_bind_of_ok hc').trans
            ((Script.perform_bind_of_ok he₁).trans he₂))
        · simp only [hfault]
          exact .failed (Script.perform_bind_of_error he) hspares
      case isFalse =>
        have hremove := remove_eq_ok hr hl
        rw [hremove]
        exact .applied (Script.perform_edit_of_ok (.remove id) hremove)

theorem Match.agrees {α : Type} {m : Match α} {apply : α → Result}
    {script : α → Except Rejection (Script Unit)} (hs : Spares d d)
    (h : ∀ found, Agrees d (apply found) (carryOut d (script found))) :
    Agrees d (m.run d apply) (m.inTurn d script) := by
  cases m with
  | absent => exact .refused hs
  | present found => exact h found
  | invalid rejection => exact .refused hs

theorem run_agrees (hd : d.Numbered) (hpos : Document.root < d.next) (hr : id ≠ Document.root)
    (table : Breakpoints) (s : Sizing) : Agrees d (s.run table d id) (s.inTurn table d id) := by
  have hs := hd.spares_refl hpos
  cases hf : d.fontSize? id with
  | none =>
    cases s with
    | measure => rw [run, inTurn, Measure.find, hf]; exact .refused hs
    | step => rw [run, inTurn, Step.find, hf]; exact .refused hs
    | root => rw [run, inTurn, Root.find, hf]; exact .refused hs
  | some value =>
    have hl := isLive_of_fontSize? hf
    cases s with
    | measure => exact Match.agrees hs (Measure.agrees hs hl)
    | step => exact Match.agrees hs (Step.agrees hd hpos hl)
    | root => exact Match.agrees hs fun _ => Root.agrees hd hpos hl hr

/-- A declaration that is not rewritten leaves all nodes as they are, whether the document is one
that can be read or any other that edits lead to. The nodes that a failed rewrite has made by then
stand apart from the others and from the root. -/
theorem spares_of_not_applied (edits : List Edit) (table : Breakpoints) (s : Sizing)
    (hr : id ≠ Document.root) : let d := edits.foldl Edit.perform empty
    (s.inTurn table d id).1 = (s.run table d id).outcome ∧
      ((s.run table d id).outcome ≠ .applied →
        (s.run table d id).document = d ∧ Spares d (s.inTurn table d id).2) := by
  intro d
  have hd : d.Numbered := (ofForest_whole .nil).toRooted.numbered.foldl_perform edits
  have hpos : Document.root < d.next :=
    Nat.lt_of_lt_of_le Nat.one_pos (next_le_foldl_perform empty edits)
  have hagrees := run_agrees hd hpos hr table s
  exact ⟨hagrees.outcome, hagrees.spares⟩

/-- A block is made for a rule that is no part of the style sheet, and then has no place. -/
theorem spares_apart_from_sheet :
    let edits := [.create (.made (.rule ".x")),
      .addChild 1 (.declaration "font-size" "t-ms(0)" false)]
    let d := edits.foldl Edit.perform empty
    2 ≠ Document.root ∧ (step.run .standard d 2).outcome = .rejected (.ofTree (.noParent 1)) ∧
      (step.inTurn .standard d 2).2.next = 6 ∧ (step.run .standard d 2).document = d ∧
      Spares d (step.inTurn .standard d 2).2 := by
  intro edits d
  have houtcome : (step.run .standard d 2).outcome = .rejected (.ofTree (.noParent 1)) := by
    decide +kernel
  have hnext : (step.inTurn .standard d 2).2.next = 6 := by decide +kernel
  obtain ⟨-, hspares⟩ := spares_of_not_applied edits .standard step (by decide : 2 ≠ Document.root)
  exact ⟨by decide, houtcome, hnext, hspares (by rw [houtcome]; exact nofun)⟩

end Sizing

end ModularScale
