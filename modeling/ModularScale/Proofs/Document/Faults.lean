import ModularScale.Proofs.Document.Amid
import ModularScale.Proofs.Document.Edits

/-! # Faults of edits

An edit checks one thing after the other and reports the first fault that it finds. An edit that
fails changes no node that was there before.
-/

namespace ModularScale

namespace Document

open Forest

variable {α β : Type} {d : Document} {id x : NodeId}

/-- The first fault that applies. -/
def firstFault (faults : List (Bool × TreeError)) : Option TreeError :=
  (faults.find? Prod.fst).map Prod.snd

/-- An action fails when one of the faults applies, and then with the first of these. -/
def Reports (action : Except TreeError α) (faults : List (Bool × TreeError)) : Prop :=
  ∀ e, action = .error e ↔ firstFault faults = some e

namespace Reports

variable {action : Except TreeError α} {faults later : List (Bool × TreeError)}

theorem ok (a : α) : Reports (.ok a) [] := by
  intro e
  constructor <;> exact nofun

/-- A check stands before what is done when it passes. -/
theorem check {b : Bool} {c : Prop} [Decidable c] {fault : TreeError} (hb : b = true ↔ c)
    (h : Reports action faults) :
    Reports (if c then .error fault else action) ((b, fault) :: faults) := by
  intro e
  cases b with
  | true =>
    rw [if_pos (hb.mp rfl)]
    constructor <;> rintro ⟨⟩ <;> rfl
  | false =>
    rw [if_neg fun hc => Bool.false_ne_true (hb.mpr hc)]
    exact h e

theorem bind {next : α → Except TreeError β} (h : Reports action faults)
    (hn : ∀ a, Reports (next a) later) : Reports (action >>= next) (faults ++ later) := by
  intro e
  have happend : firstFault (faults ++ later) = (firstFault faults).or (firstFault later) := by
    simp [firstFault, List.find?_append, Option.map_or]
  rw [happend]
  cases action with
  | error fault =>
    have hf := (h fault).mp rfl
    rw [hf]
    constructor <;> rintro ⟨⟩ <;> rfl
  | ok a =>
    have hf : firstFault faults = none := by
      rw [Option.eq_none_iff_forall_ne_some]
      intro fault hf
      cases (h fault).mpr hf
    rw [hf]
    exact hn a e

theorem andThen (h : Reports action faults) (f : α → β) :
    Reports (action >>= fun a => .ok (f a)) faults := by
  have hb := h.bind fun a => ok (f a)
  rwa [List.append_nil] at hb

theorem map (h : Reports action faults) (f : α → β) : Reports (action.map f) faults := by
  cases action with
  | error fault => exact h.andThen f
  | ok a => exact h.andThen f

end Reports

/-- What can be wrong with a place beside a node. -/
def anchorFaults (d : Document) (anchor : NodeId) : List (Bool × TreeError) :=
  [(!d.isLive anchor, .removed anchor), ((d.parent? anchor).isNone, .noParent anchor)]

/-- What can be wrong with a node that is to be moved to a place by another. -/
def moveFaults (d : Document) (target id : NodeId) (self descendant : MoveError) :
    List (Bool × TreeError) :=
  [(!d.isLive id, .removed id), (id = target, .move self),
    ((d.ancestors target).contains id, .move descendant)]

def appendFaults (d : Document) (parent child : NodeId) : List (Bool × TreeError) :=
  (!d.isLive parent, .removed parent) ::
    d.moveFaults parent child .appendSelf .appendToDescendant

def insertBeforeFaults (d : Document) (anchor id : NodeId) : List (Bool × TreeError) :=
  d.anchorFaults anchor ++ d.moveFaults anchor id .insertBeforeSelf .insertBeforeDescendant

def insertAfterFaults (d : Document) (anchor id : NodeId) : List (Bool × TreeError) :=
  d.anchorFaults anchor ++ d.moveFaults anchor id .insertAfterSelf .appendToDescendant

/-- What can be wrong with an edit, in the order in which it is looked for. -/
def Edit.faults (d : Document) : Edit → List (Bool × TreeError)
  | create _ => []
  | setKind id _ => [(!d.isLive id, .removed id)]
  | append parent child => d.appendFaults parent child
  | insertBefore anchor id => d.insertBeforeFaults anchor id
  | insertAfter anchor id => d.insertAfterFaults anchor id
  | remove id => [(id = root, .root), (!d.isLive id, .removed id)]
  | replace old new => (old = root, .root) :: d.insertBeforeFaults old new
  | addChild parent kind => (d.create (.made kind)).2.appendFaults parent d.next

theorem reports_checkLive (d : Document) (id : NodeId) :
    Reports (d.checkLive id) [(!d.isLive id, .removed id)] := by
  intro e
  cases h : d.isLive id <;> simp [checkLive, h, firstFault]

theorem reports_checkAnchor (d : Document) (anchor : NodeId) :
    Reports (d.checkAnchor anchor) (d.anchorFaults anchor) :=
  (reports_checkLive d anchor).bind fun _ => .check Iff.rfl (.ok ())

theorem reports_checkMove (d : Document) (target id : NodeId) (self descendant : MoveError) :
    Reports (d.checkMove target id self descendant) (d.moveFaults target id self descendant) :=
  (reports_checkLive d id).bind fun _ =>
    .check decide_eq_true_iff (.check Iff.rfl (.ok ()))

theorem reports_append (d : Document) (parent child : NodeId) :
    Reports (d.append parent child) (d.appendFaults parent child) :=
  (reports_checkLive d parent).bind fun _ => (reports_checkMove d parent child _ _).andThen _

theorem reports_insertBefore (d : Document) (anchor id : NodeId) :
    Reports (d.insertBefore anchor id) (d.insertBeforeFaults anchor id) :=
  (reports_checkAnchor d anchor).bind fun _ => (reports_checkMove d anchor id _ _).andThen _

theorem reports_insertAfter (d : Document) (anchor id : NodeId) :
    Reports (d.insertAfter anchor id) (d.insertAfterFaults anchor id) :=
  (reports_checkAnchor d anchor).bind fun _ => (reports_checkMove d anchor id _ _).andThen _

theorem Edit.reports (d : Document) (edit : Edit) : Reports (edit.result d) (edit.faults d) := by
  cases edit with
  | create node => exact .ok _
  | setKind id kind => exact .check (by simp) (.ok _)
  | append parent child => exact reports_append d parent child
  | insertBefore anchor id => exact reports_insertBefore d anchor id
  | insertAfter anchor id => exact reports_insertAfter d anchor id
  | remove id => exact .check decide_eq_true_iff ((reports_checkLive d id).andThen _)
  | replace old new => exact .check decide_eq_true_iff ((reports_insertBefore d old new).andThen _)
  | addChild parent kind => exact ((reports_append _ parent d.next).andThen _).map Prod.snd

/-! ### Failures -/

/-- A node is, or is not, in both documents, and has the same in both. -/
structure SameAt (id : NodeId) (d e : Document) : Prop where
  isLive : e.isLive id = d.isLive id
  node? : e.node? id = d.node? id
  parent? : e.parent? id = d.parent? id
  children : e.children id = d.children id

theorem SameAt.refl (id : NodeId) (d : Document) : SameAt id d d :=
  ⟨rfl, rfl, rfl, rfl⟩

/-- A node that is made stands apart from all others. -/
theorem SameAt.create (d : Document) (node : Node) (h : id ≠ d.next) :
    SameAt id d (d.create node).2 := by
  have hs : id ∉ (Forest.single (d.next, node) .nil).numbers := by simpa [single] using h
  have hf : (d.create node).2.find? id = d.find? id := by
    apply (find?_append (isNode id) d.trees (.single (d.next, node) .nil)).trans
    rw [find?_eq_none_of_notMem hs, Option.or_none]
    rfl
  have ha : (d.create node).2.ancestors id = d.ancestors id := by
    have happend := above?_append d.trees (.single (d.next, node) .nil) id
    rw [above?_eq_none.mpr hs, Option.or_none] at happend
    exact congrArg (fun above => (above.getD []).map Prod.fst) happend
  constructor
  · exact congrArg Option.isSome hf
  · exact congrArg (·.map (·.1.2)) hf
  · exact congrArg List.head? ha
  · unfold Document.children
    rw [hf]

/-- Each edit fails with the first of its faults that applies, and changes no other node than the
one that it may have made. -/
theorem error_iff_firstFault (d : Document) (edit : Edit) (fault : TreeError) :
    (edit.result d = .error fault ↔ firstFault (edit.faults d) = some fault) ∧
      (edit.result d = .error fault → ∀ id ≠ d.next, SameAt id d (edit.perform d)) := by
  refine ⟨edit.reports d fault, fun h id hid => ?_⟩
  have hp : edit.perform d = edit.leftover d := by
    unfold Edit.perform
    rw [h]
  rw [hp]
  cases edit with
  | addChild parent kind => exact .create d _ hid
  | _ => exact .refl id d

/-- A node that is gone has no parent and is moved to a place by itself, but that it is gone is
found first. -/
theorem error_of_gone_anchor :
    let edits := [.create (.made (.rule ".x")), .append root 1, .addChild 1 (.comment ""), .remove 2]
    let d := edits.foldl Edit.perform empty
    (Edit.insertAfter 2 2).result d = .error (.removed 2) ∧
      SameAt 1 d ((Edit.insertAfter 2 2).perform d) := by
  intro edits d
  obtain ⟨hiff, hsame⟩ := error_iff_firstFault d (.insertAfter 2 2) (.removed 2)
  have h := hiff.mpr (by decide)
  exact ⟨h, hsame h 1 (by decide)⟩

end Document

end ModularScale
