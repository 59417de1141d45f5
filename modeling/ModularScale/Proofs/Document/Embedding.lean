import ModularScale.Proofs.Document.Keeping

/-! # Embedded documents

A document is embedded in a larger one where its nodes, possibly under other numbers, are what they
are in the document alone, and where cuts and grafts do the same. Then the edits of a style sheet do
the same too and fail alike.
-/

namespace ModularScale

namespace TreeError

/-- The same error about nodes with other numbers. -/
def rename (ρ : NodeId → NodeId) : TreeError → TreeError
  | removed id => removed (ρ id)
  | noParent id => noParent (ρ id)
  | root => root
  | move e => move e

/-- No message tells the number of a node. -/
theorem message_rename (ρ : NodeId → NodeId) (e : TreeError) : (e.rename ρ).message = e.message := by
  cases e <;> rfl

theorem rename_id (e : TreeError) : e.rename (fun id => id) = e := by
  cases e <;> rfl

end TreeError

open Document

/-- A way to see documents in larger ones. It may be right about some nodes and for some documents
only, but among these are all nodes of such a document and all documents that edits make of it. -/
structure Embedding where
  number : NodeId → NodeId
  document : Document → Document
  Known : NodeId → Prop
  Fits : Document → Prop
  whole : ∀ {d}, Fits d → d.Whole
  of_edited : ∀ {d e changed lost}, Fits d → Edited changed lost d e → Fits e
  known : ∀ {d id}, Fits d → d.isLive id = true → Known id
  number_eq_root : ∀ {id}, number id = root ↔ id = root
  node? : ∀ {id}, Known id → ∀ d, (document d).node? (number id) = d.node? id
  ancestors : ∀ {id}, Known id → ∀ d,
    (document d).ancestors (number id) = (d.ancestors id).map number
  modify : ∀ {id}, Known id → ∀ d (change : Node → Node),
    { document d with
      trees := (document d).trees.modify (isNode (number id)) fun (id, n) => (id, change n) } =
    document { d with trees := d.trees.modify (isNode id) fun (id, n) => (id, change n) }
  without : ∀ {id}, Known id → ∀ d,
    { document d with trees := (document d).without (number id) } =
    document { d with trees := d.without id }
  insertAfter : ∀ {d anchor}, Fits d → Known anchor → d.checkAnchor anchor = .ok () →
    ∀ new : Forest Node,
    (⟨.insertAfter (isNode (number anchor)) (new.number (document d).next).1 (document d).trees,
      (new.number (document d).next).2⟩ : Document) =
    document ⟨.insertAfter (isNode anchor) (new.number d.next).1 d.trees, (new.number d.next).2⟩
  insertBefore : ∀ {d anchor}, Fits d → Known anchor → d.checkAnchor anchor = .ok () →
    ∀ new : Forest Node,
    (⟨.insertBefore (isNode (number anchor)) (new.number (document d).next).1 (document d).trees,
      (new.number (document d).next).2⟩ : Document) =
    document ⟨.insertBefore (isNode anchor) (new.number d.next).1 d.trees, (new.number d.next).2⟩

namespace Embedding

variable {E : Embedding} {d : Document} {id x : NodeId}

def error (E : Embedding) : TreeError → TreeError :=
  .rename E.number

/-- What an edit gives in a larger document. -/
def edited (E : Embedding) (edited : Except TreeError Document) : Except TreeError Document :=
  (edited.mapError E.error).map E.document

theorem known_of_mem_ancestors (hd : E.Fits d) (h : x ∈ d.ancestors id) : E.Known x :=
  E.known hd (isLive_of_mem_ancestors h)

variable (h : E.Known id)
include h

theorem isLive (d : Document) : (E.document d).isLive (E.number id) = d.isLive id := by
  rw [Bool.eq_iff_iff, isLive_iff_node, isLive_iff_node, E.node? h]

theorem kind (d : Document) : (E.document d).kind (E.number id) = (d.kind id).mapError E.error := by
  rw [Document.kind, E.node? h, Document.kind]
  cases d.node? id <;> rfl

theorem line? (d : Document) : (E.document d).line? (E.number id) = d.line? id := by
  rw [Document.line?, E.node? h, Document.line?]

theorem fontSize? (d : Document) : (E.document d).fontSize? (E.number id) = d.fontSize? id := by
  rw [Document.fontSize?, E.node? h, Document.fontSize?]

theorem parent? (d : Document) :
    (E.document d).parent? (E.number id) = (d.parent? id).map E.number := by
  rw [Document.parent?, E.ancestors h, List.head?_map, Document.parent?]

theorem isAttached (d : Document) : (E.document d).isAttached (E.number id) = d.isAttached id := by
  have hlast : ((d.ancestors id).map E.number).getLast?.getD (E.number id) =
      E.number ((d.ancestors id).getLast?.getD id) := by
    rw [List.getLast?_map, Option.getD_map]
  rw [Document.isAttached, isLive h, E.ancestors h, hlast, Document.isAttached, Bool.eq_iff_iff]
  simp only [Bool.and_eq_true, beq_iff_eq, E.number_eq_root]

theorem checkLive (d : Document) :
    (E.document d).checkLive (E.number id) = (d.checkLive id).mapError E.error := by
  rw [Document.checkLive, isLive h, Document.checkLive]
  split <;> rfl

theorem checkAnchor (d : Document) :
    (E.document d).checkAnchor (E.number id) = (d.checkAnchor id).mapError E.error := by
  rw [Document.checkAnchor, checkLive h, parent? h, Option.isNone_map, Document.checkAnchor]
  cases d.checkLive id with
  | error e => rfl
  | ok _ =>
    simp only [bind, Except.bind, Except.mapError]
    split <;> rfl

theorem setKind (d : Document) (kind : Kind) :
    (E.document d).setKind (E.number id) kind = E.edited (d.setKind id kind) := by
  rw [Document.setKind, isLive h, Document.setKind]
  split
  · rfl
  · exact congrArg Except.ok (E.modify h d fun node => { node with kind })

theorem setValue (d : Document) (value : String) :
    (E.document d).setValue (E.number id) value = E.edited (d.setValue id value) := by
  rw [Document.setValue, kind h, Document.setValue]
  cases d.kind id with
  | error e => rfl
  | ok kind =>
    cases kind with
    | declaration => exact setKind h d _
    | _ => rfl

theorem remove (d : Document) :
    (E.document d).remove (E.number id) = E.edited (d.remove id) := by
  rw [Document.remove, checkLive h, Document.remove]
  simp only [E.number_eq_root, E.without h]
  split
  · rfl
  · cases d.checkLive id <;> rfl

variable (hd : E.Fits d)
include hd

theorem insertNewAfter (new : Forest Node) :
    (E.document d).insertNewAfter (E.number id) new = E.edited (d.insertNewAfter id new) := by
  rw [Document.insertNewAfter, checkAnchor h, Document.insertNewAfter]
  split
  · rfl
  · cases ha : d.checkAnchor id with
    | error e => rfl
    | ok _ => exact congrArg Except.ok (E.insertAfter hd h ha new)

theorem insertNewBefore (new : Forest Node) :
    (E.document d).insertNewBefore (E.number id) new = E.edited (d.insertNewBefore id new) := by
  rw [Document.insertNewBefore, checkAnchor h, Document.insertNewBefore]
  split
  · rfl
  · cases ha : d.checkAnchor id with
    | error e => rfl
    | ok _ => exact congrArg Except.ok (E.insertBefore hd h ha new)

theorem replaceWithNew (node : Node) :
    (E.document d).replaceWithNew (E.number id) node = E.edited (d.replaceWithNew id node) := by
  rw [Document.replaceWithNew, insertNewBefore h hd, Document.replaceWithNew]
  simp only [E.number_eq_root]
  split
  · rfl
  · cases d.insertNewBefore id (.single node .nil) with
    | error e => rfl
    | ok d' => exact congrArg Except.ok (E.without h d')

end Embedding

end ModularScale
