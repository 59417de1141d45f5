import ModularScale.Proofs.Document.Faults
import ModularScale.Proofs.Document.InTurn

/-! # Scripts of edits

A script makes one edit after the other and ends at the first that fails, with all that was made
before it. Behind a node without a parent nothing can be put, and a script that tries to leaves no
more behind than new trees that stand apart.
-/

namespace ModularScale.Document

open Forest

variable {α β : Type} {d e c : Document} {id x anchor parent : NodeId} {node : Node}
  {below new : Forest (NodeId × Node)}

/-! ### Scripts -/

/-- Edits in turn, which may read the document in between. -/
abbrev Script (α : Type) := ExceptT TreeError (StateM Document) α

namespace Script

/-- What a script gives, or the fault that ended it, and the document that it leaves. -/
def perform (script : Script α) (d : Document) : Except TreeError α × Document :=
  script.run.run d

def make (node : Node) : Script NodeId :=
  modifyGet fun d => d.create node

def edit (edit : Edit) : Script Unit := do
  match edit.result (← get) with
  | .ok e => set e
  | .error fault =>
    set (edit.leftover (← get))
    throw fault

/-- Gives a declaration a new value. -/
def setValue (id : NodeId) (value : String) : Script Unit := do
  match (← get).setValue id value with
  | .ok e => set e
  | .error fault => throw fault

/-- Makes leaves behind the children of a node. -/
def putLeaves (parent : NodeId) (leaves : List Node) : Script Unit :=
  leaves.forM fun leaf => do edit (.append parent (← make leaf))

/-- Makes a block of one rule right behind a node. -/
def putBlock (anchor : NodeId) (minWidth selector : String) (leaves : List Node) :
    Script Unit := do
  let rule ← make (Template.rule selector)
  putLeaves rule leaves
  let block ← make (Template.media minWidth)
  edit (.append block rule)
  edit (.insertAfter anchor block)

/-- Makes nodes right before another, the first one first. -/
def putNodes (anchor : NodeId) (nodes : List Node) : Script Unit :=
  nodes.forM fun node => do edit (.insertBefore anchor (← make node))

theorem perform_bind_of_ok {script : Script α} {next : α → Script β} {a : α}
    (h : script.perform d = (.ok a, e)) : (script >>= next).perform d = (next a).perform e := by
  have hr : (script.run.run d : Except TreeError α × Document) = (.ok a, e) := h
  rw [perform, ExceptT.run_bind, StateT.run_bind]
  show (match (script.run.run d : Except TreeError α × Document) with | (x, s) => _) = _
  rw [hr]
  rfl

theorem perform_bind_of_error {script : Script α} {next : α → Script β} {fault : TreeError}
    (h : script.perform d = (.error fault, e)) :
    (script >>= next).perform d = (.error fault, e) := by
  have hr : (script.run.run d : Except TreeError α × Document) = (.error fault, e) := h
  rw [perform, ExceptT.run_bind, StateT.run_bind]
  show (match (script.run.run d : Except TreeError α × Document) with | (x, s) => _) = _
  rw [hr]
  rfl

theorem perform_get_bind (next : Document → Script β) (d : Document) :
    (get >>= next : Script β).perform d = (next d).perform d :=
  perform_bind_of_ok rfl

theorem perform_make (node : Node) (d : Document) :
    (make node).perform d = (.ok d.next, (d.create node).2) := rfl

theorem perform_edit_of_ok (step : Edit) (h : step.result d = .ok e) :
    (edit step).perform d = (.ok (), e) := by
  rw [edit, perform_get_bind, h]
  rfl

theorem perform_edit_of_error {step : Edit} {fault : TreeError} (h : step.result d = .error fault) :
    (edit step).perform d = (.error fault, step.leftover d) := by
  rw [edit, perform_get_bind, h]
  rfl

/-- One turn of a loop that goes on. -/
theorem perform_forM_cons {a : α} {as : List α} {body : α → Script Unit}
    (h : (body a).perform d = (.ok (), e)) :
    ((a :: as).forM body).perform d = (as.forM body).perform e :=
  perform_bind_of_ok h

end Script

/-! ### New trees that stand apart -/

/-- New trees are made apart from those that were there before. -/
structure Added (new : Forest (NodeId × Node)) (d e : Document) : Prop where
  numbered : e.Numbered
  trees : e.trees = d.trees ++ new
  le : ∀ x ∈ new.numbers, d.next ≤ x
  next_le : d.next ≤ e.next

/-- Nothing is changed about the nodes that were there before, and those that are new stand apart
from them and from the root. -/
structure Spares (d e : Document) : Prop where
  sameAt : ∀ x < d.next, SameAt x d e
  ancestors : ∀ x, d.next ≤ x → ∀ a ∈ e.ancestors x, d.next ≤ a
  isAttached : ∀ x, d.next ≤ x → e.isAttached x = false

theorem SameAt.of_append (ht : e.trees = d.trees ++ new) (h : x ∉ new.numbers) :
    SameAt x d e := by
  have hf : e.find? x = d.find? x := by
    rw [Document.find?, ht, find?_append, find?_eq_none_of_notMem h, Option.or_none, Document.find?]
  have ha : e.ancestors x = d.ancestors x := by
    rw [ancestors, ht, above?_append, above?_eq_none.mpr h, Option.or_none, ancestors]
  constructor
  · rw [Document.isLive, hf, Document.isLive]
  · rw [Document.node?, hf, Document.node?]
  · rw [Document.parent?, ha, Document.parent?]
  · unfold Document.children
    rw [hf]

theorem Numbered.notMem_of_le (hd : d.Numbered) (h : d.next ≤ x) : x ∉ d.trees.numbers :=
  fun hm => Nat.not_lt_of_le h (hd.lt_next x hm)

/-- A node that has not been made yet is not attached to the root. -/
theorem isAttached_eq_false (hpos : root < d.next) (hx : d.next ≤ x)
    (h : ∀ a ∈ e.ancestors x, d.next ≤ a) : e.isAttached x = false := by
  have htop : d.next ≤ (e.ancestors x).getLast?.getD x := by
    cases hlast : (e.ancestors x).getLast? with
    | none => exact hx
    | some top => exact h top (List.mem_of_getLast? hlast)
  have hne : (e.ancestors x).getLast?.getD x ≠ root := Nat.ne_of_gt (Nat.lt_of_lt_of_le hpos htop)
  rw [Document.isAttached, beq_eq_false_iff_ne.mpr hne, Bool.and_false]

theorem Numbered.spares_refl (hd : d.Numbered) (hpos : root < d.next) : Spares d d := by
  have habove : ∀ x, d.next ≤ x → ∀ a ∈ d.ancestors x, d.next ≤ a := by
    intro x hx a ha
    rw [ancestors, above?_eq_none.mpr (hd.notMem_of_le hx)] at ha
    cases ha
  exact ⟨fun x _ => .refl x d, habove, fun x hx => isAttached_eq_false hpos hx (habove x hx)⟩

namespace Added

theorem create (hd : d.Numbered) (node : Node) :
    Added (.single (d.next, node) .nil) d (d.create node).2 where
  numbered := hd.create node
  trees := rfl
  le x hx := by
    rw [single, numbers_cons, List.mem_cons] at hx
    exact Nat.le_of_eq (hx.resolve_right List.not_mem_nil).symm
  next_le := Nat.le_succ _

theorem spares (h : Added new d e) (hd : d.Numbered) (hpos : root < d.next) : Spares d e := by
  have habove : ∀ x, d.next ≤ x → ∀ a ∈ e.ancestors x, d.next ≤ a := by
    intro x hx a ha
    rw [ancestors, h.trees, above?_append, above?_eq_none.mpr (hd.notMem_of_le hx),
      Option.none_or] at ha
    cases has : new.above? (isNode x) with
    | none => rw [has] at ha; cases ha
    | some as => exact h.le a (List.map_subset _ (above?_subset has) (by rwa [has] at ha))
  exact ⟨fun x hx => .of_append h.trees fun hm => Nat.not_lt_of_le (h.le x hm) hx, habove,
    fun x hx => isAttached_eq_false hpos hx (habove x hx)⟩

/-- What is made apart can be taken in. -/
theorem fresh (h : Added new d e) : d.Fresh new := by
  have hn := h.numbered.nodup
  rw [h.trees, numbers_append, List.nodup_append] at hn
  refine ⟨hn.2.1, fun x hx => ?_⟩
  rw [Bool.eq_false_iff, Ne, isLive_iff]
  exact fun hm => hn.2.2 x hm x hx rfl

end Added

/-! ### Blocks and nodes that are put in place -/

/-- Nodes are still there, below the same parents. -/
structure Retains (d e : Document) : Prop where
  numbered : e.Numbered
  isLive : ∀ x, d.isLive x = true → e.isLive x = true
  parent? : ∀ x, d.isLive x = true → e.parent? x = d.parent? x

theorem Retains.refl (hd : d.Numbered) : Retains d d :=
  ⟨hd, fun _ hx => hx, fun _ _ => rfl⟩

theorem Retains.trans (h : Retains d e) (h' : Retains e c) : Retains d c where
  numbered := h'.numbered
  isLive x hx := h'.isLive x (h.isLive x hx)
  parent? x hx := (h'.parent? x (h.isLive x hx)).trans (h.parent? x hx)

theorem Spliced.retains {place : NodeId → List NodeId} (h : Spliced place new d e)
    (he : e.Numbered) : Retains d e :=
  ⟨he, fun _ hx => h.isLive_of_isLive hx, fun _ hx => h.parent? hx⟩

theorem Numbered.graft_new {shape : Forest Node} {grafted : Forest (NodeId × Node)}
    (hd : d.Numbered) (hg : Grafted (shape.number d.next).1 d.trees grafted) :
    Numbered ⟨grafted, (shape.number d.next).2⟩ := by
  have hf := hd.fresh_number shape
  obtain ⟨hnew, hnext⟩ := numbers_number shape d.next
  constructor
  · refine hg.perm.nodup_iff.mpr (List.nodup_append.mpr ⟨hf.nodup, hd.nodup, ?_⟩)
    rintro x hx _ hm rfl
    exact hf.notMem_trees hx hm
  · intro x hx
    rcases List.mem_append.mp (hg.perm.mem_iff.mp hx) with hx | hx
    · rw [hnew, List.mem_range'_1] at hx
      exact hnext ▸ hx.2
    · exact hnext ▸ Nat.lt_add_right _ (hd.lt_next x hx)

theorem retains_insertNewAfter {shape : Forest Node} (hd : d.Numbered)
    (h : d.insertNewAfter anchor shape = .ok e) : Retains d e := by
  rcases insertNewAfter_ok h with ⟨-, rfl⟩ | ⟨⟨hl, -⟩, rfl⟩
  · exact .refl hd
  · exact (spliced_insertAfter hd.nodup hl (hd.fresh_number shape) rfl).retains
      (hd.graft_new (grafted_insertAfter hd.nodup (isLive_iff.mp hl)))

theorem retains_insertNewBefore {shape : Forest Node} (hd : d.Numbered)
    (h : d.insertNewBefore anchor shape = .ok e) : Retains d e := by
  rcases insertNewBefore_ok h with ⟨-, rfl⟩ | ⟨⟨hl, -⟩, rfl⟩
  · exact .refl hd
  · exact (spliced_insertBefore hd.nodup hl (hd.fresh_number shape) rfl).retains
      (hd.graft_new (grafted_insertBefore hd.nodup (isLive_iff.mp hl)))

namespace Script

/-- Leaves are put below a new tree. -/
theorem perform_putLeaves (h : Added (.single (parent, node) below) d c) (leaves : List Node) :
    ∃ below' e, (putLeaves parent leaves).perform c = (.ok (), e) ∧
      Added (.single (parent, node) below') d e := by
  induction leaves generalizing below c with
  | nil => exact ⟨below, c, rfl, h⟩
  | cons leaf leaves ih =>
    have hparent : parent ∉ d.trees.numbers := fun hm =>
      h.fresh.notMem (isLive_iff.mpr hm) List.mem_cons_self
    have hmem : parent ∈ c.trees.numbers := by
      rw [h.trees, numbers_append]
      exact List.mem_append_right _ List.mem_cons_self
    have happend := append_create h.numbered hmem leaf
    have hput : (do edit (.append parent (← make leaf)) : Script Unit).perform c = (.ok (), _) :=
      (perform_bind_of_ok (perform_make leaf c)).trans (perform_edit_of_ok _ happend)
    have hadded : Added (.single (parent, node) (below ++ .single (c.next, leaf) .nil)) d
        ⟨appendTo (isNode parent) (.single (c.next, leaf) .nil) c.trees, c.next + 1⟩ := by
      refine ⟨(h.numbered.create leaf).append happend, ?_, ?_, Nat.le_succ_of_le h.next_le⟩
      · rw [h.trees, ← appendTo_append_single hparent node below, appendTo_appendTo,
          appendTo_append_single hparent]
      · intro x hx
        have hsplit : x ∈ (single (parent, node) below).numbers ∨ x = c.next := by
          simpa [single, or_assoc] using hx
        rcases hsplit with hx | rfl
        · exact h.le x hx
        · exact h.next_le
    obtain ⟨below', e, he, h'⟩ := ih hadded
    have hturn : (putLeaves parent (leaf :: leaves)).perform c =
        (putLeaves parent leaves).perform _ :=
      perform_forM_cons hput
    exact ⟨below', e, hturn.trans he, h'⟩

/-- A block is made apart up to the point where it is put in place. -/
theorem perform_putBlock (hd : d.Numbered) (anchor : NodeId) (minWidth selector : String)
    (leaves : List Node) : ∃ id below e, Added (.single (id, Template.media minWidth) below) d e ∧
      (putBlock anchor minWidth selector leaves).perform d =
        (edit (.insertAfter anchor id)).perform e := by
  obtain ⟨below, c, hleaves, hc⟩ :=
    perform_putLeaves (.create hd (Template.rule selector)) leaves
  have hrule : d.next ∉ d.trees.numbers := hd.next_notMem
  have happend := append_last hc.trees hrule hc.numbered (Template.media minWidth)
  have hnumbered := (hc.numbered.create _).append happend
  refine ⟨c.next, .single (d.next, Template.rule selector) below, _, ⟨hnumbered, rfl, ?_, ?_⟩, ?_⟩
  · intro x hx
    have hsplit : x = c.next ∨ x ∈ (single (d.next, Template.rule selector) below).numbers := by
      simpa [single] using hx
    rcases hsplit with rfl | hx
    · exact hc.next_le
    · exact hc.le x hx
  · exact Nat.le_succ_of_le hc.next_le
  · calc (putBlock anchor minWidth selector leaves).perform d
        = (do
            putLeaves d.next leaves
            let block ← make (Template.media minWidth)
            edit (.append block d.next)
            edit (.insertAfter anchor block)).perform (d.create (Template.rule selector)).2 :=
          perform_bind_of_ok (perform_make _ _)
      _ = (do
            let block ← make (Template.media minWidth)
            edit (.append block d.next)
            edit (.insertAfter anchor block)).perform c := perform_bind_of_ok hleaves
      _ = (do
            edit (.append c.next d.next)
            edit (.insertAfter anchor c.next)).perform (c.create (Template.media minWidth)).2 :=
          perform_bind_of_ok (perform_make _ _)
      _ = _ := perform_bind_of_ok (perform_edit_of_ok (.append c.next d.next) happend)

/-- A loop goes to its end if each turn does its part wherever those before it have led. -/
theorem exists_perform_forM {body : α → Script Unit} (hd : d.Numbered)
    (hbody : ∀ a e, Retains d e → ∃ e', (body a).perform e = (.ok (), e') ∧ Retains e e')
    (as : List α) : ∃ e, (as.forM body).perform d = (.ok (), e) ∧ Retains d e := by
  have hrun : ∀ c, Retains d c → ∃ e, (as.forM body).perform c = (.ok (), e) ∧ Retains d e := by
    induction as with
    | nil => exact fun c hc => ⟨c, rfl, hc⟩
    | cons a as ih =>
      intro c hc
      obtain ⟨c', hturn, hc'⟩ := hbody a c hc
      obtain ⟨e, he, h⟩ := ih c' (hc.trans hc')
      exact ⟨e, (perform_forM_cons hturn).trans he, h⟩
  exact hrun d (.refl hd)

/-- Behind a node that has a parent there is a place for a block. -/
theorem exists_perform_putBlock (hd : d.Numbered) (hp : d.parent? anchor = some parent)
    (minWidth selector : String) (leaves : List Node) : ∃ e,
      (putBlock anchor minWidth selector leaves).perform d = (.ok (), e) ∧ Retains d e := by
  obtain ⟨id, below, c, hc, hput⟩ := perform_putBlock hd anchor minWidth selector leaves
  obtain ⟨a, as, ha⟩ := exists_above_of_parent hp
  have hid : id ∉ d.trees.numbers := fun hm =>
    hc.fresh.notMem (isLive_iff.mpr hm) List.mem_cons_self
  have hinsert := insertAfter_last hc.trees hid ha
  refine ⟨_, hput.trans (perform_edit_of_ok (.insertAfter anchor id) hinsert), ?_⟩
  exact (spliced_insertAfter hd.nodup (isLive_of_parent hp) hc.fresh rfl).retains
    (hc.numbered.insertAfter hinsert)

/-- Behind a node without a parent there is none, and the block stays apart. -/
theorem exists_perform_putBlock_of_orphan (hd : d.Numbered) (hpos : root < d.next)
    (hl : d.isLive anchor = true) (hp : d.parent? anchor = none) (minWidth selector : String)
    (leaves : List Node) : ∃ e, (putBlock anchor minWidth selector leaves).perform d =
      (.error (.noParent anchor), e) ∧ Spares d e := by
  obtain ⟨id, below, e, he, hput⟩ := perform_putBlock hd anchor minWidth selector leaves
  have hold : SameAt anchor d e := (he.spares hd hpos).sameAt _ (hd.lt_next _ (isLive_iff.mp hl))
  have hlive : e.isLive anchor = true := hold.isLive.trans hl
  have hparent : e.parent? anchor = none := hold.parent?.trans hp
  have hinsert : (Edit.insertAfter anchor id).result e = .error (.noParent anchor) := by
    simp [Edit.result, Document.insertAfter, checkAnchor, checkLive, hlive, hparent, bind,
      Except.bind]
  exact ⟨e, hput.trans (perform_edit_of_error hinsert), he.spares hd hpos⟩

/-- Blocks that are put behind a node one at a time, the last one first, find a place if they all
do together. If not the first that is made stays apart, and there are no others. -/
theorem perform_putBlocks (hd : d.Numbered) (hpos : root < d.next) (hl : d.isLive anchor = true)
    {as : List α} {shape : Forest Node} (hshape : shape = .nil ↔ as = []) (selector : String)
    (width : α → String) (leaves : α → List Node) :
    let blocks := as.reverse.forM fun a => putBlock anchor (width a) selector (leaves a)
    (∃ e e', d.insertNewAfter anchor shape = .ok e ∧ Retains d e ∧
      blocks.perform d = (.ok (), e') ∧ Retains d e') ∨
    ∃ fault e', d.insertNewAfter anchor shape = .error fault ∧
      blocks.perform d = (.error fault, e') ∧ Spares d e' := by
  intro blocks
  by_cases has : as = []
  · subst has
    obtain rfl := hshape.mpr rfl
    exact .inl ⟨d, d, rfl, .refl hd, rfl, .refl hd⟩
  cases hp : d.parent? anchor with
  | some parent =>
    obtain ⟨e, he⟩ := exists_insertNewAfter hp shape
    obtain ⟨e', he', h'⟩ := exists_perform_forM hd (fun a c hc => exists_perform_putBlock
      hc.numbered ((hc.parent? anchor hl).trans hp) (width a) selector (leaves a)) as.reverse
    exact .inl ⟨e, e', he, retains_insertNewAfter hd he, he', h'⟩
  | none =>
    obtain ⟨a, rest, hrev⟩ := List.exists_cons_of_ne_nil (List.reverse_ne_nil_iff.mpr has)
    obtain ⟨e', he', h'⟩ := exists_perform_putBlock_of_orphan hd hpos hl hp (width a) selector
      (leaves a)
    refine .inr ⟨.noParent anchor, e', ?_, ?_, h'⟩
    · simp [insertNewAfter, mt hshape.mp has, checkAnchor, checkLive, hl, hp, bind, Except.bind]
    · simp only [blocks, hrev]
      exact perform_bind_of_error he'

theorem exists_perform_putNodes (hd : d.Numbered) (hp : d.parent? anchor = some parent)
    (nodes : List Node) :
    ∃ e, (putNodes anchor nodes).perform d = (.ok (), e) ∧ Retains d e := by
  refine exists_perform_forM hd (fun node c hc => ?_) nodes
  have hl := isLive_of_parent hp
  have hpc : c.parent? anchor = some parent := (hc.parent? anchor hl).trans hp
  obtain ⟨a, as, ha⟩ := exists_above_of_parent hpc
  have hinsert := insertBefore_last (d := (c.create node).2) rfl hc.numbered.next_notMem ha
  refine ⟨_, (perform_bind_of_ok (perform_make node c)).trans
    (perform_edit_of_ok (.insertBefore anchor c.next) hinsert), ?_⟩
  exact (spliced_insertBefore hc.numbered.nodup (hc.isLive anchor hl) (Added.create hc.numbered
    node).fresh rfl).retains ((hc.numbered.create node).insertBefore hinsert)

/-- A new node can take the place of another that has a parent. -/
theorem exists_perform_replace (hd : d.Numbered) (hp : d.parent? id = some parent)
    (hr : id ≠ root) (node : Node) : ∃ e,
      (do edit (.replace id (← make node)) : Script Unit).perform d = (.ok (), e) := by
  obtain ⟨a, as, ha⟩ := exists_above_of_parent hp
  have hinsert := insertBefore_last (d := (d.create node).2) rfl hd.next_notMem ha
  have hreplace : ∃ e, (Edit.replace id d.next).result (d.create node).2 = .ok e := by
    rw [Edit.result, Document.replace, if_neg hr, hinsert]
    exact ⟨_, rfl⟩
  obtain ⟨e, he⟩ := hreplace
  exact ⟨e, (perform_bind_of_ok (perform_make node d)).trans (perform_edit_of_ok _ he)⟩

theorem exists_perform_setValue (hl : d.isLive id = true) (value : String) :
    ∃ e, (setValue id value).perform d = (.ok (), e) := by
  obtain ⟨e, he⟩ := exists_setValue hl value
  refine ⟨e, ?_⟩
  rw [setValue, perform_get_bind, he]
  rfl

end Script

end ModularScale.Document
