import ModularScale.Proofs.Document.Attaching
import ModularScale.Proofs.Document.Splices
import ModularScale.Proofs.Sizing.Outcome

/-! # New nodes in turn

New nodes come beside another one either all together or one after the other. Each is then made
apart and moved to its place. Behind a node the last one has to come first, before a node the first.
-/

namespace ModularScale.Document

open Forest

variable {d e e' : Document} {id anchor parent : NodeId} {node : Node} {shape shape' : Forest Node}
  {f below new new' : Forest (NodeId × Node)}

/-! ### Trees that stand last -/

section Last

variable (ht : d.trees = f ++ .single (id, node) below) (hf : id ∉ f.numbers)

include ht hf

theorem find?_last : d.find? id = some ((id, node), below) := by
  rw [Document.find?, ht, find?_append, find?_eq_none_of_notMem hf, Option.none_or, single,
    find?_cons_of_eq (a := (id, node)) rfl]

theorem subtree_last : d.subtree id = .single (id, node) below := by
  rw [subtree, find?_last ht hf]

theorem without_last : d.without id = f := by
  rw [without, ht, erase_append, erase_of_notMem hf, single, erase_cons_of_eq (a := (id, node)) rfl,
    erase, append_nil]

/-- Trees other than the last one are open to it. -/
theorem checks_last {a : NodeId × Node} {as : List (NodeId × Node)}
    (ha : f.above? (isNode anchor) = some (a :: as)) (self descendant : MoveError) :
    d.checkAnchor anchor = .ok () ∧ d.checkMove anchor id self descendant = .ok () := by
  have habove : d.trees.above? (isNode anchor) = some (a :: as) := by
    rw [ht, above?_append, ha]
    rfl
  have hp : d.parent? anchor = some a.1 := by rw [parent?, ancestors_eq habove]; rfl
  have hid : id ≠ anchor := fun he => hf (he ▸ mem_of_above? ha)
  have hl : d.isLive id = true := by rw [isLive, find?_last ht hf]; rfl
  have hm : id ∉ d.ancestors anchor := by
    rw [ancestors_eq habove]
    exact fun hm => hf (List.map_subset _ (above?_subset ha) hm)
  refine ⟨checkAnchor_eq_ok hp, ?_⟩
  simp [checkMove, checkLive, hl, hid, hm, bind, Except.bind, pure, Except.pure]

theorem insertAfter_last {a : NodeId × Node} {as : List (NodeId × Node)}
    (ha : f.above? (isNode anchor) = some (a :: as)) : d.insertAfter anchor id =
      .ok { d with trees := .insertAfter (isNode anchor) (.single (id, node) below) f } := by
  obtain ⟨hanchor, hmove⟩ := checks_last ht hf ha .insertAfterSelf .appendToDescendant
  rw [Document.insertAfter, hanchor, hmove, subtree_last ht hf, without_last ht hf]
  rfl

theorem insertBefore_last {a : NodeId × Node} {as : List (NodeId × Node)}
    (ha : f.above? (isNode anchor) = some (a :: as)) : d.insertBefore anchor id =
      .ok { d with trees := .insertBefore (isNode anchor) (.single (id, node) below) f } := by
  obtain ⟨hanchor, hmove⟩ := checks_last ht hf ha .insertBeforeSelf .insertBeforeDescendant
  rw [Document.insertBefore, hanchor, hmove, subtree_last ht hf, without_last ht hf]
  rfl

/-- The last tree can be put below a new node. -/
theorem append_last (hd : d.Numbered) (new : Node) : (d.create new).2.append d.next id =
      .ok ⟨f ++ .single (d.next, new) (.single (id, node) below), d.next + 1⟩ := by
  have hnext := hd.next_notMem
  rw [ht, numbers_append, List.mem_append, not_or] at hnext
  obtain ⟨hnf, hnb⟩ := hnext
  have hid : id ≠ d.next := fun he => hnb (he ▸ List.mem_cons_self)
  let c := (d.create new).2
  have hc : c.trees = f ++ (.single (id, node) below ++ .single (d.next, new) nil) := by
    rw [← append_assoc, ← ht]
    rfl
  have hfind : c.find? id = some ((id, node), below) := by
    rw [Document.find?, hc, find?_append, find?_eq_none_of_notMem hf, Option.none_or, single,
      cons_append, find?_cons_of_eq (a := (id, node)) rfl]
  have hsub : c.subtree id = .single (id, node) below := by rw [subtree, hfind]
  have hwithout : c.without id = f ++ .single (d.next, new) nil := by
    rw [without, hc, erase_append, erase_of_notMem hf, single, cons_append,
      erase_cons_of_eq (a := (id, node)) rfl, nil_append,
      erase_of_notMem (by simpa [single] using hid)]
  have habove : c.trees.above? (isNode d.next) = some [] := by
    rw [hc, above?_append, above?_eq_none.mpr hnf, above?_append, above?_eq_none.mpr hnb,
      Option.none_or, Option.none_or, single, above?_cons_of_eq (a := (d.next, new)) rfl]
  have hlive : c.isLive d.next = true := isLive_iff_above.mpr ⟨_, habove⟩
  have hlid : c.isLive id = true := by rw [isLive, hfind]; rfl
  have hmove : c.checkMove d.next id .appendSelf .appendToDescendant = .ok () := by
    simp [checkMove, checkLive, hlid, hid, ancestors_eq habove, bind, Except.bind, pure,
      Except.pure]
  rw [Document.append, checkLive, if_pos hlive, hmove, hsub, hwithout, appendTo_append_single hnf]
  rfl

theorem wrapInMedia_last (hd : d.Numbered) (minWidth : String) : d.wrapInMedia minWidth id =
      .ok (d.next, ⟨f ++ .single (d.next, Template.media minWidth) (.single (id, node) below),
        d.next + 1⟩) := by
  calc d.wrapInMedia minWidth id
      = ((d.create (Template.media minWidth)).2.append d.next id).map (d.next, ·) := rfl
    _ = _ := by rw [append_last ht hf hd]; rfl

end Last

/-! ### New trees beside a node -/

/-- New trees of a given shape come right behind a node. -/
structure PutBehind (anchor : NodeId) (shape : Forest Node) (new : Forest (NodeId × Node))
    (d e : Document) : Prop where
  rooted : e.Rooted
  fresh : d.Fresh new
  shape : new.map Prod.snd = shape
  trees : e.trees = .insertAfter (isNode anchor) new d.trees

/-- New trees of a given shape come right before a node. -/
structure PutBefore (anchor : NodeId) (shape : Forest Node) (new : Forest (NodeId × Node))
    (d e : Document) : Prop where
  rooted : e.Rooted
  fresh : d.Fresh new
  shape : new.map Prod.snd = shape
  trees : e.trees = .insertBefore (isNode anchor) new d.trees

theorem fresh_nil (d : Document) : d.Fresh .nil :=
  ⟨List.nodup_nil, fun _ hx => by cases hx⟩

theorem exists_above_of_parent (h : d.parent? anchor = some parent) :
    ∃ a as, d.trees.above? (isNode anchor) = some (a :: as) := by
  obtain ⟨as, has⟩ := isLive_iff_above.mp (isLive_of_parent h)
  rw [parent?, ancestors_eq has] at h
  cases as with
  | nil => cases h
  | cons a as => exact ⟨a, as, has⟩

namespace PutBehind

theorem refl (hd : d.Rooted) (anchor : NodeId) : PutBehind anchor .nil .nil d d :=
  ⟨hd, fresh_nil d, rfl, (insertAfter_nil _ _).symm⟩

theorem spliced (h : PutBehind anchor shape new d e) (hd : d.Rooted)
    (ha : d.isLive anchor = true) : Spliced (behind anchor (new.tops.map Prod.fst)) new d e :=
  spliced_insertAfter hd.nodup ha h.fresh h.trees

/-- What is put there later comes first. -/
theorem trans (h : PutBehind anchor shape new d e) (h' : PutBehind anchor shape' new' e e')
    (hd : d.Rooted) (ha : d.isLive anchor = true) :
    PutBehind anchor (shape' ++ shape) (new' ++ new) d e' where
  rooted := h'.rooted
  fresh := ((h.spliced hd ha).fresh_append h.fresh h'.fresh).1
  shape := by rw [map_append, h.shape, h'.shape]
  trees := by rw [h'.trees, h.trees, insertAfter_insertAfter]

/-- What trees that come right behind a node leave as it is, and where they are found. -/
theorem sameBut (h : PutBehind anchor shape new d e) (hd : d.Rooted)
    (hp : d.parent? anchor = some parent) :
    SameBut [] [parent] d e ∧ (∀ x, d.isLive x = true → e.isLive x = true) ∧ e.Has new ∧
      (∀ x ∈ new.numbers, e.isLive x = true) ∧
      ∃ before after, d.children parent = before ++ anchor :: after ∧
        e.children parent = before ++ anchor :: (new.tops.map Prod.fst ++ after) := by
  have hs := (h.spliced hd (isLive_of_parent hp)).beside hd.nodup (fun _ => behind_of_ne) hp
  rwa [behind, if_pos rfl] at hs

theorem of_insertNewAfter (hd : d.Rooted) (h : d.insertNewAfter anchor shape = .ok e) :
    ∃ new, PutBehind anchor shape new d e := by
  have he := hd.insertNewAfter h
  rcases insertNewAfter_ok h with ⟨rfl, rfl⟩ | ⟨-, rfl⟩
  · exact ⟨.nil, .refl hd anchor⟩
  · exact ⟨_, he, hd.numbered.fresh_number shape, map_snd_number _ _, rfl⟩

end PutBehind

namespace PutBefore

theorem refl (hd : d.Rooted) (anchor : NodeId) : PutBefore anchor .nil .nil d d :=
  ⟨hd, fresh_nil d, rfl, (insertBefore_nil _ _).symm⟩

theorem spliced (h : PutBefore anchor shape new d e) (hd : d.Rooted)
    (ha : d.isLive anchor = true) : Spliced (ahead anchor (new.tops.map Prod.fst)) new d e :=
  spliced_insertBefore hd.nodup ha h.fresh h.trees

/-- What is put there later comes last. -/
theorem trans (h : PutBefore anchor shape new d e) (h' : PutBefore anchor shape' new' e e')
    (hd : d.Rooted) (ha : d.isLive anchor = true) :
    PutBefore anchor (shape ++ shape') (new ++ new') d e' where
  rooted := h'.rooted
  fresh := ((h.spliced hd ha).fresh_append h.fresh h'.fresh).2
  shape := by rw [map_append, h.shape, h'.shape]
  trees := by rw [h'.trees, h.trees, insertBefore_insertBefore new' d.trees (h.fresh.notMem ha)]

/-- What trees that come right before a node leave as it is, and where they are found. -/
theorem sameBut (h : PutBefore anchor shape new d e) (hd : d.Rooted)
    (hp : d.parent? anchor = some parent) :
    SameBut [] [parent] d e ∧ (∀ x, d.isLive x = true → e.isLive x = true) ∧ e.Has new ∧
      (∀ x ∈ new.numbers, e.isLive x = true) ∧
      ∃ before after, d.children parent = before ++ anchor :: after ∧
        e.children parent = before ++ new.tops.map Prod.fst ++ anchor :: after := by
  have hs := (h.spliced hd (isLive_of_parent hp)).beside hd.nodup (fun _ => ahead_of_ne) hp
  rw [ahead, if_pos rfl] at hs
  simpa only [List.append_assoc, List.singleton_append] using hs

theorem of_insertNewBefore (hd : d.Rooted) (h : d.insertNewBefore anchor shape = .ok e) :
    ∃ new, PutBefore anchor shape new d e := by
  have he := hd.insertNewBefore h
  rcases insertNewBefore_ok h with ⟨rfl, rfl⟩ | ⟨-, rfl⟩
  · exact ⟨.nil, .refl hd anchor⟩
  · exact ⟨_, he, hd.numbered.fresh_number shape, map_snd_number _ _, rfl⟩

/-- New trees take the place of a node without children once it is gone. -/
theorem replaced (h : PutBefore anchor shape new d e) (hd : d.Rooted)
    (hp : d.parent? anchor = some parent) (hc : d.children anchor = [])
    (he : e'.trees = e.without anchor) :
    SameBut [] [parent] d e' ∧ (∀ x, d.isLive x = true → (e'.isLive x = true ↔ x ≠ anchor)) ∧
      e'.Has new ∧ ∃ before after, d.children parent = before ++ anchor :: after ∧
        e'.children parent = before ++ new.tops.map Prod.fst ++ after := by
  have hl := isLive_of_parent hp
  have hlp := isLive_of_mem_ancestors (mem_ancestors_of_parent hp)
  have hne : anchor ≠ parent := fun hap =>
    hd.isForest.notMem_ancestors anchor (mem_ancestors_of_parent (hap ▸ hp))
  obtain ⟨hsame, hlive, hnew, hlnew, before, after, hbefore, hafter⟩ := h.sameBut hd hp
  have hpe : e.parent? anchor = some parent := (hsame.parent? anchor hl (hlive anchor hl)).trans hp
  have hce : e.children anchor = [] := by
    rw [hsame.children anchor hl (hlive anchor hl) (by simpa using hne)]
    exact hc
  have hshed := shed_of_trees h.rooted.nodup he
  have hleft : ∀ x, e.isLive x = true → (e'.isLive x = true ↔ x ≠ anchor) := fun x hx => by
    rw [hshed.isLive x]
    exact ⟨fun hx => hx.2.1, fun hx' =>
      ⟨hx, hx', notMem_ancestors_of_children h.rooted.nodup hce x⟩⟩
  have hsame' := hshed.sameBut h.rooted.nodup hpe
  refine ⟨(hsame.trans hsame' fun x hx _ => hlive x hx).mono (by simp) (by simp),
    fun x hx => hleft x (hlive x hx), hsame'.has hnew fun x hx => ?_, before, after, hbefore, ?_⟩
  · refine ⟨hlnew x hx, (hleft x (hlnew x hx)).mpr ?_, List.not_mem_nil, fun hm => ?_⟩
    · rintro rfl
      exact h.fresh.notMem hl hx
    · rw [List.mem_singleton.mp hm] at hx
      exact h.fresh.notMem hlp hx
  · exact hshed.children_of_split h.rooted.nodup ((hleft parent (hlive parent hlp)).mpr hne.symm)
      hafter

end PutBefore

/-! ### Blocks in turn -/

/-- Makes a block of one rule right behind a node. -/
def putBlock (d : Document) (anchor : NodeId) (minWidth selector : String)
    (declarations : Forest Node) : Except TreeError Document := do
  let (rule, d) := d.create (Template.rule selector)
  let d ← d.attach rule declarations
  let (block, d) ← d.wrapInMedia minWidth rule
  d.insertAfter anchor block

/-- Makes blocks right behind a node, of which the last comes first. -/
def putBlocks {α : Type} (d : Document) (anchor : NodeId) (selector : String) (width : α → String)
    (declarations : α → Forest Node) (as : List α) : Except TreeError Document :=
  as.reverse.foldlM (fun d a => d.putBlock anchor (width a) selector (declarations a)) d

/-- A tree that is made apart at the end can be taken in. -/
theorem Rooted.graft_last {made : Document} (hd : d.Rooted) (hm : made.Rooted)
    (ht : made.trees = d.trees ++ f) (hle : d.next ≤ made.next) (node : Node)
    {grafted : Forest (NodeId × Node)}
    (hg : Grafted (.single (made.next, node) f) d.trees grafted) :
    Rooted ⟨grafted, made.next + 1⟩ ∧ d.Fresh (.single (made.next, node) f) := by
  have hn := hm.nodup
  have hnumbers : made.trees.numbers = d.trees.numbers ++ f.numbers := by
    rw [ht, numbers_append]
  rw [hnumbers, List.nodup_append] at hn
  obtain ⟨-, hnf, hdisj⟩ := hn
  have hlt : ∀ x ∈ d.trees.numbers ++ f.numbers, x < made.next := hnumbers ▸ hm.lt_next
  have hsingle : (single (made.next, node) f).numbers = made.next :: f.numbers := by simp [single]
  have hnew : ∀ x ∈ (single (made.next, node) f).numbers,
      x < made.next + 1 ∧ x ∉ d.trees.numbers := by
    rw [hsingle]
    refine List.forall_mem_cons.mpr ⟨⟨Nat.lt_succ_self _, fun hx => ?_⟩, fun x hx => ⟨?_, ?_⟩⟩
    · exact Nat.lt_irrefl _ (hlt _ (List.mem_append_left _ hx))
    · exact Nat.lt_succ_of_lt (hlt x (List.mem_append_right _ hx))
    · exact fun hm => hdisj x hm x hx rfl
  have hnodup : (single (made.next, node) f).numbers.Nodup := by
    rw [hsingle, List.nodup_cons]
    exact ⟨fun hx => Nat.lt_irrefl _ (hlt _ (List.mem_append_right _ hx)), hnf⟩
  refine ⟨hd.graft hg (Nat.le_succ_of_le hle) hnodup hnew, hnodup, fun x hx => ?_⟩
  rw [Bool.eq_false_iff, Ne, isLive_iff]
  exact (hnew x hx).2

theorem exists_putBlock (hd : d.Rooted) (hp : d.parent? anchor = some parent)
    (minWidth selector : String) (declarations : Forest Node) :
    ∃ e new, d.putBlock anchor minWidth selector declarations = .ok e ∧
      PutBehind anchor (Template.mediaBlock minWidth selector declarations) new d e := by
  obtain ⟨a, as, ha⟩ := exists_above_of_parent hp
  have hnext := hd.numbered.next_notMem
  let c := (d.create (Template.rule selector)).2
  have hc : c.Rooted := hd.create _
  have hrule : d.next ∈ c.trees.numbers := by
    rw [show c.trees.numbers = _ from numbers_append _ _]
    exact List.mem_append_right _ List.mem_cons_self
  let numbered := declarations.number c.next
  let rule : Forest (NodeId × Node) := .single (d.next, Template.rule selector) numbered.1
  let made : Document := ⟨d.trees ++ rule, numbered.2⟩
  have happend : appendTo (isNode d.next) numbered.1 c.trees = d.trees ++ rule :=
    appendTo_append_single hnext _ _
  have hmade : made.Rooted := by
    have h : Rooted ⟨appendTo (isNode d.next) numbered.1 c.trees, numbered.2⟩ :=
      hc.graft_new (grafted_appendTo hc.nodup hrule)
    rwa [happend] at h
  have hattach : c.attach d.next declarations = .ok made := by
    rw [attach_eq hc hrule, happend]
  have hmem : d.next ∈ made.trees.numbers := by simp [made, rule, single]
  have hwrap := wrapInMedia_last (d := made) rfl hnext hmade.numbered minWidth
  let block : Forest (NodeId × Node) := .single (made.next, Template.media minWidth) rule
  let wrapped : Document := ⟨d.trees ++ block, made.next + 1⟩
  have hblock : made.next ∉ d.trees.numbers := fun h =>
    hmade.numbered.next_notMem (by rw [numbers_append]; exact List.mem_append_left _ h)
  have hinsert := insertAfter_last (d := wrapped) rfl hblock ha
  obtain ⟨he, hfresh⟩ := hd.graft_last hmade rfl (Nat.le_of_lt (hmade.lt_next _ hmem))
    (Template.media minWidth) (grafted_insertAfter hd.nodup (mem_of_above? ha))
  refine ⟨_, block, ?_, he, hfresh, ?_, rfl⟩
  · calc d.putBlock anchor minWidth selector declarations
        = c.attach d.next declarations >>= fun made => made.wrapInMedia minWidth d.next >>=
            fun wrapped => wrapped.2.insertAfter anchor wrapped.1 := rfl
      _ = made.wrapInMedia minWidth d.next >>=
            fun wrapped => wrapped.2.insertAfter anchor wrapped.1 := by rw [hattach]; rfl
      _ = wrapped.insertAfter anchor made.next := by rw [hwrap]; rfl
      _ = _ := hinsert
  · have hshape : numbered.1.map Prod.snd = declarations := map_snd_number _ _
    simp [block, rule, single, Forest.map, hshape, Template.mediaBlock]

/-- Blocks that come right behind a node in turn stand there in their order. -/
theorem exists_putBlocks {α : Type} (hd : d.Rooted) (hp : d.parent? anchor = some parent)
    (selector : String) (width : α → String) (declarations : α → Forest Node) (as : List α) :
    ∃ e new, d.putBlocks anchor selector width declarations as = .ok e ∧
      PutBehind anchor (as.foldr (fun a rest =>
        Template.mediaBlock (width a) selector (declarations a) ++ rest) .nil) new d e := by
  have hl := isLive_of_parent hp
  induction as with
  | nil => exact ⟨d, .nil, rfl, .refl hd anchor⟩
  | cons a as ih =>
    obtain ⟨e, new, he, h⟩ := ih
    have hpe : e.parent? anchor = some parent := ((h.spliced hd hl).parent? hl).trans hp
    obtain ⟨e', new', he', h'⟩ := exists_putBlock h.rooted hpe (width a) selector (declarations a)
    refine ⟨e', new' ++ new, ?_, h.trans h' hd hl⟩
    rw [putBlocks] at he ⊢
    rw [List.reverse_cons, List.foldlM_append, he]
    exact (bind_pure _).trans he'

/-! ### Nodes in turn -/

/-- Makes nodes right before another, the first one first. -/
def putNodes (d : Document) (anchor : NodeId) (nodes : List Node) : Except TreeError Document :=
  nodes.foldlM (fun d node => (d.create node).2.insertBefore anchor d.next) d

theorem exists_putNode (hd : d.Rooted) (hp : d.parent? anchor = some parent) (node : Node) :
    ∃ e new, (d.create node).2.insertBefore anchor d.next = .ok e ∧
      PutBefore anchor (.single node .nil) new d e := by
  obtain ⟨a, as, ha⟩ := exists_above_of_parent hp
  have hinsert := insertBefore_last (d := (d.create node).2) rfl hd.numbered.next_notMem ha
  obtain ⟨he, hfresh⟩ := hd.graft_last hd (append_nil _).symm (Nat.le_refl _) node
    (grafted_insertBefore hd.nodup (mem_of_above? ha))
  exact ⟨_, _, hinsert, he, hfresh, rfl, rfl⟩

/-- Nodes that come right before another in turn stand there in their order. -/
theorem exists_putNodes (hd : d.Rooted) (hp : d.parent? anchor = some parent) (nodes : List Node) :
    ∃ e new, d.putNodes anchor nodes = .ok e ∧
      PutBefore anchor (nodes.foldr (fun node rest => .single node .nil ++ rest) .nil) new d e := by
  have hl := isLive_of_parent hp
  induction nodes generalizing d with
  | nil => exact ⟨d, .nil, rfl, .refl hd anchor⟩
  | cons node nodes ih =>
    obtain ⟨e, new, he, h⟩ := exists_putNode hd hp node
    have hs := h.spliced hd hl
    have hpe : e.parent? anchor = some parent := (hs.parent? hl).trans hp
    obtain ⟨e', new', he', h'⟩ := ih h.rooted hpe (hs.isLive_of_isLive hl)
    refine ⟨e', new ++ new', ?_, h.trans h' hd hl⟩
    rw [putNodes, List.foldlM_cons, he]
    exact he'

end ModularScale.Document
