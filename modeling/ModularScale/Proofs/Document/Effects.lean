import ModularScale.Proofs.Document.Faults
import ModularScale.Proofs.Document.Splices

/-! # Effects of edits

A node that is moved leaves the list of children it was in and comes into one place of a list, and
it keeps what is below it. A node that is removed takes all below it along. No other list, node or
number is touched, be the new place in the old list or be it the old place itself.
-/

namespace ModularScale

namespace Forest

open Document

variable {f below : Forest (NodeId × Node)} {id x : NodeId} {a : NodeId × Node}

/-- In the tree of a node all its nodes are found as in the whole forest. -/
theorem find?_single_of_find? (hn : f.numbers.Nodup) (h : f.find? (isNode id) = some (a, below))
    (hx : x ∈ (single a below).numbers) :
    (single a below).find? (isNode x) = f.find? (isNode x) := by
  induction f with
  | nil => cases h
  | cons b c r ihc ihr =>
    obtain ⟨-, -, hnc, hnr, -⟩ := nodup_cons hn
    have hmem : ∀ g : Forest (NodeId × Node), g.find? (isNode id) = some (a, below) →
        x ∈ g.numbers := by
      intro g hg
      have ha : a ∈ g.toList := by
        have hp := map_fst_find? (isNode id) g
        rw [hg] at hp
        exact List.mem_of_find?_eq_some hp.symm
      simp only [single, numbers_cons, numbers_nil, List.append_nil, List.mem_cons] at hx
      rcases hx with rfl | hx
      · exact List.mem_map_of_mem ha
      · exact List.map_subset _ (find?_subset hg) hx
    by_cases hb : b.1 = id
    · rw [find?_cons_of_eq hb] at h
      cases h
      by_cases hax : a.1 = x
      · rw [single, find?_cons_of_eq hax, find?_cons_of_eq hax]
      · have hxb : x ∈ below.numbers := by simpa [single, Ne.symm hax] using hx
        rw [find?_cons_below hn hxb, single, find?_cons_of_ne hax]
        exact Option.or_none
    · rw [find?_cons_of_ne hb] at h
      rcases Option.or_eq_some_iff.mp h with h | ⟨-, h⟩
      · rw [ihc hnc h, find?_cons_below hn (hmem c h)]
      · rw [ihr hnr h, find?_cons_beside hn (hmem r h)]

end Forest

namespace Document

open Forest

variable {d e m : Document} {id anchor parent old x : NodeId} {list : List NodeId}

/-! ### What edits do -/

/-- A node has come into a list of children from wherever it was, with all below it. -/
structure Moved (id parent : NodeId) (list : List NodeId) (d e : Document) : Prop where
  isLive : ∀ x, e.isLive x = d.isLive x
  node? : ∀ x, e.node? x = d.node? x
  subtree : e.subtree id = d.subtree id
  list_eq : e.children parent = list
  children_old : ∀ old, d.parent? id = some old → old ≠ parent →
    e.children old = (d.children old).filter (· ≠ id)
  children : ∀ x, d.parent? id ≠ some x → x ≠ parent → e.children x = d.children x
  parent_eq : e.parent? id = some parent
  parent? : ∀ x, x ≠ id → e.parent? x = d.parent? x

/-- A node is gone with all below it, and nothing else is. -/
structure Removed (id : NodeId) (d e : Document) : Prop where
  isLive : ∀ x, e.isLive x = true ↔ d.isLive x = true ∧ x ≠ id ∧ id ∉ d.ancestors x
  node? : ∀ x, e.isLive x = true → e.node? x = d.node? x
  parent? : ∀ x, e.isLive x = true → e.parent? x = d.parent? x
  list_eq : ∀ parent, d.parent? id = some parent →
    e.children parent = (d.children parent).filter (· ≠ id)
  children : ∀ x, e.isLive x = true → d.parent? id ≠ some x → e.children x = d.children x

/-- A node stands where another was, which is gone with all that was left below it. A node that
came from below the other one is still there, with all below it. -/
structure Replaced (old id : NodeId) (d e : Document) : Prop where
  isLive : ∀ x, e.isLive x = true ↔
    d.isLive x = true ∧ x ≠ old ∧ (old ∈ d.ancestors x → x = id ∨ id ∈ d.ancestors x)
  node? : ∀ x, e.isLive x = true → e.node? x = d.node? x
  subtree : e.subtree id = d.subtree id
  place : ∃ parent before after, d.parent? old = some parent ∧
    (d.children parent).filter (· ≠ id) = before ++ old :: after ∧
    e.children parent = before ++ id :: after ∧ e.parent? id = some parent
  children_old : ∀ parent, d.parent? id = some parent → d.parent? old ≠ some parent →
    e.isLive parent = true → e.children parent = (d.children parent).filter (· ≠ id)
  children : ∀ x, e.isLive x = true → d.parent? id ≠ some x → d.parent? old ≠ some x →
    e.children x = d.children x
  parent? : ∀ x, e.isLive x = true → x ≠ id → e.parent? x = d.parent? x

/-! ### Subtrees -/

theorem find?_subtree (hd : d.trees.numbers.Nodup) (hx : x ∈ (d.subtree id).numbers) :
    (d.subtree id).find? (isNode x) = d.find? x := by
  unfold subtree at hx ⊢
  split at hx
  case h_1 a below hf => exact find?_single_of_find? hd hf hx
  case h_2 => cases hx

/-- The nodes of a tree are the topmost one and those that have it above them. -/
theorem mem_subtree_iff (hd : d.trees.numbers.Nodup) :
    x ∈ (d.subtree id).numbers ↔ d.isLive x = true ∧ (x = id ∨ id ∈ d.ancestors x) := by
  have hp := perm_subtree hd id
  have hdisj := (List.nodup_append.mp (hp.nodup_iff.mp hd)).2.2
  have hshed : Shed id d { d with trees := d.without id } := shed_of_trees hd rfl
  have hcut := hshed.isLive x
  rw [isLive_iff] at hcut
  rw [← not_or.trans (and_congr_left' Iff.rfl)] at hcut
  rw [isLive_iff, hp.mem_iff, List.mem_append]
  constructor
  · intro h
    refine ⟨.inl h, ?_⟩
    by_contra hn
    have hlive := isLive_iff.mpr (hp.mem_iff.mpr (List.mem_append_left _ h))
    exact hdisj x h x (hcut.mpr ⟨hlive, hn⟩) rfl
  · rintro ⟨h | h, hx⟩
    · exact h
    · exact absurd hx (hcut.mp h).2

theorem tops_subtree (h : d.isLive id = true) : (d.subtree id).tops.map Prod.fst = [id] := by
  obtain ⟨found, hf⟩ := Option.isSome_iff_exists.mp h
  have hid := number_of_find? hf
  rw [subtree, hf]
  simp [single, tops, hid]

theorem mem_subtree_self (hd : d.trees.numbers.Nodup) (h : d.isLive id = true) :
    id ∈ (d.subtree id).numbers :=
  (mem_subtree_iff hd).mpr ⟨h, .inl rfl⟩

/-- The topmost node of a tree is no child of the others. -/
theorem notMem_children_of_mem_subtree (hd : d.trees.numbers.Nodup)
    (hx : x ∈ (d.subtree id).numbers) : id ∉ d.children x := by
  intro hc
  have hup := mem_ancestors_of_parent ((mem_children_iff hd).mp hc)
  obtain ⟨hne, hnot⟩ := not_above hd hup
  exact ((mem_subtree_iff hd).mp hx).2.elim (fun h => hne h.symm) hnot

theorem children_of_not_isLive (h : ¬d.isLive x = true) : d.children x = [] := by
  have hf : d.find? x = none := by simpa [Document.isLive] using h
  rw [children_eq, hf]
  rfl

theorem filter_ne_of_notMem (h : id ∉ list) : list.filter (· ≠ id) = list :=
  List.filter_eq_self.mpr fun _ hy => decide_eq_true fun he => h (he ▸ hy)

/-! ### Moves -/

/-- What a successful move has checked: both nodes are there, and the place is not in the tree that
is moved. -/
structure Free (target id : NodeId) (d : Document) : Prop where
  isLive_target : d.isLive target = true
  isLive_id : d.isLive id = true
  ne : target ≠ id
  notMem_ancestors : id ∉ d.ancestors target

theorem Reports.forall_false {α : Type} {a : α} {faults : List (Bool × TreeError)}
    (h : Reports (.ok a) faults) : ∀ fault ∈ faults, fault.1 = false := by
  intro fault hf
  rw [← Bool.not_eq_true]
  intro ht
  obtain ⟨found, hfound⟩ := Option.isSome_iff_exists.mp (List.find?_isSome.mpr ⟨fault, hf, ht⟩)
  have he : firstFault faults = some found.2 := by rw [firstFault, hfound]; rfl
  cases (h found.2).mpr he

theorem free_of_append (h : d.append parent id = .ok e) : Free parent id d := by
  have hf := (h ▸ reports_append d parent id).forall_false
  simp only [appendFaults, moveFaults, List.mem_cons, List.not_mem_nil, or_false, forall_eq_or_imp,
    forall_eq, Bool.not_eq_false', decide_eq_false_iff_not, List.contains_eq_mem] at hf
  exact ⟨hf.1, hf.2.1, Ne.symm hf.2.2.1, hf.2.2.2⟩

theorem free_of_insertBefore (h : d.insertBefore anchor id = .ok e) :
    Free anchor id d ∧ ∃ parent, d.parent? anchor = some parent := by
  have hf := (h ▸ reports_insertBefore d anchor id).forall_false
  simp only [insertBeforeFaults, anchorFaults, moveFaults, List.cons_append, List.nil_append,
    List.mem_cons, List.not_mem_nil, or_false, forall_eq_or_imp, forall_eq, Bool.not_eq_false',
    decide_eq_false_iff_not, List.contains_eq_mem] at hf
  refine ⟨⟨hf.1, hf.2.2.1, Ne.symm hf.2.2.2.1, hf.2.2.2.2⟩, ?_⟩
  exact Option.isSome_iff_exists.mp (Option.isNone_eq_false_iff.mp hf.2.1)

theorem free_of_insertAfter (h : d.insertAfter anchor id = .ok e) :
    Free anchor id d ∧ ∃ parent, d.parent? anchor = some parent := by
  have hf := (h ▸ reports_insertAfter d anchor id).forall_false
  simp only [insertAfterFaults, anchorFaults, moveFaults, List.cons_append, List.nil_append,
    List.mem_cons, List.not_mem_nil, or_false, forall_eq_or_imp, forall_eq, Bool.not_eq_false',
    decide_eq_false_iff_not, List.contains_eq_mem] at hf
  refine ⟨⟨hf.1, hf.2.2.1, Ne.symm hf.2.2.2.1, hf.2.2.2.2⟩, ?_⟩
  exact Option.isSome_iff_exists.mp (Option.isNone_eq_false_iff.mp hf.2.1)

namespace Free

theorem notMem_subtree (h : Free anchor id d) (hd : d.trees.numbers.Nodup) :
    anchor ∉ (d.subtree id).numbers := fun hm =>
  ((mem_subtree_iff hd).mp hm).2.elim h.ne h.notMem_ancestors

/-- The target is still there when the node is taken out. -/
theorem mem_without (h : Free anchor id d) (hd : d.trees.numbers.Nodup) :
    anchor ∈ (d.without id).numbers := by
  have hm := (perm_subtree hd id).mem_iff.mp (isLive_iff.mp h.isLive_target)
  exact (List.mem_append.mp hm).resolve_left (h.notMem_subtree hd)

/-- The target is no child of a node that is moved. -/
theorem notMem_children (h : Free anchor id d) (hd : d.trees.numbers.Nodup)
    (hx : x ∈ (d.subtree id).numbers) : anchor ∉ d.children x := by
  intro hc
  apply h.notMem_ancestors
  rw [ancestors_of_parent hd ((mem_children_iff hd).mp hc), List.mem_cons]
  exact ((mem_subtree_iff hd).mp hx).2.imp_left Eq.symm

end Free

/-- A node is moved, and `grow` tells what becomes of each list of children less this node. -/
structure Shifted (id : NodeId) (grow : NodeId → List NodeId → List NodeId) (d e : Document) :
    Prop where
  nodup : e.trees.numbers.Nodup
  isLive : ∀ x, e.isLive x = d.isLive x
  node? : ∀ x, e.node? x = d.node? x
  subtree : e.subtree id = d.subtree id
  children : ∀ x, d.isLive x = true → e.children x = grow x ((d.children x).filter (· ≠ id))

variable {grow : NodeId → List NodeId → List NodeId}

/-- A move takes a tree out and grafts it elsewhere. The nodes of this tree are found as before, and
those of the others have below them what `change` makes of what the cut has left there. -/
theorem shifted_of_grafted (change : NodeId → Forest (NodeId × Node) → Forest (NodeId × Node))
    (hd : d.trees.numbers.Nodup) (hid : d.isLive id = true)
    (hg : Grafted (d.subtree id) (d.without id) e.trees)
    (hold : ∀ x, x ∉ (d.subtree id).numbers → e.find? x =
      ((d.without id).find? (isNode x)).map fun found => (found.1, change x found.2))
    (htops : ∀ x (f : Forest (NodeId × Node)), f.numbers.Nodup →
      (change x f).tops.map Prod.fst = grow x (f.tops.map Prod.fst))
    (hnew : ∀ x, x ∉ (d.without id).numbers → e.find? x = (d.subtree id).find? (isNode x))
    (hself : ∀ x ∈ (d.subtree id).numbers, grow x (d.children x) = d.children x) :
    Shifted id grow d e := by
  have hp := perm_subtree hd id
  have hdisj := (List.nodup_append.mp (hp.nodup_iff.mp hd)).2.2
  have hsplit : ∀ x, d.isLive x = true →
      x ∈ (d.subtree id).numbers ∨ x ∈ (d.without id).numbers := fun x hx =>
    List.mem_append.mp (hp.mem_iff.mp (isLive_iff.mp hx))
  have hlive : ∀ x, e.isLive x = d.isLive x := fun x => by
    rw [Bool.eq_iff_iff, isLive_iff, isLive_iff, hg.perm.mem_iff, hp.mem_iff]
  have hinner : ∀ x ∈ (d.subtree id).numbers, e.find? x = d.find? x := fun x hx => by
    rw [hnew x fun hw => hdisj x hx x hw rfl, find?_subtree hd hx]
  have houter : ∀ x ∈ (d.without id).numbers, e.find? x = (d.find? x).map fun found =>
      (found.1, change x (found.2.erase (isNode id))) := fun x hx => by
    rw [hold x fun hs => hdisj x hs x hx rfl, without, find?_erase hd hx, Option.map_map]
    rfl
  refine ⟨(hg.perm.trans hp.symm).nodup_iff.mpr hd, hlive, fun x => ?_, ?_, fun x hx => ?_⟩
  · by_cases hx : d.isLive x = true
    · rcases hsplit x hx with hs | hw
      · rw [Document.node?, hinner x hs, Document.node?]
      · rw [Document.node?, houter x hw, Document.node?, Option.map_map]
        rfl
    · have hnone : ∀ g : Document, ¬g.isLive x = true → g.node? x = none := fun g hg => by
        simpa [Document.node?, Document.isLive] using hg
      rw [hnone d hx, hnone e (hlive x ▸ hx)]
  · rw [Document.subtree, hinner id (mem_subtree_self hd hid), ← Document.subtree]
  · rcases hsplit x hx with hs | hw
    · have hnot := notMem_children_of_mem_subtree hd hs
      rw [children_eq, hinner x hs, ← children_eq, filter_ne_of_notMem hnot, hself x hs]
    · obtain ⟨⟨a, below⟩, hf⟩ := Option.isSome_iff_exists.mp hx
      have hn : below.numbers.Nodup := ((find?_sublist hf).map _).nodup hd
      rw [children_eq, houter x hw, children_eq, hf]
      exact (htops x _ ((numbers_erase_sublist _ _).nodup hn)).trans
        (congrArg (grow x) (tops_erase below))

/-- A move grows one list of children, by the node that is moved. -/
theorem Shifted.moved (h : Shifted id grow d e) (hd : d.trees.numbers.Nodup)
    (hl : d.isLive parent = true)
    (hlist : grow parent ((d.children parent).filter (· ≠ id)) = list)
    (hmem : ∀ y, y ∈ list ↔ y = id ∨ y ∈ d.children parent)
    (hother : ∀ x, x ≠ parent → grow x ((d.children x).filter (· ≠ id)) =
      (d.children x).filter (· ≠ id)) : Moved id parent list d e := by
  have hparent : e.children parent = list := (h.children parent hl).trans hlist
  have hrest : ∀ x, x ≠ parent → e.children x = (d.children x).filter (· ≠ id) := fun x hx => by
    by_cases hlx : d.isLive x = true
    · rw [h.children x hlx, hother x hx]
    · rw [children_of_not_isLive hlx, children_of_not_isLive (h.isLive x ▸ hlx)]
      rfl
  refine ⟨h.isLive, h.node?, h.subtree, hparent, fun old _ hne => hrest old hne,
    fun x hx hne => ?_, ?_, fun x hx => Option.ext fun p => ?_⟩
  · rw [hrest x hne, filter_ne_of_notMem fun hm => hx ((mem_children_iff hd).mp hm)]
  · rw [← mem_children_iff h.nodup, hparent, hmem]
    exact .inl rfl
  · rw [← mem_children_iff h.nodup, ← mem_children_iff hd]
    by_cases hp : p = parent
    · rw [hp, hparent, hmem, or_iff_right hx]
    · rw [hrest p hp, List.mem_filter, and_iff_left (decide_eq_true hx)]

theorem moved_of_append (hd : d.trees.numbers.Nodup) (h : d.append parent id = .ok e) :
    Moved id parent ((d.children parent).filter (· ≠ id) ++ [id]) d e := by
  have hfree := free_of_append h
  have hin := hfree.mem_without hd
  have hn : (d.without id).numbers.Nodup := (numbers_erase_sublist _ _).nodup hd
  have ht : e.trees = .appendTo (isNode parent) (d.subtree id) (d.without id) := by
    rw [append_ok h]
  have hs : Shifted id (fun x l => if x = parent then l ++ [id] else l) d e := by
    refine shifted_of_grafted (fun x f => if x = parent then f ++ d.subtree id
      else .appendTo (isNode parent) (d.subtree id) f) hd hfree.isLive_id
      (ht ▸ grafted_appendTo hn hin) (fun x hx => ?_) (fun x f _ => ?_) (fun x hx => ?_)
      fun x hx => if_neg ?_
    · rw [Document.find?, ht, find?_appendTo hn hx]
    · split
      · rw [tops_append, List.map_append, tops_subtree hfree.isLive_id]
      · rw [tops_appendTo]
    · rw [Document.find?, ht, find?_appendTo_new hn hin hx]
    · rintro rfl
      exact hfree.notMem_subtree hd hx
  refine hs.moved hd hfree.isLive_target (if_pos rfl) (fun y => ?_) fun x hx => if_neg hx
  rw [List.mem_append, List.mem_filter, List.mem_singleton]
  by_cases hy : y = id <;> simp [hy]

/-- A move to a place beside a node: `place` shows what this node becomes in its list. -/
theorem moved_beside {place : NodeId → List NodeId} (graft : Forest (NodeId × Node) →
      Forest (NodeId × Node)) (hd : d.trees.numbers.Nodup) (hfree : Free anchor id d)
    (hp : d.parent? anchor = some parent) (hplace : ∀ y, y ≠ anchor → place y = [y])
    (hmem : ∀ y, y ∈ place anchor ↔ y = id ∨ y = anchor)
    (ht : e.trees = graft (d.without id))
    (hg : Grafted (d.subtree id) (d.without id) (graft (d.without id)))
    (hold : ∀ x, x ∉ (d.subtree id).numbers → (graft (d.without id)).find? (isNode x) =
      ((d.without id).find? (isNode x)).map fun found => (found.1, graft found.2))
    (htops : ∀ f : Forest (NodeId × Node), f.numbers.Nodup →
      (graft f).tops.map Prod.fst = (f.tops.map Prod.fst).flatMap place)
    (hnew : ∀ x, x ∉ (d.without id).numbers →
      (graft (d.without id)).find? (isNode x) = (d.subtree id).find? (isNode x)) :
    ∃ before after, (d.children parent).filter (· ≠ id) = before ++ anchor :: after ∧
      Moved id parent (before ++ (place anchor ++ after)) d e := by
  have hs : Shifted id (fun _ l => l.flatMap place) d e := by
    refine shifted_of_grafted (fun _ => graft) hd hfree.isLive_id (ht ▸ hg)
      (fun x hx => ?_) (fun _ => htops) (fun x hx => ?_) fun x hx => ?_
    · rw [Document.find?, ht, hold x hx]
    · rw [Document.find?, ht, hnew x hx]
    · exact flatMap_of_notMem hplace (hfree.notMem_children hd hx)
  have hl : d.isLive parent = true := isLive_of_mem_ancestors (mem_ancestors_of_parent hp)
  have hanchor : anchor ∈ (d.children parent).filter (· ≠ id) :=
    List.mem_filter.mpr ⟨(mem_children_iff hd).mpr hp, decide_eq_true hfree.ne⟩
  obtain ⟨before, after, hsplit⟩ := List.append_of_mem hanchor
  have hn : (before ++ anchor :: after).Nodup := hsplit ▸ (nodup_children hd parent).filter _
  refine ⟨before, after, hsplit, hs.moved hd hl ?_ (fun y => ?_) fun x hx => ?_⟩
  · rw [hsplit, flatMap_of_split hplace hn]
  · have hy : y ∈ before ++ anchor :: after ↔ y ∈ d.children parent ∧ y ≠ id := by
      rw [← hsplit, List.mem_filter, decide_eq_true_iff]
    simp only [List.mem_append, List.mem_cons, hmem] at hy ⊢
    by_cases he : y = id
    · exact iff_of_true (.inr (.inl (.inl he))) (.inl he)
    · rw [and_iff_left he] at hy
      rw [or_iff_right he, or_iff_right he, ← hy]
  · refine flatMap_of_notMem hplace fun hm => hx ?_
    rw [(mem_children_iff hd).mp (List.mem_of_mem_filter hm)] at hp
    exact Option.some.inj hp

theorem moved_of_insertBefore (hd : d.trees.numbers.Nodup) (h : d.insertBefore anchor id = .ok e) :
    ∃ parent before after, d.parent? anchor = some parent ∧
      (d.children parent).filter (· ≠ id) = before ++ anchor :: after ∧
      Moved id parent (before ++ id :: anchor :: after) d e := by
  obtain ⟨hfree, parent, hp⟩ := free_of_insertBefore h
  have hin := hfree.mem_without hd
  have hn : (d.without id).numbers.Nodup := (numbers_erase_sublist _ _).nodup hd
  have htops := tops_subtree hfree.isLive_id
  obtain ⟨before, after, hsplit, hm⟩ := moved_beside (e := e)
    (.insertBefore (isNode anchor) (d.subtree id)) hd hfree hp (fun _ => ahead_of_ne)
    (fun y => by rw [ahead, if_pos rfl, htops]; simp) (by rw [insertBefore_ok h])
    (grafted_insertBefore hn hin) (fun _ => find?_insertBefore hn)
    (fun f hf => tops_insertBefore hf) fun _ => find?_insertBefore_new hn hin
  rw [ahead, if_pos rfl, htops] at hm
  exact ⟨parent, before, after, hp, hsplit, hm⟩

theorem moved_of_insertAfter (hd : d.trees.numbers.Nodup) (h : d.insertAfter anchor id = .ok e) :
    ∃ parent before after, d.parent? anchor = some parent ∧
      (d.children parent).filter (· ≠ id) = before ++ anchor :: after ∧
      Moved id parent (before ++ anchor :: id :: after) d e := by
  obtain ⟨hfree, parent, hp⟩ := free_of_insertAfter h
  have hin := hfree.mem_without hd
  have hn : (d.without id).numbers.Nodup := (numbers_erase_sublist _ _).nodup hd
  have htops := tops_subtree hfree.isLive_id
  obtain ⟨before, after, hsplit, hm⟩ := moved_beside (e := e)
    (.insertAfter (isNode anchor) (d.subtree id)) hd hfree hp (fun _ => behind_of_ne)
    (fun y => by rw [behind, if_pos rfl, htops]; simp [or_comm]) (by rw [insertAfter_ok h])
    (grafted_insertAfter hn hin) (fun _ => find?_insertAfter hn)
    (fun f hf => tops_insertAfter hf) fun _ => find?_insertAfter_new hn hin
  rw [behind, if_pos rfl, htops] at hm
  exact ⟨parent, before, after, hp, hsplit, hm⟩

/-! ### Removals -/

theorem removed_of_remove (hd : d.trees.numbers.Nodup) (h : d.remove id = .ok e) :
    Removed id d e := by
  obtain ⟨-, hl, rfl⟩ := remove_ok h
  have hs : Shed id d { d with trees := d.without id } := shed_of_trees hd rfl
  refine ⟨hs.isLive, hs.node?, fun x hx => ?_, fun parent hp => hs.children parent ?_,
    fun x hx hne => ?_⟩
  · rw [Document.parent?, hs.ancestors x hx, Document.parent?]
  · have hup := mem_ancestors_of_parent hp
    obtain ⟨hne, hnot⟩ := not_above hd hup
    exact (hs.isLive parent).mpr ⟨isLive_of_mem_ancestors hup, hne.symm, hnot⟩
  · rw [hs.children x hx, filter_ne_of_notMem fun hm => hne ((mem_children_iff hd).mp hm)]

/-! ### Replacements -/

/-- After a move to the place of a node this node is above those that it was above, but for the
tree that was moved. -/
theorem Moved.mem_ancestors_iff (h : Moved id parent list d m) (hd : d.trees.numbers.Nodup)
    (hm : m.trees.numbers.Nodup) (hfree : Free old id d) (hp : d.parent? old = some parent) :
    old ∈ m.ancestors x ↔ old ∈ d.ancestors x ∧ x ≠ id ∧ id ∉ d.ancestors x := by
  have hold : m.parent? old = some parent := (h.parent? old hfree.ne).trans hp
  have hid : old ∉ m.ancestors id := by
    rw [ancestors_of_parent hm h.parent_eq, ← ancestors_of_parent hm hold]
    exact fun hmem => (not_above hm hmem).1 rfl
  generalize has : d.ancestors x = as
  induction as generalizing x with
  | nil =>
    by_cases hx : x = id
    · rw [hx]
      simpa using hid
    · have hnone : m.parent? x = none := by rw [h.parent? x hx, Document.parent?, has]; rfl
      rw [ancestors_of_parent_eq_none hnone]
      simp
  | cons p as ih =>
    have hpx : d.parent? x = some p := by rw [Document.parent?, has]; rfl
    rw [ancestors_of_parent hd hpx, List.cons.injEq] at has
    by_cases hx : x = id
    · rw [hx]
      simpa using hid
    · have hi : old ∈ m.ancestors p ↔ old ∈ as ∧ p ≠ id ∧ id ∉ as := ih has.2
      rw [ancestors_of_parent hm ((h.parent? x hx).trans hpx), List.mem_cons, hi,
        List.mem_cons, List.mem_cons]
      constructor
      · rintro (rfl | ⟨ho, hpid, hnot⟩)
        · rw [← has.2]
          exact ⟨.inl rfl, hx, not_or.mpr ⟨hfree.ne.symm, hfree.notMem_ancestors⟩⟩
        · exact ⟨.inr ho, hx, not_or.mpr ⟨Ne.symm hpid, hnot⟩⟩
      · rintro ⟨ho, -, hnot⟩
        rw [not_or] at hnot
        exact ho.imp_right fun ho => ⟨ho, Ne.symm hnot.1, hnot.2⟩

theorem replaced_of_replace (hd : d.Numbered) (h : d.replace old id = .ok e) :
    ∃ m, d.insertBefore old id = .ok m ∧ m.remove old = .ok e ∧ Replaced old id d e := by
  obtain ⟨hroot, m, hi, rfl⟩ := replace_ok h
  obtain ⟨hfree, -⟩ := free_of_insertBefore hi
  obtain ⟨parent, before, after, hp, hsplit, hmoved⟩ := moved_of_insertBefore hd.nodup hi
  have hm : m.trees.numbers.Nodup := (hd.insertBefore hi).nodup
  have hold : m.parent? old = some parent := (hmoved.parent? old hfree.ne).trans hp
  have hl : m.isLive old = true := (hmoved.isLive old).trans hfree.isLive_target
  have hremove := remove_eq_ok hroot hl
  have hs : Shed old m { m with trees := m.without old } := shed_of_trees hm rfl
  have hr := removed_of_remove hm hremove
  have hnot : old ∉ (m.subtree id).numbers := by
    rw [mem_subtree_iff hm, ancestors_of_parent hm hold, ← ancestors_of_parent hm hmoved.parent_eq]
    rintro ⟨-, he | he⟩
    · exact hfree.ne he
    · exact (not_above hm he).1 rfl
  have hid : Document.isLive { m with trees := m.without old } id = true := by
    refine (hr.isLive id).mpr ⟨(hmoved.isLive id).trans hfree.isLive_id, hfree.ne.symm, ?_⟩
    exact fun ha => ((hmoved.mem_ancestors_iff hd.nodup hm hfree hp).mp ha).2.1 rfl
  have hparent : Document.isLive { m with trees := m.without old } parent = true := by
    have hup := mem_ancestors_of_parent hold
    obtain ⟨hne, hna⟩ := not_above hm hup
    exact (hr.isLive parent).mpr ⟨isLive_of_mem_ancestors hup, hne.symm, hna⟩
  refine ⟨m, hi, hremove, fun x => ?_, fun x hx => ?_, ?_, ?_, fun p hpid hpo hlp => ?_,
    fun x hx hxid hxo => ?_, fun x hx hne => ?_⟩
  · rw [hr.isLive, hmoved.isLive, hmoved.mem_ancestors_iff hd.nodup hm hfree hp]
    tauto
  · rw [hr.node? x hx, hmoved.node?]
  · -- the cut does not reach the tree that was moved
    obtain ⟨found, hf⟩ := Option.isSome_iff_exists.mp ((hmoved.isLive id).trans hfree.isLive_id)
    obtain ⟨a, below⟩ := found
    have hbelow : old ∉ below.numbers := by
      rw [subtree, hf] at hnot
      exact fun hb => hnot (by simp [single, hb])
    have hfind : Document.find? { m with trees := m.without old } id = some (a, below) := by
      refine (find?_erase hm (isLive_iff.mp hid)).trans ?_
      rw [show m.trees.find? (isNode id) = some (a, below) from hf, Option.map_some,
        erase_of_notMem hbelow]
    rw [← hmoved.subtree, Document.subtree, hfind, Document.subtree, hf]
  · refine ⟨parent, before, after, hp, hsplit, ?_, ?_⟩
    · have hlist : m.children parent = (before ++ [id]) ++ old :: after := by
        rw [hmoved.list_eq, List.append_assoc, List.singleton_append]
      have hc := hs.children_of_split hm hparent hlist
      rwa [List.append_assoc, List.singleton_append] at hc
    · rw [hr.parent? id hid, hmoved.parent_eq]
  · have hne : p ≠ parent := fun he => hpo (he ▸ hp)
    rw [hr.children p hlp (hold ▸ fun he => hne (Option.some.inj he).symm),
      hmoved.children_old p hpid hne]
  · have hne : x ≠ parent := fun he => hxo (he ▸ hp)
    rw [hr.children x hx (hold ▸ fun he => hne (Option.some.inj he).symm),
      hmoved.children x hxid hne]
  · rw [hr.parent? x hx, hmoved.parent? x hne]

/-- What the edits of the tree do when they succeed, on every document that edits have built. In the
lists of children a node that moves is left out of its old place and put in its new one. -/
theorem effect_of_ok (h : d.Built) :
    (∀ parent id e, d.append parent id = .ok e →
      Moved id parent ((d.children parent).filter (· ≠ id) ++ [id]) d e) ∧
    (∀ anchor id e, d.insertBefore anchor id = .ok e → ∃ parent before after,
      d.parent? anchor = some parent ∧
      (d.children parent).filter (· ≠ id) = before ++ anchor :: after ∧
      Moved id parent (before ++ id :: anchor :: after) d e) ∧
    (∀ anchor id e, d.insertAfter anchor id = .ok e → ∃ parent before after,
      d.parent? anchor = some parent ∧
      (d.children parent).filter (· ≠ id) = before ++ anchor :: after ∧
      Moved id parent (before ++ anchor :: id :: after) d e) ∧
    (∀ old id e, d.replace old id = .ok e → ∃ m, d.insertBefore old id = .ok m ∧
      m.remove old = .ok e ∧ Replaced old id d e) ∧
    ∀ id e, d.remove id = .ok e → Removed id d e := by
  have hn := h.rooted.numbered
  exact ⟨fun _ _ _ => moved_of_append hn.nodup, fun _ _ _ => moved_of_insertBefore hn.nodup,
    fun _ _ _ => moved_of_insertAfter hn.nodup, fun _ _ _ => replaced_of_replace hn,
    fun _ _ => removed_of_remove hn.nodup⟩

/-- A rule with two declarations, in which a last child is put last, two children change places
either way, the rule gives way to its own child, and a child is removed. -/
theorem effect_of_ok_within :
    let edits := [Edit.addChild root (.rule ".x"), .addChild 1 (.declaration "a" "b" false),
      .addChild 1 (.comment "c"), .remove 7]
    let d := edits.foldl Edit.perform empty
    d.Built ∧
    (∃ e, d.append 1 3 = .ok e ∧ Moved 3 1 [2, 3] d e) ∧
    (∃ e, d.insertBefore 2 3 = .ok e ∧ Moved 3 1 [3, 2] d e) ∧
    (∃ e, d.insertAfter 3 2 = .ok e ∧ Moved 2 1 [3, 2] d e) ∧
    (∃ e, d.replace 1 3 = .ok e ∧ Replaced 1 3 d e ∧ e.children root = [3]) ∧
    ∃ e, d.remove 2 = .ok e ∧ Removed 2 d e ∧ e.children 1 = [3] := by
  intro edits d
  have hb : d.Built := (Built.ofForest .nil).foldl_perform (by decide)
  obtain ⟨happend, hbefore, hafter, hreplace, hremove⟩ := effect_of_ok hb
  have hparent : d.parent? 2 = some 1 ∧ d.parent? 3 = some 1 := by decide
  have hsingle : ∀ {y : NodeId} {before after : List NodeId}, [y] = before ++ y :: after →
      before = [] ∧ after = [] := fun h => by simpa using List.append_eq_singleton_iff.mp h.symm
  refine ⟨hb, ⟨_, rfl, happend 1 3 _ rfl⟩, ⟨_, rfl, ?_⟩, ⟨_, rfl, ?_⟩, ⟨_, rfl, ?_, by decide⟩,
    ⟨_, rfl, hremove 2 _ rfl, by decide⟩⟩
  · obtain ⟨parent, before, after, hp, hsplit, hm⟩ := hbefore 2 3 _ rfl
    obtain rfl : 1 = parent := Option.some.inj (hparent.1.symm.trans hp)
    have hc : (d.children 1).filter (· ≠ 3) = [2] := by decide
    obtain ⟨rfl, rfl⟩ := hsingle (hc.symm.trans hsplit)
    exact hm
  · obtain ⟨parent, before, after, hp, hsplit, hm⟩ := hafter 3 2 _ rfl
    obtain rfl : 1 = parent := Option.some.inj (hparent.2.symm.trans hp)
    have hc : (d.children 1).filter (· ≠ 2) = [3] := by decide
    obtain ⟨rfl, rfl⟩ := hsingle (hc.symm.trans hsplit)
    exact hm
  · obtain ⟨_, -, -, hr⟩ := hreplace 1 3 _ rfl
    exact hr
end Document

end ModularScale
