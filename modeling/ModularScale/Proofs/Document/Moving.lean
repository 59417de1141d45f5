import ModularScale.Proofs.Document.OfSheet

/-! # Moved nodes

Documents that any sequence of edits builds, in which nodes may stand apart from the style sheet. A
move takes nodes out and puts them back elsewhere, so that no node is lost or doubled.
-/

namespace ModularScale

namespace Forest

open Document

variable {f g new : Forest (NodeId × Node)} {id anchor x : NodeId}

theorem erase_of_notMem (h : x ∉ f.numbers) : f.erase (isNode x) = f := by
  induction f with
  | nil => rfl
  | cons a c r ihc ihr =>
    rw [numbers_cons, List.mem_cons, List.mem_append, not_or, not_or] at h
    rw [erase_cons_of_ne (Ne.symm h.1), ihc h.2.1, ihr h.2.2]

/-- A cut splits the nodes into those cut off and those left. -/
theorem perm_erase (hn : f.numbers.Nodup) {a : NodeId × Node} {below : Forest (NodeId × Node)}
    (hf : f.find? (isNode x) = some (a, below)) :
    f.toList.Perm ((single a below).toList ++ (f.erase (isNode x)).toList) := by
  classical
  induction f with
  | nil => cases hf
  | cons b c r ihc ihr =>
    obtain ⟨hbc, hbr, hnc, hnr, hcr⟩ := nodup_cons hn
    unfold find? at hf
    split at hf
    case isTrue hb =>
      cases hf
      have hx : a.1 = x := isNode_iff.mp hb
      rw [erase_cons_of_eq hx, erase_of_notMem (hx ▸ hbr)]
      simp [single, toList]
    case isFalse hb =>
      have hne : b.1 ≠ x := fun he => hb (isNode_iff.mpr he)
      rw [erase_cons_of_ne hne]
      rcases Option.or_eq_some_iff.mp hf with hf | ⟨hc, hf⟩
      · have hx : x ∈ c.numbers := mem_numbers_iff.mpr (by rw [hf]; rfl)
        rw [erase_of_notMem (hcr x hx)]
        refine List.perm_iff_count.mpr fun z => ?_
        have := (ihc hnc hf).count_eq z
        simp only [toList, List.count_cons, List.count_append] at this ⊢
        omega
      · have hx : x ∉ c.numbers := by rw [mem_numbers_iff, hc]; simp
        rw [erase_of_notMem hx]
        refine List.perm_iff_count.mpr fun z => ?_
        have := (ihr hnr hf).count_eq z
        simp only [toList, List.count_cons, List.count_append] at this ⊢
        omega

theorem appendTo_of_notMem (h : anchor ∉ f.numbers) : appendTo (isNode anchor) new f = f := by
  rw [appendTo_eq_graft, graft_of_notMem h]

theorem toList_appendTo (new : Forest (NodeId × Node)) (hn : f.numbers.Nodup)
    (h : anchor ∈ f.numbers) : ∃ l₁ l₂, f.toList = l₁ ++ l₂ ∧
      (appendTo (isNode anchor) new f).toList = l₁ ++ new.toList ++ l₂ := by
  obtain ⟨as, has⟩ := Option.isSome_iff_exists.mp (mem_numbers_iff_above.mp h)
  obtain ⟨l₁, l₂, ho, -, -, he⟩ := toList_graft (fun _ => True)
    (fun a c r => cons a (c ++ new) r) new (fun _ _ _ => trivial)
    (fun a c r _ => ⟨a :: c.toList, r.toList, rfl, trivial, by simp [toList]⟩) hn has
  exact ⟨l₁, l₂, ho, by rw [appendTo_eq_graft, he]⟩

theorem above?_appendTo (h : id ∉ new.numbers) :
    (appendTo (isNode anchor) new f).above? (isNode id) = f.above? (isNode id) := by
  rw [appendTo_eq_graft]
  refine above?_graft fun a c r => ?_
  simp only [above?, above?_append, above?_eq_none.mpr h, Option.or_none]

/-- New nodes are put in one place, and nothing changes above any other node. -/
structure Grafted (new f g : Forest (NodeId × Node)) : Prop where
  order : ∃ l₁ l₂, f.toList = l₁ ++ l₂ ∧ g.toList = l₁ ++ new.toList ++ l₂
  above : ∀ id, id ∉ new.numbers → g.above? (isNode id) = f.above? (isNode id)

theorem grafted_appendTo (hn : f.numbers.Nodup) (h : anchor ∈ f.numbers) :
    Grafted new f (appendTo (isNode anchor) new f) :=
  ⟨toList_appendTo new hn h, fun _ => above?_appendTo⟩

theorem grafted_insertAfter (hn : f.numbers.Nodup) (h : anchor ∈ f.numbers) :
    Grafted new f (insertAfter (isNode anchor) new f) := by
  obtain ⟨l₁, l₂, ho, -, hg⟩ := toList_insertAfter new hn h
  exact ⟨⟨l₁, l₂, ho, hg⟩, fun _ => above?_insertAfter⟩

theorem grafted_insertBefore (hn : f.numbers.Nodup) (h : anchor ∈ f.numbers) :
    Grafted new f (insertBefore (isNode anchor) new f) := by
  obtain ⟨as, has⟩ := Option.isSome_iff_exists.mp (mem_numbers_iff_above.mp h)
  obtain ⟨l₁, l₂, ho, -, hg⟩ := toList_insertBefore new hn has
  exact ⟨⟨l₁, l₂, ho, hg⟩, fun _ => above?_insertBefore⟩

theorem grafted_append (f new : Forest (NodeId × Node)) : Grafted new f (f ++ new) where
  order := ⟨f.toList, [], (List.append_nil _).symm, by simp⟩
  above id h := by rw [above?_append, above?_eq_none.mpr h, Option.or_none]

theorem Grafted.perm (h : Grafted new f g) : g.numbers.Perm (new.numbers ++ f.numbers) := by
  obtain ⟨l₁, l₂, hf, hg⟩ := h.order
  have hp : g.toList.Perm (new.toList ++ f.toList) := by
    rw [hg, hf, ← List.append_assoc]
    exact List.perm_append_comm.append_right _
  simpa [numbers] using hp.map Prod.fst

end Forest

namespace Document

open Forest

variable {d e : Document} {id anchor parent x : NodeId}

/-- All nodes have different numbers, which have been given out, and the root is a topmost node. -/
structure Rooted (d : Document) : Prop where
  nodup : d.trees.numbers.Nodup
  lt_next : ∀ id ∈ d.trees.numbers, id < d.next
  top : d.trees.above? (isNode root) = some []

theorem Whole.toRooted (hd : d.Whole) : d.Rooted where
  nodup := hd.nodup
  lt_next := hd.lt_next
  top := by
    obtain ⟨node, below, ht⟩ := hd.rooted
    rw [ht, single, above?_cons_of_eq (a := (root, node)) rfl]

theorem perm_subtree (hn : d.trees.numbers.Nodup) (x : NodeId) :
    d.trees.numbers.Perm ((d.subtree x).numbers ++ (d.without x).numbers) := by
  unfold subtree without Document.find?
  cases hf : d.trees.find? (isNode x) with
  | none =>
    have hx : x ∉ d.trees.numbers := by rw [mem_numbers_iff, hf]; simp
    rw [erase_of_notMem hx]
    rfl
  | some found => simpa [numbers] using (perm_erase hn hf).map Prod.fst

namespace Rooted

theorem mem_root (hd : d.Rooted) : root ∈ d.trees.numbers :=
  mem_of_above? hd.top

theorem cut (hd : d.Rooted) (hx : x ≠ root) : Rooted { d with trees := d.without x } where
  nodup := (numbers_erase_sublist _ _).nodup hd.nodup
  lt_next id h := hd.lt_next id ((numbers_erase_sublist _ _).subset h)
  top := by
    have h := above?_erase (x := x) hd.nodup hd.top
    rwa [if_neg (by simpa using hx)] at h

/-- Nodes may be put into a document that are not in it yet. -/
theorem graft {new grafted : Forest (NodeId × Node)} {next : NodeId} (hd : d.Rooted)
    (hg : Grafted new d.trees grafted) (hle : d.next ≤ next) (hn : new.numbers.Nodup)
    (hnew : ∀ id ∈ new.numbers, id < next ∧ id ∉ d.trees.numbers) :
    Rooted ⟨grafted, next⟩ where
  nodup := by
    refine hg.perm.nodup_iff.mpr (List.nodup_append.mpr ⟨hn, hd.nodup, ?_⟩)
    rintro a ha _ hb rfl
    exact (hnew a ha).2 hb
  lt_next id h := by
    rcases List.mem_append.mp (hg.perm.mem_iff.mp h) with h | h
    · exact (hnew id h).1
    · exact Nat.lt_of_lt_of_le (hd.lt_next id h) hle
  top := by
    rw [hg.above root fun h => (hnew root h).2 hd.mem_root]
    exact hd.top

theorem graft_new {new : Forest Node} {grafted : Forest (NodeId × Node)} (hd : d.Rooted)
    (hg : Grafted (new.number d.next).1 d.trees grafted) :
    Rooted ⟨grafted, (new.number d.next).2⟩ := by
  obtain ⟨hnew, hnext⟩ := numbers_number new d.next
  refine hd.graft hg (hnext ▸ Nat.le_add_right _ _) (hnew ▸ List.nodup_range') fun id h => ?_
  rw [hnew, List.mem_range'_1] at h
  exact ⟨hnext ▸ h.2, fun hm => Nat.not_lt_of_le h.1 (hd.lt_next id hm)⟩

/-- A node other than the root may be taken out with all below it and put back elsewhere. -/
theorem move {grafted : Forest (NodeId × Node)} (hd : d.Rooted) (hx : x ≠ root)
    (hg : Grafted (d.subtree x) (d.without x) grafted) : Rooted { d with trees := grafted } := by
  have hp := perm_subtree hd.nodup x
  have hn := List.nodup_append.mp (hp.nodup_iff.mp hd.nodup)
  refine (hd.cut hx).graft hg (Nat.le_refl _) hn.1 fun id h => ⟨?_, fun hm => hn.2.2 id h id hm rfl⟩
  exact hd.lt_next id (hp.mem_iff.mpr (List.mem_append_left _ h))

theorem insertNewAfter {new : Forest Node} (hd : d.Rooted)
    (h : d.insertNewAfter anchor new = .ok e) : e.Rooted := by
  rcases insertNewAfter_ok h with ⟨-, rfl⟩ | ⟨⟨hl, -⟩, rfl⟩
  · exact hd
  · exact hd.graft_new (grafted_insertAfter hd.nodup (isLive_iff.mp hl))

theorem insertNewBefore {new : Forest Node} (hd : d.Rooted)
    (h : d.insertNewBefore anchor new = .ok e) : e.Rooted := by
  rcases insertNewBefore_ok h with ⟨-, rfl⟩ | ⟨⟨hl, -⟩, rfl⟩
  · exact hd
  · exact hd.graft_new (grafted_insertBefore hd.nodup (isLive_iff.mp hl))

theorem replaceWithNew {node : Node} (hd : d.Rooted) (h : d.replaceWithNew id node = .ok e) :
    e.Rooted := by
  obtain ⟨hid, d', hi, rfl⟩ := replaceWithNew_ok h
  exact (hd.insertNewBefore hi).cut hid

theorem remove (hd : d.Rooted) (h : d.remove id = .ok e) : e.Rooted := by
  obtain ⟨hid, -, rfl⟩ := remove_ok h
  exact hd.cut hid

theorem create (hd : d.Rooted) (node : Node) : (d.create node).2.Rooted :=
  have hg : Grafted ((Forest.single node .nil).number d.next).1 d.trees
      (d.create node).2.trees := grafted_append _ _
  hd.graft_new hg

theorem setKind {kind : Kind} (hd : d.Rooted) (h : d.setKind id kind = .ok e) : e.Rooted := by
  obtain ⟨-, rfl⟩ := setKind_ok h
  have hids := numbers_modify (f := d.trees) (isNode id)
    (g := fun a => (a.1, Node.mk kind a.2.line)) fun _ => rfl
  refine ⟨hids ▸ hd.nodup, fun x hx => hd.lt_next x (hids ▸ hx), ?_⟩
  have h := above?_modify (f := d.trees) (isNode id) root
    (g := fun a => (a.1, Node.mk kind a.2.line)) fun _ => rfl
  rw [hd.top] at h
  obtain ⟨as, has, hnil⟩ := Option.map_eq_some_iff.mp h
  rw [List.map_eq_nil_iff.mp hnil] at has
  exact has

end Rooted

/-! ### Edits that move nodes -/

theorem append_ok (h : d.append parent id = .ok e) :
    e = { d with trees := .appendTo (isNode parent) (d.subtree id) (d.without id) } := by
  obtain ⟨_, -, h⟩ := exists_of_bind_eq_ok h
  obtain ⟨_, -, h⟩ := exists_of_bind_eq_ok h
  cases h
  rfl

theorem insertBefore_ok (h : d.insertBefore anchor id = .ok e) :
    e = { d with trees := .insertBefore (isNode anchor) (d.subtree id) (d.without id) } := by
  obtain ⟨_, -, h⟩ := exists_of_bind_eq_ok h
  obtain ⟨_, -, h⟩ := exists_of_bind_eq_ok h
  cases h
  rfl

theorem insertAfter_ok (h : d.insertAfter anchor id = .ok e) :
    e = { d with trees := .insertAfter (isNode anchor) (d.subtree id) (d.without id) } := by
  obtain ⟨_, -, h⟩ := exists_of_bind_eq_ok h
  obtain ⟨_, -, h⟩ := exists_of_bind_eq_ok h
  cases h
  rfl

theorem replace_ok (h : d.replace anchor id = .ok e) :
    anchor ≠ root ∧ ∃ d', d.insertBefore anchor id = .ok d' ∧
      e = { d' with trees := d'.without anchor } := by
  unfold Document.replace at h
  split at h
  · cases h
  case isFalse hr =>
    obtain ⟨d', hd', h⟩ := exists_of_bind_eq_ok h
    cases h
    exact ⟨hr, d', hd', rfl⟩

theorem addChild_ok {kind : Kind} (h : d.addChild parent kind = .ok (id, e)) :
    id = d.next ∧ (d.create (.made kind)).2.append parent id = .ok e := by
  obtain ⟨e', he, h⟩ := exists_of_bind_eq_ok h
  cases h
  exact ⟨rfl, he⟩

namespace Rooted

/-- A place that is gone when a node is taken out takes this node with it. -/
theorem of_cut_or_move {grafted : Forest (NodeId × Node)} (hd : d.Rooted) (hx : x ≠ root)
    (hg : anchor ∈ (d.without x).numbers → Grafted (d.subtree x) (d.without x) grafted)
    (hn : anchor ∉ (d.without x).numbers → grafted = d.without x) :
    Rooted { d with trees := grafted } := by
  by_cases h : anchor ∈ (d.without x).numbers
  · exact hd.move hx (hg h)
  · rw [hn h]
    exact hd.cut hx

theorem append (hd : d.Rooted) (hx : id ≠ root) (h : d.append parent id = .ok e) : e.Rooted := by
  rw [append_ok h]
  exact hd.of_cut_or_move hx (grafted_appendTo (hd.cut hx).nodup) appendTo_of_notMem

theorem insertBefore (hd : d.Rooted) (hx : id ≠ root) (h : d.insertBefore anchor id = .ok e) :
    e.Rooted := by
  rw [insertBefore_ok h]
  exact hd.of_cut_or_move hx (grafted_insertBefore (hd.cut hx).nodup) insertBefore_of_notMem

theorem insertAfter (hd : d.Rooted) (hx : id ≠ root) (h : d.insertAfter anchor id = .ok e) :
    e.Rooted := by
  rw [insertAfter_ok h]
  exact hd.of_cut_or_move hx (grafted_insertAfter (hd.cut hx).nodup) insertAfter_of_notMem

theorem replace (hd : d.Rooted) (hx : id ≠ root) (h : d.replace anchor id = .ok e) :
    e.Rooted := by
  obtain ⟨hr, d', hd', rfl⟩ := replace_ok h
  exact (hd.insertBefore hx hd').cut hr

theorem addChild {kind : Kind} (hd : d.Rooted) (h : d.addChild parent kind = .ok (id, e)) :
    e.Rooted := by
  obtain ⟨rfl, h⟩ := addChild_ok h
  have hn : d.next ≠ root := Nat.ne_of_gt (hd.lt_next root hd.mem_root)
  exact (hd.create _).append hn h

end Rooted

/-- The documents that edits build from a style sheet without moving its root. -/
inductive Built : Document → Prop
  | ofForest (items : Forest Node) : Built (ofForest items)
  | create {d : Document} (node : Node) : Built d → Built (d.create node).2
  | setKind {d e : Document} {id : NodeId} {kind : Kind} :
    Built d → d.setKind id kind = .ok e → Built e
  | append {d e : Document} {parent id : NodeId} :
    Built d → id ≠ root → d.append parent id = .ok e → Built e
  | insertBefore {d e : Document} {anchor id : NodeId} :
    Built d → id ≠ root → d.insertBefore anchor id = .ok e → Built e
  | insertAfter {d e : Document} {anchor id : NodeId} :
    Built d → id ≠ root → d.insertAfter anchor id = .ok e → Built e
  | remove {d e : Document} {id : NodeId} : Built d → d.remove id = .ok e → Built e
  | replace {d e : Document} {old id : NodeId} :
    Built d → id ≠ root → d.replace old id = .ok e → Built e
  | addChild {d e : Document} {parent id : NodeId} {kind : Kind} :
    Built d → d.addChild parent kind = .ok (id, e) → Built e
  | insertNewBefore {d e : Document} {anchor : NodeId} {new : Forest Node} :
    Built d → d.insertNewBefore anchor new = .ok e → Built e
  | insertNewAfter {d e : Document} {anchor : NodeId} {new : Forest Node} :
    Built d → d.insertNewAfter anchor new = .ok e → Built e
  | replaceWithNew {d e : Document} {old : NodeId} {node : Node} :
    Built d → d.replaceWithNew old node = .ok e → Built e

theorem Built.rooted (h : Built d) : d.Rooted := by
  induction h with
  | ofForest items => exact (ofForest_whole items).toRooted
  | create node _ ih => exact ih.create node
  | setKind _ h ih => exact ih.setKind h
  | append _ hx h ih => exact ih.append hx h
  | insertBefore _ hx h ih => exact ih.insertBefore hx h
  | insertAfter _ hx h ih => exact ih.insertAfter hx h
  | remove _ h ih => exact ih.remove h
  | replace _ hx h ih => exact ih.replace hx h
  | addChild _ h ih => exact ih.addChild h
  | insertNewBefore _ h ih => exact ih.insertNewBefore h
  | insertNewAfter _ h ih => exact ih.insertNewAfter h
  | replaceWithNew _ h ih => exact ih.replaceWithNew h

end Document

end ModularScale
