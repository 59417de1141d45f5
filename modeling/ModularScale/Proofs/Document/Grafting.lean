import ModularScale.Document.Edit
import Mathlib.Data.List.Nodup

/-! # Cuts and grafts

What the edits of a forest do to the order of its nodes and to the nodes above each of them. A cut
takes away a node with all below it, and a graft puts new nodes in one place; neither changes
what is above a node that stays.
-/

namespace ModularScale.Forest

open Document

variable {α : Type u} {f new : Forest (NodeId × Node)} {id anchor x : NodeId}
  {as : List (NodeId × Node)}

/-- The numbers of all nodes, in document order. -/
def numbers (f : Forest (NodeId × Node)) : List NodeId :=
  f.toList.map Prod.fst

@[simp] theorem numbers_nil : numbers nil = [] := rfl

@[simp] theorem numbers_cons (a : NodeId × Node) (c r : Forest (NodeId × Node)) :
    numbers (cons a c r) = a.1 :: (c.numbers ++ r.numbers) := by
  simp [numbers, toList]

@[simp] theorem numbers_append (f g : Forest (NodeId × Node)) :
    (f ++ g).numbers = f.numbers ++ g.numbers := by
  simp [numbers]

theorem isNode_iff {a : NodeId × Node} : isNode id a = true ↔ a.1 = id := by
  simp [isNode]

theorem mem_numbers_iff : id ∈ f.numbers ↔ (f.find? (isNode id)).isSome = true := by
  have h := find?_eq_none_iff (p := isNode id) (f := f)
  rw [← Option.ne_none_iff_isSome, Ne, h]
  simp [numbers, isNode]

theorem mem_numbers_iff_above : id ∈ f.numbers ↔ (f.above? (isNode id)).isSome = true := by
  rw [mem_numbers_iff, above?_isSome]

theorem above?_eq_none : f.above? (isNode id) = none ↔ id ∉ f.numbers := by
  simp [mem_numbers_iff_above, ← Option.isNone_iff_eq_none]

theorem mem_of_above? (h : f.above? (isNode id) = some as) : id ∈ f.numbers := by
  rw [mem_numbers_iff_above, h]
  rfl

/-- In document order the first node that passes a test is the one that is found. -/
theorem map_fst_find? (p : NodeId × Node → Bool) (f : Forest (NodeId × Node)) :
    (f.find? p).map Prod.fst = f.toList.find? p := by
  induction f with
  | nil => rfl
  | cons a c r ihc ihr =>
    simp only [find?, toList, List.find?_cons, List.find?_append, ← ihc, ← ihr]
    cases p a
    · simp only [Bool.false_eq_true, ↓reduceIte, Option.map_or]
    · rfl

theorem find?_subset {p : NodeId × Node → Bool} {a : NodeId × Node}
    {below : Forest (NodeId × Node)} (h : f.find? p = some (a, below)) :
    below.toList ⊆ f.toList := by
  induction f with
  | nil => cases h
  | cons b c r ihc ihr =>
    unfold find? at h
    split at h
    · cases h
      exact List.subset_cons_of_subset _ (List.subset_append_left _ _)
    · rcases Option.or_eq_some_iff.mp h with h | ⟨_, h⟩
      · exact List.subset_cons_of_subset _ (List.subset_append_of_subset_left _ (ihc h))
      · exact List.subset_cons_of_subset _ (List.subset_append_of_subset_right _ (ihr h))

theorem tops_subset (f : Forest (NodeId × Node)) : f.tops ⊆ f.toList := by
  induction f with
  | nil => exact List.Subset.refl _
  | cons a c r _ ih =>
    exact List.cons_subset_cons a (List.subset_append_of_subset_right _ ih)

/-- The nodes above a node are nodes of the forest. -/
theorem above?_subset (h : f.above? (isNode id) = some as) : as ⊆ f.toList := by
  induction f generalizing as with
  | nil => simp [above?] at h
  | cons a c r ihc ihr =>
    unfold above? at h
    split at h
    · cases h; exact List.nil_subset _
    · rcases Option.or_eq_some_iff.mp h with h | ⟨_, h⟩
      · obtain ⟨bs, hb, rfl⟩ := Option.map_eq_some_iff.mp h
        intro b hm
        rcases List.mem_append.mp hm with hm | hm
        · exact List.mem_cons_of_mem _ (List.mem_append_left _ (ihc hb hm))
        · rw [List.mem_singleton.mp hm]; exact List.mem_cons_self
      · exact fun b hm => List.mem_cons_of_mem _ (List.mem_append_right _ (ihr h hm))

theorem above?_append (f g : Forest (NodeId × Node)) (id : NodeId) :
    (f ++ g).above? (isNode id) = (f.above? (isNode id)).or (g.above? (isNode id)) := by
  induction f with
  | nil => rfl
  | cons a c r _ ih =>
    simp only [cons_append, above?, ih]
    split
    · rfl
    · rw [Option.or_assoc]

/-! ### Cuts -/

theorem toList_erase_sublist (p : NodeId × Node → Bool) (f : Forest (NodeId × Node)) :
    (f.erase p).toList.Sublist f.toList := by
  induction f with
  | nil => exact .slnil
  | cons a c r ihc ihr =>
    unfold erase
    split
    · exact (ihr.trans (List.sublist_append_right _ _)).cons _
    · exact (ihc.append ihr).cons_cons _

theorem numbers_erase_sublist (p : NodeId × Node → Bool) (f : Forest (NodeId × Node)) :
    (f.erase p).numbers.Sublist f.numbers :=
  (toList_erase_sublist p f).map _

theorem above?_erase_eq_none {p : NodeId × Node → Bool} (h : id ∉ f.numbers) :
    (f.erase p).above? (isNode id) = none :=
  above?_eq_none.mpr fun hm => h ((numbers_erase_sublist p f).subset hm)

theorem nodup_cons {a : NodeId × Node} {c r : Forest (NodeId × Node)}
    (h : (cons a c r).numbers.Nodup) :
    a.1 ∉ c.numbers ∧ a.1 ∉ r.numbers ∧ c.numbers.Nodup ∧ r.numbers.Nodup ∧
      ∀ id ∈ c.numbers, id ∉ r.numbers := by
  rw [numbers_cons, List.nodup_cons, List.mem_append, not_or] at h
  obtain ⟨⟨hc, hr⟩, hn⟩ := h
  exact ⟨hc, hr, hn.of_append_left, hn.of_append_right, fun id h h' =>
    List.disjoint_of_nodup_append hn h h'⟩

theorem erase_cons_of_eq {a : NodeId × Node} {c r : Forest (NodeId × Node)} (h : a.1 = x) :
    (cons a c r).erase (isNode x) = r.erase (isNode x) := by
  simp [erase, isNode, h]

theorem erase_cons_of_ne {a : NodeId × Node} {c r : Forest (NodeId × Node)} (h : a.1 ≠ x) :
    (cons a c r).erase (isNode x) = cons a (c.erase (isNode x)) (r.erase (isNode x)) := by
  simp [erase, isNode, h]

theorem above?_cons_of_eq {a : NodeId × Node} {c r : Forest (NodeId × Node)} (h : a.1 = id) :
    (cons a c r).above? (isNode id) = some [] := by
  simp [above?, isNode, h]

theorem above?_cons_of_ne {a : NodeId × Node} {c r : Forest (NodeId × Node)} (h : a.1 ≠ id) :
    (cons a c r).above? (isNode id) =
      ((c.above? (isNode id)).map (· ++ [a])).or (r.above? (isNode id)) := by
  simp [above?, isNode, h]

/-- A node that has nodes above it is the first one, below the first one, or in one of the trees
behind that. -/
theorem above?_cons_cases {a : NodeId × Node} {c r : Forest (NodeId × Node)}
    (h : (cons a c r).above? (isNode id) = some as) :
    (a.1 = id ∧ as = []) ∨
      (a.1 ≠ id ∧ ∃ bs, c.above? (isNode id) = some bs ∧ as = bs ++ [a]) ∨
      (a.1 ≠ id ∧ id ∉ c.numbers ∧ r.above? (isNode id) = some as) := by
  by_cases ha : a.1 = id
  · rw [above?_cons_of_eq ha, Option.some.injEq] at h
    exact .inl ⟨ha, h.symm⟩
  · rw [above?_cons_of_ne ha] at h
    rcases Option.or_eq_some_iff.mp h with h | ⟨hc, h⟩
    · obtain ⟨bs, hb, rfl⟩ := Option.map_eq_some_iff.mp h
      exact .inr (.inl ⟨ha, bs, hb, rfl⟩)
    · exact .inr (.inr ⟨ha, above?_eq_none.mp (Option.map_eq_none_iff.mp hc), h⟩)

theorem above?_cons_below {a : NodeId × Node} {c r : Forest (NodeId × Node)}
    (hn : (cons a c r).numbers.Nodup) (h : c.above? (isNode id) = some as) :
    (cons a c r).above? (isNode id) = some (as ++ [a]) := by
  obtain ⟨hac, -⟩ := nodup_cons hn
  rw [above?_cons_of_ne fun e => hac (e ▸ mem_of_above? h), h]
  rfl

theorem above?_cons_beside {a : NodeId × Node} {c r : Forest (NodeId × Node)}
    (hn : (cons a c r).numbers.Nodup) (h : r.above? (isNode id) = some as) :
    (cons a c r).above? (isNode id) = some as := by
  obtain ⟨-, har, -, -, hcr⟩ := nodup_cons hn
  have hr := mem_of_above? h
  rw [above?_cons_of_ne fun e => har (e ▸ hr), above?_eq_none.mpr fun hc => hcr id hc hr, h]
  rfl

theorem find?_eq_none_of_notMem (h : id ∉ f.numbers) : f.find? (isNode id) = none := by
  simpa [mem_numbers_iff] using h

theorem find?_cons_of_eq {a : NodeId × Node} {c r : Forest (NodeId × Node)} (h : a.1 = x) :
    (cons a c r).find? (isNode x) = some (a, c) := by
  simp [find?, isNode, h]

theorem find?_cons_of_ne {a : NodeId × Node} {c r : Forest (NodeId × Node)} (h : a.1 ≠ x) :
    (cons a c r).find? (isNode x) = (c.find? (isNode x)).or (r.find? (isNode x)) := by
  simp [find?, isNode, h]

theorem find?_cons_below {a : NodeId × Node} {c r : Forest (NodeId × Node)}
    (hn : (cons a c r).numbers.Nodup) (h : x ∈ c.numbers) :
    (cons a c r).find? (isNode x) = c.find? (isNode x) := by
  obtain ⟨hac, -, -, -, hcr⟩ := nodup_cons hn
  rw [find?_cons_of_ne fun e => hac (e ▸ h), find?_eq_none_of_notMem (hcr x h), Option.or_none]

theorem find?_cons_beside {a : NodeId × Node} {c r : Forest (NodeId × Node)}
    (hn : (cons a c r).numbers.Nodup) (h : x ∈ r.numbers) :
    (cons a c r).find? (isNode x) = r.find? (isNode x) := by
  obtain ⟨-, har, -, -, hcr⟩ := nodup_cons hn
  rw [find?_cons_of_ne fun e => har (e ▸ h), find?_eq_none_of_notMem fun hc => hcr x hc h,
    Option.none_or]

/-- The nodes above a node that is above another one are above this one too, and no node is above
itself. -/
theorem above?_of_mem (hn : f.numbers.Nodup) (h : f.above? (isNode id) = some as) :
    id ∉ as.map Prod.fst ∧
      ∀ b ∈ as, ∃ bs, f.above? (isNode b.1) = some bs ∧ (b :: bs) <:+ as := by
  induction f generalizing as with
  | nil => simp [above?] at h
  | cons a c r ihc ihr =>
    obtain ⟨-, -, hnc, hnr, -⟩ := nodup_cons hn
    obtain ⟨-, rfl⟩ | ⟨ha, bs, hb, rfl⟩ | ⟨-, -, h⟩ := above?_cons_cases h
    · simp
    · obtain ⟨hi, hm⟩ := ihc hnc hb
      refine ⟨by simpa using ⟨by simpa using hi, Ne.symm ha⟩, fun b hbm => ?_⟩
      rcases List.mem_append.mp hbm with hbm | hbm
      · obtain ⟨bs', hb', hs⟩ := hm b hbm
        refine ⟨bs' ++ [a], above?_cons_below hn hb', ?_⟩
        simpa using (List.suffix_append_inj_of_length_eq rfl).mpr ⟨hs, rfl⟩
      · obtain rfl := List.mem_singleton.mp hbm
        exact ⟨[], above?_cons_of_eq rfl, List.suffix_append _ _⟩
    · obtain ⟨hi, hm⟩ := ihr hnr h
      refine ⟨hi, fun b hbm => ?_⟩
      obtain ⟨bs, hb, hs⟩ := hm b hbm
      exact ⟨bs, above?_cons_beside hn hb, hs⟩

/-- The tree of a topmost node has trees before and behind it. -/
theorem exists_of_top (h : f.above? (isNode id) = some []) :
    ∃ before node below after, f = before ++ single (id, node) below ++ after := by
  induction f with
  | nil => cases h
  | cons a c r _ ih =>
    obtain ⟨ha, -⟩ | ⟨-, as, -, has⟩ | ⟨-, -, h⟩ := above?_cons_cases h
    · exact ⟨nil, a.2, c, r, by rw [← ha]; rfl⟩
    · cases as <;> cases has
    · obtain ⟨before, node, below, after, rfl⟩ := ih h
      exact ⟨cons a c before, node, below, after, rfl⟩

theorem above?_nodup (hn : f.numbers.Nodup) (h : f.above? (isNode id) = some as) :
    (as.map Prod.fst).Nodup := by
  induction f generalizing as with
  | nil => cases h
  | cons a c r ihc ihr =>
    obtain ⟨hac, -, hnc, hnr, -⟩ := nodup_cons hn
    obtain ⟨-, rfl⟩ | ⟨-, bs, hb, rfl⟩ | ⟨-, -, h⟩ := above?_cons_cases h
    · exact List.nodup_nil
    · rw [List.map_append, List.nodup_append]
      refine ⟨ihc hnc hb, List.nodup_singleton _, fun i hi j hj e => hac ?_⟩
      rw [← List.mem_singleton.mp hj, ← e]
      exact List.map_subset _ (above?_subset hb) hi
    · exact ihr hnr h

/-- The nodes above a node are its parent and the nodes above that. -/
theorem above?_of_head {a : NodeId × Node} (hn : f.numbers.Nodup)
    (h : f.above? (isNode id) = some (a :: as)) : f.above? (isNode a.1) = some as := by
  obtain ⟨bs, hb, hs⟩ := (above?_of_mem hn h).2 a List.mem_cons_self
  have ha := (List.nodup_cons.mp (above?_nodup hn h)).1
  rcases List.suffix_cons_iff.mp hs with e | hs
  · cases e
    exact hb
  · exact absurd (List.mem_map_of_mem (hs.subset List.mem_cons_self)) ha

/-- After a cut just those nodes are left that are not cut off themselves and not below the cut,
and the same nodes are above them. -/
theorem above?_erase (hn : f.numbers.Nodup) (h : f.above? (isNode id) = some as) :
    (f.erase (isNode x)).above? (isNode id) =
      if x = id ∨ x ∈ as.map Prod.fst then none else some as := by
  induction f generalizing as with
  | nil => simp [above?] at h
  | cons a c r ihc ihr =>
    obtain ⟨-, har, hnc, hnr, hcr⟩ := nodup_cons hn
    obtain ⟨ha, rfl⟩ | ⟨ha, bs, hb, rfl⟩ | ⟨ha, hc, h⟩ := above?_cons_cases h
    · -- the node itself is on top
      by_cases hx : a.1 = x
      · rw [erase_cons_of_eq hx, above?_erase_eq_none (ha ▸ har), if_pos (.inl (hx ▸ ha))]
      · rw [erase_cons_of_ne hx, above?_cons_of_eq ha, if_neg]
        simpa using fun e => hx (ha.trans e.symm)
    · -- the node is below the first one on top
      have hr : (r.erase (isNode x)).above? (isNode id) = none :=
        above?_erase_eq_none (hcr _ (mem_of_above? hb))
      by_cases hx : a.1 = x
      · rw [erase_cons_of_eq hx, hr, if_pos (.inr (by simp [hx]))]
      · rw [erase_cons_of_ne hx, above?_cons_of_ne ha, ihc hnc hb, hr, Option.or_none]
        simp only [List.map_append, List.mem_append, List.map_cons, List.map_nil,
          List.mem_singleton, Ne.symm hx, or_false]
        split <;> rfl
    · -- the node is in one of the other trees
      by_cases hx : a.1 = x
      · rw [erase_cons_of_eq hx, ihr hnr h]
      · rw [erase_cons_of_ne hx, above?_cons_of_ne ha, above?_erase_eq_none hc, ihr hnr h]
        rfl

/-! ### Grafts -/

theorem insertAfter_cons_of_eq {a : NodeId × Node} {c r : Forest (NodeId × Node)}
    (h : a.1 = anchor) :
    insertAfter (isNode anchor) new (cons a c r) = cons a c (new ++ r) := by
  simp [insertAfter, isNode, h]

theorem insertAfter_cons_of_ne {a : NodeId × Node} {c r : Forest (NodeId × Node)}
    (h : a.1 ≠ anchor) : insertAfter (isNode anchor) new (cons a c r) =
      cons a (insertAfter (isNode anchor) new c) (insertAfter (isNode anchor) new r) := by
  simp [insertAfter, isNode, h]

/-- Puts trees together anew wherever a node passes the test and none above it does: the new ones
are made of the node, its children and the trees behind it. -/
def graft (p : α → Bool) (put : α → Forest α → Forest α → Forest α) : Forest α → Forest α
  | nil => nil
  | cons a c r => if p a then put a c r else cons a (graft p put c) (graft p put r)

theorem appendTo_eq_graft (p : α → Bool) (new f : Forest α) :
    appendTo p new f = graft p (fun a c r => cons a (c ++ new) r) f := by
  induction f with
  | nil => rfl
  | cons a c r ihc ihr => rw [appendTo, graft, ihc, ihr]

theorem insertBefore_eq_graft (p : α → Bool) (new f : Forest α) :
    insertBefore p new f = graft p (fun a c r => new ++ cons a c r) f := by
  induction f with
  | nil => rfl
  | cons a c r ihc ihr => rw [insertBefore, graft, ihc, ihr]

theorem insertAfter_eq_graft (p : α → Bool) (new f : Forest α) :
    insertAfter p new f = graft p (fun a c r => cons a c (new ++ r)) f := by
  induction f with
  | nil => rfl
  | cons a c r ihc ihr => rw [insertAfter, graft, ihc, ihr]

section

variable {put : NodeId × Node → Forest (NodeId × Node) → Forest (NodeId × Node) →
  Forest (NodeId × Node)}

theorem graft_cons_of_eq {a : NodeId × Node} {c r : Forest (NodeId × Node)} (h : a.1 = anchor) :
    graft (isNode anchor) put (cons a c r) = put a c r := by
  simp [graft, isNode, h]

theorem graft_cons_of_ne {a : NodeId × Node} {c r : Forest (NodeId × Node)} (h : a.1 ≠ anchor) :
    graft (isNode anchor) put (cons a c r) =
      cons a (graft (isNode anchor) put c) (graft (isNode anchor) put r) := by
  simp [graft, isNode, h]

theorem graft_of_notMem (h : anchor ∉ f.numbers) : graft (isNode anchor) put f = f := by
  induction f with
  | nil => rfl
  | cons a c r ihc ihr =>
    rw [numbers_cons, List.mem_cons, List.mem_append, not_or, not_or] at h
    rw [graft_cons_of_ne (Ne.symm h.1), ihc h.2.1, ihr h.2.2]

/-- New nodes that are put in one place beside a node, of which `P` holds, come there in the whole
forest, later than all nodes above this one. All other nodes keep their order. -/
theorem toList_graft (P : List (NodeId × Node) → Prop)
    (put : NodeId × Node → Forest (NodeId × Node) → Forest (NodeId × Node) → Forest (NodeId × Node))
    (new : Forest (NodeId × Node)) (hP : ∀ l l' : List (NodeId × Node), P l' → P (l ++ l'))
    (hput : ∀ a c r, a.1 = anchor → ∃ l₁ l₂, (cons a c r).toList = l₁ ++ l₂ ∧ P l₁ ∧
      (put a c r).toList = l₁ ++ new.toList ++ l₂)
    (hn : f.numbers.Nodup) (h : f.above? (isNode anchor) = some as) :
    ∃ l₁ l₂, f.toList = l₁ ++ l₂ ∧ as ⊆ l₁ ∧ P l₁ ∧
      (graft (isNode anchor) put f).toList = l₁ ++ new.toList ++ l₂ := by
  induction f generalizing as with
  | nil => cases h
  | cons a c r ihc ihr =>
    obtain ⟨-, -, hnc, hnr, hcr⟩ := nodup_cons hn
    obtain ⟨ha, rfl⟩ | ⟨ha, bs, hb, rfl⟩ | ⟨ha, hc, h⟩ := above?_cons_cases h
    · obtain ⟨l₁, l₂, ho, hl, he⟩ := hput a c r ha
      exact ⟨l₁, l₂, ho, List.nil_subset l₁, hl, by rw [graft_cons_of_eq ha, he]⟩
    · obtain ⟨l₁, l₂, hc, hm, hl, he⟩ := ihc hnc hb
      refine ⟨a :: l₁, l₂ ++ r.toList, by simp [toList, hc], ?_, hP [a] l₁ hl, ?_⟩
      · exact List.append_subset.mpr ⟨List.Subset.trans hm (List.subset_cons_self _ _), by simp⟩
      · rw [graft_cons_of_ne ha, toList, he, graft_of_notMem (hcr _ (mem_of_above? hb))]
        simp
    · obtain ⟨l₁, l₂, hr, hm, hl, he⟩ := ihr hnr h
      refine ⟨a :: c.toList ++ l₁, l₂, by simp [toList, hr], ?_, hP (a :: c.toList) l₁ hl, ?_⟩
      · exact List.Subset.trans hm (List.subset_append_right _ _)
      · rw [graft_cons_of_ne ha, toList, he, graft_of_notMem hc]
        simp

theorem mem_graft {p : NodeId × Node → Bool} {b : NodeId × Node}
    (hput : ∀ a c r, b ∈ (put a c r).toList → b ∈ (cons a c r).toList ∨ b ∈ new.toList)
    (h : b ∈ (graft p put f).toList) : b ∈ f.toList ∨ b ∈ new.toList := by
  induction f with
  | nil => cases h
  | cons a c r ihc ihr => grind [graft, toList]

theorem above?_graft (hput : ∀ a c r,
    (put a c r).above? (isNode id) = (cons a c r).above? (isNode id)) :
    (graft (isNode anchor) put f).above? (isNode id) = f.above? (isNode id) := by
  induction f with
  | nil => rfl
  | cons a c r ihc ihr =>
    unfold graft
    split
    · exact hput a c r
    · simp only [above?, ihc, ihr]

end

theorem insertAfter_nil (p : NodeId × Node → Bool) (f : Forest (NodeId × Node)) :
    insertAfter p nil f = f := by
  induction f with
  | nil => rfl
  | cons a c r ihc ihr => simp [insertAfter, ihc, ihr]

theorem insertAfter_of_notMem (h : anchor ∉ f.numbers) :
    insertAfter (isNode anchor) new f = f := by
  rw [insertAfter_eq_graft, graft_of_notMem h]

theorem insertBefore_of_notMem (h : anchor ∉ f.numbers) :
    insertBefore (isNode anchor) new f = f := by
  rw [insertBefore_eq_graft, graft_of_notMem h]

/-- A graft behind a node comes later than this node, and all other nodes keep their order. -/
theorem toList_insertAfter (new : Forest (NodeId × Node)) (hn : f.numbers.Nodup)
    (h : anchor ∈ f.numbers) :
    ∃ l₁ l₂, f.toList = l₁ ++ l₂ ∧ anchor ∈ l₁.map Prod.fst ∧
      (insertAfter (isNode anchor) new f).toList = l₁ ++ new.toList ++ l₂ := by
  obtain ⟨as, has⟩ := Option.isSome_iff_exists.mp (mem_numbers_iff_above.mp h)
  obtain ⟨l₁, l₂, ho, -, hm, he⟩ := toList_graft (fun l => anchor ∈ l.map Prod.fst)
    (fun a c r => cons a c (new ++ r)) new
    (fun l l' hl => by rw [List.map_append]; exact List.mem_append_right _ hl)
    (fun a c r ha => ⟨a :: c.toList, r.toList, rfl, by simp [ha], by simp [toList]⟩) hn has
  exact ⟨l₁, l₂, ho, hm, by rw [insertAfter_eq_graft, he]⟩

/-- A graft before a node comes later than all nodes above it, and all other nodes keep their
order. -/
theorem toList_insertBefore (new : Forest (NodeId × Node)) (hn : f.numbers.Nodup)
    (h : f.above? (isNode anchor) = some as) :
    ∃ l₁ l₂, f.toList = l₁ ++ l₂ ∧ as ⊆ l₁ ∧
      (insertBefore (isNode anchor) new f).toList = l₁ ++ new.toList ++ l₂ := by
  obtain ⟨l₁, l₂, ho, hm, -, he⟩ := toList_graft (fun _ => True)
    (fun a c r => new ++ cons a c r) new (fun _ _ _ => trivial)
    (fun a c r _ => ⟨[], (cons a c r).toList, rfl, trivial, by simp⟩) hn h
  exact ⟨l₁, l₂, ho, hm, by rw [insertBefore_eq_graft, he]⟩

theorem mem_insertAfter {p : NodeId × Node → Bool} {a : NodeId × Node}
    (h : a ∈ (insertAfter p new f).toList) : a ∈ f.toList ∨ a ∈ new.toList := by
  rw [insertAfter_eq_graft] at h
  exact mem_graft (fun b c r hb => by grind [toList, toList_append]) h

theorem mem_insertBefore {p : NodeId × Node → Bool} {a : NodeId × Node}
    (h : a ∈ (insertBefore p new f).toList) : a ∈ f.toList ∨ a ∈ new.toList := by
  rw [insertBefore_eq_graft] at h
  exact mem_graft (fun b c r hb => by grind [toList, toList_append]) h

theorem above?_insertAfter (h : id ∉ new.numbers) :
    (insertAfter (isNode anchor) new f).above? (isNode id) = f.above? (isNode id) := by
  rw [insertAfter_eq_graft]
  refine above?_graft fun a c r => ?_
  simp only [above?, above?_append, above?_eq_none.mpr h, Option.none_or]

theorem above?_insertBefore (h : id ∉ new.numbers) :
    (insertBefore (isNode anchor) new f).above? (isNode id) = f.above? (isNode id) := by
  rw [insertBefore_eq_graft]
  refine above?_graft fun a c r => ?_
  rw [above?_append, above?_eq_none.mpr h, Option.none_or]

/-! ### Changed values -/

variable {g : NodeId × Node → NodeId × Node}

theorem toList_modify (p : NodeId × Node → Bool) (g : NodeId × Node → NodeId × Node)
    (f : Forest (NodeId × Node)) :
    (f.modify p g).toList = f.toList.map fun a => if p a then g a else a := by
  induction f with
  | nil => rfl
  | cons a c r ihc ihr => simp [modify, toList, ihc, ihr]

theorem modify_append (p : NodeId × Node → Bool) (change : NodeId × Node → NodeId × Node)
    (f g : Forest (NodeId × Node)) :
    (f ++ g).modify p change = f.modify p change ++ g.modify p change := by
  induction f with
  | nil => rfl
  | cons a c r _ ih => simp only [cons_append, modify, ih]

theorem modify_of_notMem {change : NodeId × Node → NodeId × Node} (h : id ∉ f.numbers) :
    f.modify (isNode id) change = f := by
  induction f with
  | nil => rfl
  | cons a c r ihc ihr =>
    rw [numbers_cons, List.mem_cons, List.mem_append, not_or, not_or] at h
    have ha : isNode id a = false := by simpa [isNode] using Ne.symm h.1
    simp only [modify, ha, ihc h.2.1, ihr h.2.2]
    rfl

theorem modify_cons_of_ne {a : NodeId × Node} {c r : Forest (NodeId × Node)} (h : a.1 ≠ x) :
    (cons a c r).modify (isNode x) g = cons a (c.modify (isNode x) g) (r.modify (isNode x) g) := by
  simp [modify, isNode, h]

theorem numbers_modify (p : NodeId × Node → Bool) (hg : ∀ a, (g a).1 = a.1) :
    (f.modify p g).numbers = f.numbers := by
  rw [numbers, toList_modify, List.map_map, numbers]
  refine List.map_congr_left fun a _ => ?_
  simp only [Function.comp_apply]
  split
  · exact hg a
  · rfl

theorem above?_modify (p : NodeId × Node → Bool) (id : NodeId) (hg : ∀ a, (g a).1 = a.1) :
    ((f.modify p g).above? (isNode id)).map (List.map Prod.fst) =
      (f.above? (isNode id)).map (List.map Prod.fst) := by
  induction f with
  | nil => rfl
  | cons a c r ihc ihr =>
    have ha : (if p a then g a else a).1 = a.1 := by
      split
      · exact hg a
      · rfl
    have hi : isNode id (if p a then g a else a) = isNode id a := by simp only [isNode, ha]
    unfold modify above?
    rw [hi]
    split
    · rfl
    · rw [Option.map_or, Option.map_or, ihr]
      have hm : ∀ (b : NodeId × Node) (o : Option (List (NodeId × Node))),
          (o.map (· ++ [b])).map (List.map Prod.fst) =
            (o.map (List.map Prod.fst)).map (· ++ [b.1]) := by
        intro b o
        cases o <;> simp
      rw [hm, hm, ihc, ha]

end ModularScale.Forest
