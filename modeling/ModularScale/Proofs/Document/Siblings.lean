import ModularScale.Proofs.Document.Amid
import ModularScale.Proofs.Document.Reach

/-! # Lists of children

What cuts and grafts do to what is found below each node. New trees come into one list of children,
right beside the node that they are put beside, and a cut takes one node out of its list; all other
lists stay as they are.
-/

namespace ModularScale

namespace Forest

open Document

variable {f g new : Forest (NodeId × Node)} {id anchor x : NodeId}

/-- Where a node is not in the forest it is not below another one either. -/
theorem map_find?_of_notMem {k : Forest (NodeId × Node) → Forest (NodeId × Node)}
    (hk : ∀ g : Forest (NodeId × Node), anchor ∉ g.numbers → k g = g) (h : anchor ∉ f.numbers) :
    ((f.find? (isNode x)).map fun found => (found.1, k found.2)) = f.find? (isNode x) := by
  cases hf : f.find? (isNode x) with
  | none => rfl
  | some found =>
    obtain ⟨a, below⟩ := found
    have hb : anchor ∉ below.numbers := fun hm => h (List.map_subset _ (find?_subset hf) hm)
    rw [Option.map_some, hk below hb]

/-! ### New trees beside a node -/

section

variable {put : NodeId × Node → Forest (NodeId × Node) → Forest (NodeId × Node) →
  Forest (NodeId × Node)}

/-- An old node has the new trees below it if it has the node in its trees beside which they are
put, or is this node and gets them as children. -/
theorem find?_graft
    (put : NodeId × Node → Forest (NodeId × Node) → Forest (NodeId × Node) → Forest (NodeId × Node))
    (below : Forest (NodeId × Node) → Forest (NodeId × Node))
    (hself : ∀ a c r, a.1 = x → anchor ∉ c.numbers →
      (put a c r).find? (isNode x) = some (a, below c))
    (hother : ∀ a c r, a.1 ≠ x →
      (put a c r).find? (isNode x) = (c.find? (isNode x)).or (r.find? (isNode x)))
    (hn : f.numbers.Nodup) : (graft (isNode anchor) put f).find? (isNode x) =
      (f.find? (isNode x)).map fun found =>
        (found.1, if x = anchor then below found.2 else graft (isNode anchor) put found.2) := by
  induction f with
  | nil => rfl
  | cons a c r ihc ihr =>
    obtain ⟨hac, har, hnc, hnr, -⟩ := nodup_cons hn
    by_cases ha : a.1 = anchor
    · subst ha
      rw [graft_cons_of_eq rfl]
      by_cases hax : a.1 = x
      · rw [find?_cons_of_eq hax, Option.map_some, if_pos hax.symm, hself a c r hax hac]
      · simp only [if_neg (Ne.symm hax)]
        rw [hother a c r hax, find?_cons_of_ne hax, Option.map_or,
          map_find?_of_notMem (fun _ => graft_of_notMem) hac,
          map_find?_of_notMem (fun _ => graft_of_notMem) har]
    · rw [graft_cons_of_ne ha]
      by_cases hax : a.1 = x
      · rw [find?_cons_of_eq hax, find?_cons_of_eq hax, Option.map_some, if_neg (hax ▸ ha)]
      · rw [find?_cons_of_ne hax, find?_cons_of_ne hax, ihc hnc, ihr hnr, Option.map_or]

theorem find?_graft_new
    (hput : ∀ a c r, a.1 ≠ x → c.find? (isNode x) = none → r.find? (isNode x) = none →
      (put a c r).find? (isNode x) = new.find? (isNode x))
    (hn : f.numbers.Nodup) (h : anchor ∈ f.numbers) (hx : x ∉ f.numbers) :
    (graft (isNode anchor) put f).find? (isNode x) = new.find? (isNode x) := by
  induction f with
  | nil => cases h
  | cons a c r ihc ihr =>
    obtain ⟨-, -, hnc, hnr, hcr⟩ := nodup_cons hn
    rw [numbers_cons, List.mem_cons, List.mem_append, not_or, not_or] at hx
    obtain ⟨hax, hxc, hxr⟩ := hx
    have hc := find?_eq_none_of_notMem hxc
    have hr := find?_eq_none_of_notMem hxr
    by_cases ha : a.1 = anchor
    · rw [graft_cons_of_eq ha, hput a c r (Ne.symm hax) hc hr]
    · rw [graft_cons_of_ne ha, find?_cons_of_ne (Ne.symm hax)]
      rw [numbers_cons, List.mem_cons, List.mem_append] at h
      rcases h with h | h | h
      · exact absurd h.symm ha
      · rw [ihc hnc h hxc, graft_of_notMem (hcr _ h), hr, Option.or_none]
      · rw [graft_of_notMem fun hm => hcr _ hm h, hc, Option.none_or, ihr hnr h hxr]

theorem tops_graft (ids : List NodeId) (hput : ∀ a c r, a.1 = anchor →
      (put a c r).tops.map Prod.fst = ids ++ r.tops.map Prod.fst) (hn : f.numbers.Nodup) :
    (graft (isNode anchor) put f).tops.map Prod.fst =
      (f.tops.map Prod.fst).flatMap fun y => if y = anchor then ids else [y] := by
  induction f with
  | nil => rfl
  | cons a c r _ ihr =>
    obtain ⟨-, har, -, hnr, -⟩ := nodup_cons hn
    have hr := ihr hnr
    rw [tops, List.map_cons, List.flatMap_cons]
    by_cases ha : a.1 = anchor
    · rw [graft_of_notMem (ha ▸ har)] at hr
      rw [graft_cons_of_eq ha, hput a c r ha, if_pos ha, ← hr]
    · rw [graft_cons_of_ne ha, tops, List.map_cons, if_neg ha, hr, List.singleton_append]

end

/-- An old node has the new trees below it if it has the node they are put behind. -/
theorem find?_insertAfter (hn : f.numbers.Nodup) (hx : x ∉ new.numbers) :
    (insertAfter (isNode anchor) new f).find? (isNode x) =
      (f.find? (isNode x)).map fun found =>
        (found.1, insertAfter (isNode anchor) new found.2) := by
  have h := find?_graft (fun a c r => cons a c (new ++ r)) (insertAfter (isNode anchor) new)
    (fun a c r ha hc => by rw [find?_cons_of_eq ha, insertAfter_of_notMem hc])
    (fun a c r ha => by
      rw [find?_cons_of_ne ha, find?_append, find?_eq_none_of_notMem hx, Option.none_or]) hn
  simp only [← insertAfter_eq_graft, ite_self] at h
  exact h

theorem find?_insertAfter_new (hn : f.numbers.Nodup) (h : anchor ∈ f.numbers)
    (hx : x ∉ f.numbers) :
    (insertAfter (isNode anchor) new f).find? (isNode x) = new.find? (isNode x) := by
  rw [insertAfter_eq_graft]
  refine find?_graft_new (fun a c r ha hc hr => ?_) hn h hx
  rw [find?_cons_of_ne ha, find?_append, hc, hr, Option.or_none, Option.none_or]

theorem tops_insertAfter (hn : f.numbers.Nodup) :
    (insertAfter (isNode anchor) new f).tops.map Prod.fst =
      (f.tops.map Prod.fst).flatMap fun y =>
        if y = anchor then y :: new.tops.map Prod.fst else [y] := by
  rw [insertAfter_eq_graft, tops_graft (anchor :: new.tops.map Prod.fst) ?_ hn]
  · grind
  · intro a c r ha
    rw [tops, tops_append, List.map_cons, List.map_append, ha, List.cons_append]

/-- What is put behind a node later comes before what was put there first. -/
theorem insertAfter_insertAfter (g new f : Forest (NodeId × Node)) :
    insertAfter (isNode anchor) new (insertAfter (isNode anchor) g f) =
      insertAfter (isNode anchor) (new ++ g) f := by
  induction f with
  | nil => rfl
  | cons a c r ihc ihr =>
    by_cases ha : a.1 = anchor
    · rw [insertAfter_cons_of_eq ha, insertAfter_cons_of_eq ha, insertAfter_cons_of_eq ha,
        append_assoc]
    · rw [insertAfter_cons_of_ne ha, insertAfter_cons_of_ne ha, insertAfter_cons_of_ne ha, ihc, ihr]

/-! ### New trees before a node -/

theorem insertBefore_cons_of_eq {a : NodeId × Node} {c r : Forest (NodeId × Node)}
    (h : a.1 = anchor) : insertBefore (isNode anchor) new (cons a c r) = new ++ cons a c r := by
  simp [insertBefore, isNode, h]

theorem insertBefore_cons_of_ne {a : NodeId × Node} {c r : Forest (NodeId × Node)}
    (h : a.1 ≠ anchor) : insertBefore (isNode anchor) new (cons a c r) =
      cons a (insertBefore (isNode anchor) new c) (insertBefore (isNode anchor) new r) := by
  simp [insertBefore, isNode, h]

theorem insertBefore_nil (p : NodeId × Node → Bool) (f : Forest (NodeId × Node)) :
    insertBefore p nil f = f := by
  induction f with
  | nil => rfl
  | cons a c r ihc ihr => simp [insertBefore, ihc, ihr]

theorem find?_insertBefore (hn : f.numbers.Nodup) (hx : x ∉ new.numbers) :
    (insertBefore (isNode anchor) new f).find? (isNode x) =
      (f.find? (isNode x)).map fun found =>
        (found.1, insertBefore (isNode anchor) new found.2) := by
  have h := find?_graft (fun a c r => new ++ cons a c r) (insertBefore (isNode anchor) new)
    (fun a c r ha hc => by
      rw [find?_append, find?_eq_none_of_notMem hx, Option.none_or, find?_cons_of_eq ha,
        insertBefore_of_notMem hc])
    (fun a c r ha => by
      rw [find?_append, find?_eq_none_of_notMem hx, Option.none_or, find?_cons_of_ne ha]) hn
  simp only [← insertBefore_eq_graft, ite_self] at h
  exact h

theorem find?_insertBefore_new (hn : f.numbers.Nodup) (h : anchor ∈ f.numbers)
    (hx : x ∉ f.numbers) :
    (insertBefore (isNode anchor) new f).find? (isNode x) = new.find? (isNode x) := by
  rw [insertBefore_eq_graft]
  refine find?_graft_new (fun a c r ha hc hr => ?_) hn h hx
  rw [find?_append, find?_cons_of_ne ha, hc, hr, Option.or_none, Option.or_none]

theorem tops_insertBefore (hn : f.numbers.Nodup) :
    (insertBefore (isNode anchor) new f).tops.map Prod.fst =
      (f.tops.map Prod.fst).flatMap fun y =>
        if y = anchor then new.tops.map Prod.fst ++ [y] else [y] := by
  rw [insertBefore_eq_graft, tops_graft (new.tops.map Prod.fst ++ [anchor]) ?_ hn]
  · grind
  · intro a c r ha
    rw [tops_append, tops, List.map_append, List.map_cons, ha, List.append_assoc,
      List.singleton_append]

/-- What is put before a node later comes behind what was put there first. -/
theorem insertBefore_insertBefore (new f : Forest (NodeId × Node)) (h : anchor ∉ g.numbers) :
    insertBefore (isNode anchor) new (insertBefore (isNode anchor) g f) =
      insertBefore (isNode anchor) (g ++ new) f := by
  induction f with
  | nil => rfl
  | cons a c r ihc ihr =>
    by_cases ha : a.1 = anchor
    · rw [insertBefore_cons_of_eq ha, insertBefore_cons_of_eq ha, insertBefore_append (.inl h),
        insertBefore_of_notMem h, insertBefore_cons_of_eq ha, append_assoc]
    · rw [insertBefore_cons_of_ne ha, insertBefore_cons_of_ne ha, insertBefore_cons_of_ne ha, ihc,
        ihr]

/-! ### New trees behind the last child of a node -/

theorem appendTo_cons_of_eq {a : NodeId × Node} {c r : Forest (NodeId × Node)}
    (h : a.1 = anchor) : appendTo (isNode anchor) new (cons a c r) = cons a (c ++ new) r := by
  simp [appendTo, isNode, h]

theorem appendTo_cons_of_ne {a : NodeId × Node} {c r : Forest (NodeId × Node)}
    (h : a.1 ≠ anchor) : appendTo (isNode anchor) new (cons a c r) =
      cons a (appendTo (isNode anchor) new c) (appendTo (isNode anchor) new r) := by
  simp [appendTo, isNode, h]

/-- An old node has the new trees below it if it is the node they are put below or has it. -/
theorem find?_appendTo (hn : f.numbers.Nodup) (hx : x ∉ new.numbers) :
    (appendTo (isNode anchor) new f).find? (isNode x) = (f.find? (isNode x)).map fun found =>
      (found.1, if x = anchor then found.2 ++ new
        else appendTo (isNode anchor) new found.2) := by
  have h := find?_graft (fun a c r => cons a (c ++ new) r) (· ++ new)
    (fun a c r ha (_ : anchor ∉ c.numbers) => find?_cons_of_eq ha)
    (fun a c r ha => by
      rw [find?_cons_of_ne ha, find?_append, find?_eq_none_of_notMem hx, Option.or_none]) hn
  simp only [← appendTo_eq_graft] at h
  exact h

theorem find?_appendTo_new (hn : f.numbers.Nodup) (h : anchor ∈ f.numbers) (hx : x ∉ f.numbers) :
    (appendTo (isNode anchor) new f).find? (isNode x) = new.find? (isNode x) := by
  rw [appendTo_eq_graft]
  refine find?_graft_new (fun a c r ha hc hr => ?_) hn h hx
  rw [find?_cons_of_ne ha, find?_append, hc, hr, Option.or_none, Option.none_or]

theorem tops_appendTo (f : Forest (NodeId × Node)) :
    (appendTo (isNode anchor) new f).tops = f.tops := by
  induction f with
  | nil => rfl
  | cons a c r _ ihr =>
    by_cases ha : a.1 = anchor
    · rw [appendTo_cons_of_eq ha, tops, tops]
    · rw [appendTo_cons_of_ne ha, tops, tops, ihr]

/-! ### Cuts -/

/-- A node that is left has below it what it had, less the node that is cut off. -/
theorem find?_erase (hn : f.numbers.Nodup) (hx : x ∈ (f.erase (isNode id)).numbers) :
    (f.erase (isNode id)).find? (isNode x) =
      (f.find? (isNode x)).map fun found => (found.1, found.2.erase (isNode id)) := by
  induction f with
  | nil => rfl
  | cons a c r ihc ihr =>
    obtain ⟨-, -, hnc, hnr, -⟩ := nodup_cons hn
    have hcut := (numbers_erase_sublist (isNode id) (cons a c r)).nodup hn
    have hsub := fun (k : Forest (NodeId × Node)) =>
      (numbers_erase_sublist (isNode id) k).subset
    by_cases ha : a.1 = id
    · rw [erase_cons_of_eq ha] at hx ⊢
      rw [find?_cons_beside hn (hsub r hx), ihr hnr hx]
    · rw [erase_cons_of_ne ha] at hx hcut ⊢
      rw [numbers_cons, List.mem_cons, List.mem_append] at hx
      rcases hx with hx | hx | hx
      · rw [find?_cons_of_eq hx.symm, find?_cons_of_eq hx.symm, Option.map_some]
      · rw [find?_cons_below hn (hsub c hx), find?_cons_below hcut hx, ihc hnc hx]
      · rw [find?_cons_beside hn (hsub r hx), find?_cons_beside hcut hx, ihr hnr hx]

theorem tops_erase (f : Forest (NodeId × Node)) :
    (f.erase (isNode id)).tops.map Prod.fst = (f.tops.map Prod.fst).filter (· ≠ id) := by
  induction f with
  | nil => rfl
  | cons a c r _ ihr =>
    by_cases ha : a.1 = id
    · rw [erase_cons_of_eq ha, ihr, tops, List.map_cons,
        List.filter_cons_of_neg (by simpa using ha)]
    · rw [erase_cons_of_ne ha, tops, tops, List.map_cons, List.map_cons, ihr,
        List.filter_cons_of_pos (by simpa using ha)]

/-! ### Changed values -/

theorem find?_modify {p : NodeId × Node → Bool} {k : NodeId × Node → NodeId × Node}
    (hk : ∀ a, (k a).1 = a.1) :
    (f.modify p k).find? (isNode x) = (f.find? (isNode x)).map fun found =>
      (if p found.1 then k found.1 else found.1, found.2.modify p k) := by
  induction f with
  | nil => rfl
  | cons a c r ihc ihr =>
    have ha : (if p a then k a else a).1 = a.1 := by
      split
      · exact hk a
      · rfl
    rw [modify]
    by_cases hax : a.1 = x
    · rw [find?_cons_of_eq (ha.trans hax), find?_cons_of_eq hax, Option.map_some]
    · rw [find?_cons_of_ne fun e => hax (ha.symm.trans e), find?_cons_of_ne hax, ihc, ihr,
        Option.map_or]

theorem tops_modify {p : NodeId × Node → Bool} {k : NodeId × Node → NodeId × Node}
    (hk : ∀ a, (k a).1 = a.1) (f : Forest (NodeId × Node)) :
    (f.modify p k).tops.map Prod.fst = f.tops.map Prod.fst := by
  induction f with
  | nil => rfl
  | cons a c r _ ihr =>
    rw [modify, tops, tops, List.map_cons, List.map_cons, ihr]
    split
    · rw [hk a]
    · rfl

end Forest

end ModularScale
