import ModularScale.Proofs.Document.Grafting
import ModularScale.Sizing.Basic

/-! # What edits keep

Every edit of a whole document leaves it whole. The old nodes that are left keep their order, the
nodes above them and, unless the edit is about them, what they are; and just those nodes are lost
that are removed or below a removed one.
-/

namespace ModularScale.Document

open Forest

variable {d e e' : Document} {id anchor x : NodeId}

theorem isLive_iff : d.isLive id = true ↔ id ∈ d.trees.numbers := by
  rw [mem_numbers_iff]
  rfl

theorem isLive_iff_above : d.isLive id = true ↔ ∃ as, d.trees.above? (isNode id) = some as := by
  rw [isLive_iff, mem_numbers_iff_above, Option.isSome_iff_exists]

theorem ancestors_eq {as : List (NodeId × Node)} (h : d.trees.above? (isNode id) = some as) :
    d.ancestors id = as.map Prod.fst := by
  simp [ancestors, h]

theorem node?_eq (d : Document) (id : NodeId) :
    d.node? id = (d.trees.toList.find? (isNode id)).map Prod.snd := by
  rw [node?, find?, ← map_fst_find?, Option.map_map]
  rfl

theorem node?_eq_some_iff {n : Node} (h : d.trees.numbers.Nodup) :
    d.node? id = some n ↔ (id, n) ∈ d.trees.toList := by
  rw [node?_eq, Option.map_eq_some_iff]
  constructor
  · rintro ⟨⟨i, m⟩, hf, rfl⟩
    have hi : i = id := isNode_iff.mp (List.find?_some hf)
    exact hi ▸ List.mem_of_find?_eq_some hf
  · intro hm
    obtain ⟨b, hb⟩ := Option.isSome_iff_exists.mp
      (List.find?_isSome.mpr ⟨_, hm, isNode_iff.mpr rfl⟩)
    have hi : b.1 = id := isNode_iff.mp (List.find?_some hb)
    refine ⟨b, hb, ?_⟩
    have := List.inj_on_of_nodup_map h (List.mem_of_find?_eq_some hb) hm hi
    rw [this]

theorem isLive_iff_node : d.isLive id = true ↔ ∃ n, d.node? id = some n := by
  rw [isLive, node?, ← Option.isSome_iff_exists, Option.isSome_map]

theorem kind_of_node? {n : Node} (h : d.node? id = some n) : d.kind id = .ok n.kind := by
  simp [Document.kind, h]

theorem node?_of_kind {kind : Kind} (h : d.kind id = .ok kind) :
    ∃ n, d.node? id = some n ∧ n.kind = kind := by
  unfold Document.kind at h
  split at h
  case h_1 n hn => cases h; exact ⟨n, hn, rfl⟩
  case h_2 => cases h

theorem mem_of_node? {n : Node} (h : d.node? id = some n) : (id, n) ∈ d.trees.toList := by
  rw [node?_eq] at h
  obtain ⟨a, hf, rfl⟩ := Option.map_eq_some_iff.mp h
  have ha := List.mem_of_find?_eq_some hf
  rwa [← isNode_iff.mp (List.find?_some hf)]

theorem isLive_of_mem {a : NodeId × Node} (h : a ∈ d.trees.toList) : d.isLive a.1 = true :=
  isLive_iff.mpr (List.mem_map_of_mem h)

/-- All nodes are in one tree below the root, and each has a number of its own, which has been
given out. -/
structure Whole (d : Document) : Prop where
  rooted : ∃ node below, d.trees = .single (root, node) below
  nodup : d.trees.numbers.Nodup
  lt_next : ∀ id ∈ d.trees.numbers, id < d.next

theorem Whole.lt_of_isLive (hd : d.Whole) (h : d.isLive id = true) : id < d.next :=
  hd.lt_next id (isLive_iff.mp h)

theorem Whole.attached_eq (hd : d.Whole) : d.attached = d.trees := by
  obtain ⟨node, below, h⟩ := hd.rooted
  simp [attached, find?, h, single, Forest.find?, isNode]

theorem Whole.nodes_eq (hd : d.Whole) : d.nodes = d.trees.numbers := by
  rw [nodes, hd.attached_eq, numbers]

/-- In a whole document no node stands apart from the style sheet. -/
theorem Whole.isAttached_eq (hd : d.Whole) (id : NodeId) : d.isAttached id = d.isLive id := by
  obtain ⟨node, below, ht⟩ := hd.rooted
  rw [isAttached, Bool.and_eq_left_iff_imp, isLive_iff_above]
  rintro ⟨as, h⟩
  rw [ancestors_eq h, beq_iff_eq]
  rw [ht, single] at h
  obtain ⟨hr, rfl⟩ | ⟨-, bs, -, rfl⟩ | ⟨-, -, h⟩ := above?_cons_cases h
  · obtain rfl : root = id := hr
    rfl
  · simp
  · cases h

/-- Every node but the root has a parent, which is in the document too. -/
theorem Whole.parent_isSome (hd : d.Whole) (h : d.isLive id = true) (hr : id ≠ root) :
    (d.parent? id).isSome = true := by
  obtain ⟨node, below, ht⟩ := hd.rooted
  obtain ⟨as, ha⟩ := isLive_iff_above.mp h
  rw [parent?, ancestors_eq ha]
  rw [ht, single, above?_cons_of_ne (Ne.symm hr), above?, Option.or_none,
    Option.map_eq_some_iff] at ha
  obtain ⟨bs, -, rfl⟩ := ha
  cases bs <;> simp

/-- The root is above every other node. -/
theorem Whole.root_mem_ancestors (hd : d.Whole) (h : d.isLive id = true) (hr : id ≠ root) :
    root ∈ d.ancestors id := by
  have ha : d.isAttached id = true := hd.isAttached_eq id ▸ h
  rw [isAttached, Bool.and_eq_true, beq_iff_eq] at ha
  cases hl : (d.ancestors id).getLast? with
  | none => simp [hl, hr] at ha
  | some a =>
    rw [hl, Option.getD_some] at ha
    exact ha.2 ▸ List.mem_of_getLast? hl

/-- Only nodes of the document have nodes above them. -/
theorem exists_above (h : x ∈ d.ancestors id) : ∃ as, d.trees.above? (isNode id) = some as := by
  cases ha : d.trees.above? (isNode id) with
  | none => simp [ancestors, ha] at h
  | some as => exact ⟨as, rfl⟩

theorem isLive_of_ancestor (h : x ∈ d.ancestors id) : d.isLive id = true :=
  isLive_iff_above.mpr (exists_above h)

theorem isLive_of_mem_ancestors (h : x ∈ d.ancestors id) : d.isLive x = true := by
  obtain ⟨as, ha⟩ := exists_above h
  rw [ancestors_eq ha, List.mem_map] at h
  obtain ⟨a, hm, rfl⟩ := h
  exact isLive_iff.mpr (List.mem_map_of_mem (above?_subset ha hm))

theorem mem_ancestors_of_parent {parent : NodeId} (h : d.parent? id = some parent) :
    parent ∈ d.ancestors id :=
  List.mem_of_head? h

theorem isLive_of_parent {parent : NodeId} (h : d.parent? id = some parent) :
    d.isLive id = true :=
  isLive_of_ancestor (mem_ancestors_of_parent h)

/-- What is above a node starts with its parent. -/
theorem Whole.above_of_parent (hd : d.Whole) {parent : NodeId} {kind : Kind}
    (h : d.parent? id = some parent) (hk : d.kind parent = .ok kind) :
    ∃ n as, d.trees.above? (isNode id) = some ((parent, n) :: as) ∧ n.kind = kind := by
  obtain ⟨as, ha⟩ := isLive_iff_above.mp (isLive_of_parent h)
  rw [parent?, ancestors_eq ha] at h
  cases as with
  | nil => cases h
  | cons a as =>
    cases h
    have hn := (node?_eq_some_iff hd.nodup).mpr (above?_subset ha List.mem_cons_self)
    rw [kind_of_node? hn, Except.ok.injEq] at hk
    exact ⟨a.2, as, ha, hk⟩

/-- A node is not below a node that is below it. -/
theorem not_above (hn : d.trees.numbers.Nodup) {a : NodeId} (h : a ∈ d.ancestors x) :
    x ≠ a ∧ x ∉ d.ancestors a := by
  obtain ⟨as, ha⟩ := exists_above h
  rw [ancestors_eq ha] at h
  obtain ⟨hi, hm⟩ := above?_of_mem hn ha
  obtain ⟨b, hb, rfl⟩ := List.mem_map.mp h
  obtain ⟨bs, hbs, hs⟩ := hm b hb
  rw [ancestors_eq hbs]
  have hs := (hs.map Prod.fst).subset
  refine ⟨fun e => hi (e ▸ h), fun hx => hi (hs (List.mem_cons_of_mem _ hx))⟩

theorem Whole.not_above (hd : d.Whole) {a : NodeId} (h : a ∈ d.ancestors x) :
    x ≠ a ∧ x ∉ d.ancestors a :=
  Document.not_above hd.nodup h

theorem ancestors_of_parent (hn : d.trees.numbers.Nodup) {parent : NodeId}
    (h : d.parent? id = some parent) : d.ancestors id = parent :: d.ancestors parent := by
  obtain ⟨as, ha⟩ := isLive_iff_above.mp (isLive_of_parent h)
  rw [parent?, ancestors_eq ha] at h
  cases as with
  | nil => cases h
  | cons a as =>
    cases h
    rw [ancestors_eq ha, ancestors_eq (above?_of_head hn ha)]
    rfl

theorem Whole.ancestors_of_parent (hd : d.Whole) {parent : NodeId}
    (h : d.parent? id = some parent) : d.ancestors id = parent :: d.ancestors parent :=
  Document.ancestors_of_parent hd.nodup h

/-- What is left as it was: the old nodes that are still there keep their order and the nodes above
them, and those not among `changed` are what they were. -/
structure Keeps (changed : List NodeId) (d e : Document) : Prop where
  next_le : d.next ≤ e.next
  order : (e.trees.numbers.filter (· < d.next)).Sublist d.trees.numbers
  ancestors : ∀ id < d.next, e.isLive id = true → e.ancestors id = d.ancestors id
  node : ∀ id < d.next, id ∉ changed → e.isLive id = true → e.node? id = d.node? id

/-- An edit of a whole document, which changes some nodes and may remove one with all below it. -/
structure Edited (changed : List NodeId) (lost : Option NodeId) (d e : Document) : Prop
    extends Keeps changed d e where
  whole : e.Whole
  isLive : ∀ id, d.isLive id = true →
    (e.isLive id = true ↔ ∀ x ∈ lost, x ≠ id ∧ x ∉ d.ancestors id)

variable {changed changed' : List NodeId} {lost : Option NodeId}

theorem Keeps.isLive_of_isLive (k : Keeps changed d e) (hi : id < d.next)
    (h : e.isLive id = true) : d.isLive id = true := by
  rw [isLive_iff] at h ⊢
  exact k.order.subset (List.mem_filter.mpr ⟨h, by simpa using hi⟩)

theorem Keeps.refl (d : Document) : Keeps [] d d where
  next_le := Nat.le_refl _
  order := List.filter_sublist
  ancestors _ _ _ := rfl
  node _ _ _ _ := rfl

theorem Keeps.trans (k : Keeps changed d e) (k' : Keeps changed' e e') :
    Keeps (changed ++ changed') d e' where
  next_le := Nat.le_trans k.next_le k'.next_le
  order := by
    have hf : e'.trees.numbers.filter (· < d.next) =
        (e'.trees.numbers.filter (· < e.next)).filter (· < d.next) := by
      rw [List.filter_filter]
      refine List.filter_congr fun id _ => ?_
      simp only [← Bool.decide_and, decide_eq_decide]
      exact ⟨fun h => ⟨h, Nat.lt_of_lt_of_le h k.next_le⟩, And.left⟩
    rw [hf]
    exact (k'.order.filter _).trans k.order
  ancestors id hi h := by
    have hi' : id < e.next := Nat.lt_of_lt_of_le hi k.next_le
    rw [k'.ancestors id hi' h, k.ancestors id hi (k'.isLive_of_isLive hi' h)]
  node id hi hc h := by
    have hi' : id < e.next := Nat.lt_of_lt_of_le hi k.next_le
    rw [List.mem_append, not_or] at hc
    rw [k'.node id hi' hc.2 h, k.node id hi hc.1 (k'.isLive_of_isLive hi' h)]

theorem Edited.refl (hd : d.Whole) : Edited [] none d d where
  toKeeps := .refl d
  whole := hd
  isLive _ h := by simp [h]

theorem filter_mem_of_sublist {α : Type*} [DecidableEq α] {l l' : List α} (hs : l'.Sublist l)
    (hn : l.Nodup) : l.filter (· ∈ l') = l' := by
  induction hs with
  | slnil => rfl
  | cons a hs ih =>
    obtain ⟨ha, hn⟩ := List.nodup_cons.mp hn
    rw [List.filter_cons_of_neg (by simpa using fun h => ha (hs.subset h)), ih hn]
  | cons_cons a hs ih =>
    obtain ⟨ha, hn⟩ := List.nodup_cons.mp hn
    rw [List.filter_cons_of_pos (by simp), ← ih hn]
    refine congrArg _ (List.filter_congr fun b hb => ?_)
    have : b ≠ a := fun e => ha (e ▸ hb)
    simp [this, hb]

/-- Two old nodes that are still there are in their old order. -/
theorem Edited.pair (t : Edited changed lost d e) (hd : d.Whole) {a b : NodeId}
    (ha : e.isLive a = true) (hb : e.isLive b = true) (h : [a, b].Sublist d.nodes) :
    [a, b].Sublist e.nodes := by
  rw [hd.nodes_eq] at h
  rw [t.whole.nodes_eq]
  have hlt : ∀ y ∈ [a, b], y < d.next := fun y hy => hd.lt_next y (h.subset hy)
  have ha' : a ∈ e.trees.numbers.filter (· < d.next) :=
    List.mem_filter.mpr ⟨isLive_iff.mp ha, by simpa using hlt a (by simp)⟩
  have hb' : b ∈ e.trees.numbers.filter (· < d.next) :=
    List.mem_filter.mpr ⟨isLive_iff.mp hb, by simpa using hlt b (by simp)⟩
  have hf := h.filter (· ∈ e.trees.numbers.filter (· < d.next))
  rw [filter_mem_of_sublist t.order hd.nodup, List.filter_cons_of_pos (by simpa using ha'),
    List.filter_cons_of_pos (by simpa using hb'), List.filter_nil] at hf
  exact hf.trans List.filter_sublist

/-- What an old node is that an edit does not change. -/
theorem Edited.node?_of_isLive (t : Edited changed lost d e) (hd : d.Whole) {n : Node}
    (hn : e.node? id = some n) (hl : d.isLive id = true) (hc : id ∉ changed) :
    d.node? id = some n := by
  rw [← hn, eq_comm]
  exact t.node id (hd.lt_of_isLive hl) hc (isLive_iff_node.mpr ⟨n, hn⟩)

/-- Without a removal every node keeps the nodes above it. -/
theorem Edited.ancestors_eq (t : Edited changed none d e) (hd : d.Whole)
    (h : d.isLive id = true) : e.ancestors id = d.ancestors id :=
  t.ancestors id (hd.lt_of_isLive h) ((t.isLive id h).mpr (by simp))

theorem Edited.mono (t : Edited changed lost d e) (h : changed ⊆ changed') :
    Edited changed' lost d e :=
  { t with node := fun id hi hc hl => t.node id hi (fun hm => hc (h hm)) hl }

/-- An edit that removes nothing, and then another one. -/
theorem Edited.trans (hd : d.Whole) (t : Edited changed none d e) (t' : Edited changed' lost e e') :
    Edited (changed ++ changed') lost d e' where
  toKeeps := t.toKeeps.trans t'.toKeeps
  whole := t'.whole
  isLive id h := by
    have he : e.isLive id = true := (t.isLive id h).mpr (by simp)
    rw [t'.isLive id he, t.ancestors id (hd.lt_of_isLive h) he]

/-! ### The edits -/

/-- What a graft of new nodes does, whose place is given by what it does to the order. -/
theorem edited_of_graft {new grafted : Forest (NodeId × Node)} {next : NodeId} (hd : d.Whole)
    {l₁ l₂ : List (NodeId × Node)} (hl : d.trees.toList = l₁ ++ l₂)
    (hg : grafted.toList = l₁ ++ new.toList ++ l₂)
    (hr : ∃ node below, grafted = .single (root, node) below)
    (ha : ∀ id, id ∉ new.numbers → grafted.above? (isNode id) = d.trees.above? (isNode id))
    (hnew : new.numbers = List.range' d.next new.toList.length)
    (hnext : next = d.next + new.toList.length) :
    Edited [] none d ⟨grafted, next⟩ := by
  have hfresh : ∀ id, id ∈ new.numbers ↔ d.next ≤ id ∧ id < next := by
    simp [hnew, hnext, List.mem_range'_1]
  have hperm : grafted.toList.Perm (new.toList ++ d.trees.toList) := by
    rw [hg, hl, ← List.append_assoc]
    exact List.perm_append_comm.append_right _
  have hids : grafted.numbers.Perm (new.numbers ++ d.trees.numbers) := by
    simpa [numbers] using hperm.map Prod.fst
  have hmem : ∀ id, id ∈ grafted.numbers ↔ id ∈ new.numbers ∨ id ∈ d.trees.numbers := by
    simp [hids.mem_iff]
  have hold : ∀ id < d.next, id ∉ new.numbers := by
    intro id hi hm
    exact Nat.not_lt_of_le ((hfresh id).mp hm).1 hi
  have hnodup : grafted.numbers.Nodup := by
    rw [hids.nodup_iff, List.nodup_append]
    refine ⟨hnew ▸ List.nodup_range', hd.nodup, fun a hm b hb hab => ?_⟩
    exact hold b (hd.lt_next b hb) (hab ▸ hm)
  refine ⟨⟨?_, ?_, ?_, ?_⟩, ⟨hr, hnodup, ?_⟩, ?_⟩
  · rw [hnext]; exact Nat.le_add_right _ _
  · have hnone : new.numbers.filter (· < d.next) = [] :=
      List.filter_eq_nil_iff.mpr fun id hm h => hold id (by simpa using h) hm
    have hf : grafted.numbers.filter (· < d.next) = d.trees.numbers.filter (· < d.next) := by
      have hg' := congrArg (fun l => (l.map Prod.fst).filter (· < d.next)) hg
      have hl' := congrArg (fun l => (l.map Prod.fst).filter (· < d.next)) hl
      simp only [List.map_append, List.filter_append] at hg' hl'
      rw [numbers, hg', numbers, hl']
      simp only [numbers] at hnone
      rw [hnone, List.append_nil]
    rw [hf]
    exact List.filter_sublist
  · intro id hi _
    simp only [ancestors, ha id (hold id hi)]
  · intro id hi _ _
    have hnone : new.toList.find? (isNode id) = none := by
      refine List.find?_eq_none.mpr fun a hm h => ?_
      exact hold id hi (isNode_iff.mp h ▸ List.mem_map_of_mem hm)
    rw [node?_eq, node?_eq, hg, hl]
    simp only [List.find?_append, hnone, Option.or_none]
  · intro id hm
    rcases (hmem id).mp hm with h | h
    · exact ((hfresh id).mp h).2
    · exact Nat.lt_of_lt_of_le (hd.lt_next id h) (hnext ▸ Nat.le_add_right _ _)
  · intro id h
    simp [isLive_iff, hmem, isLive_iff.mp h]

theorem ne_root_of_parent (hd : d.Whole) {parent : NodeId} (h : d.parent? id = some parent) :
    id ≠ root := by
  rintro rfl
  obtain ⟨node, below, ht⟩ := hd.rooted
  have ha : d.trees.above? (isNode root) = some [] := by
    rw [ht, single, above?_cons_of_eq (a := (root, node)) rfl]
  simp [parent?, ancestors_eq ha] at h

theorem exists_of_bind_eq_ok {α β ε : Type} {x : Except ε α} {f : α → Except ε β} {b : β}
    (h : x >>= f = .ok b) : ∃ a, x = .ok a ∧ f a = .ok b := by
  cases x with
  | error e => cases h
  | ok a => exact ⟨a, rfl, h⟩

theorem checkAnchor_ok (h : d.checkAnchor anchor = .ok ()) :
    d.isLive anchor = true ∧ ∃ parent, d.parent? anchor = some parent := by
  unfold checkAnchor checkLive at h
  split at h
  case isTrue hl =>
    refine ⟨hl, ?_⟩
    cases hp : d.parent? anchor with
    | none => simp [hp, bind, Except.bind] at h
    | some parent => exact ⟨parent, rfl⟩
  case isFalse => simp [bind, Except.bind] at h

variable {new : Forest Node}

/-- Makes new nodes and puts them in among the trees, if there are any to make. -/
def insertNew (insert : Forest (NodeId × Node) → Forest (NodeId × Node) → Forest (NodeId × Node))
    (d : Document) (anchor : NodeId) (new : Forest Node) : Except TreeError Document := do
  if new = .nil then return d
  d.checkAnchor anchor
  let (new, next) := new.number d.next
  return ⟨insert new d.trees, next⟩

theorem insertNew_ok
    {insert : Forest (NodeId × Node) → Forest (NodeId × Node) → Forest (NodeId × Node)}
    (h : insertNew insert d anchor new = .ok e) :
    (new = .nil ∧ e = d) ∨
      (d.isLive anchor = true ∧ ∃ parent, d.parent? anchor = some parent) ∧
        e = ⟨insert (new.number d.next).1 d.trees, (new.number d.next).2⟩ := by
  unfold insertNew at h
  split at h
  case isTrue hn => cases h; exact .inl ⟨hn, rfl⟩
  case isFalse =>
    obtain ⟨_, ha, h⟩ := exists_of_bind_eq_ok h
    cases h
    exact .inr ⟨checkAnchor_ok ha, rfl⟩

theorem insertNewAfter_ok (h : d.insertNewAfter anchor new = .ok e) :
    (new = .nil ∧ e = d) ∨
      (d.isLive anchor = true ∧ ∃ parent, d.parent? anchor = some parent) ∧
        e = ⟨Forest.insertAfter (isNode anchor) (new.number d.next).1 d.trees,
          (new.number d.next).2⟩ :=
  insertNew_ok h

theorem trees_insertNewAfter (h : d.insertNewAfter anchor new = .ok e) :
    e.trees = Forest.insertAfter (isNode anchor) (new.number d.next).1 d.trees := by
  rcases insertNewAfter_ok h with ⟨rfl, rfl⟩ | ⟨-, rfl⟩
  · exact (insertAfter_nil _ _).symm
  · rfl

theorem insertNewBefore_ok (h : d.insertNewBefore anchor new = .ok e) :
    (new = .nil ∧ e = d) ∨
      (d.isLive anchor = true ∧ ∃ parent, d.parent? anchor = some parent) ∧
        e = ⟨Forest.insertBefore (isNode anchor) (new.number d.next).1 d.trees,
          (new.number d.next).2⟩ :=
  insertNew_ok h

theorem numbers_number (new : Forest Node) (next : NodeId) :
    (new.number next).1.numbers = List.range' next (new.number next).1.toList.length ∧
      (new.number next).2 = next + (new.number next).1.toList.length := by
  have hl : (new.number next).1.toList.length = new.toList.length := by
    rw [← List.length_map (f := Prod.snd), ← toList_map, map_snd_number]
  rw [hl]
  exact toList_number next new

theorem snd_mem_of_mem_number {next : NodeId} {a : NodeId × Node}
    (h : a ∈ (new.number next).1.toList) : a.2 ∈ new.toList := by
  rw [← map_snd_number next new, toList_map]
  exact List.mem_map_of_mem h

/-- What is there after an edit was there before, or is one of the nodes that the edit makes. -/
theorem mem_or_mem_of_insertNewAfter {a : NodeId × Node} (h : d.insertNewAfter anchor new = .ok e)
    (ha : a ∈ e.trees.toList) : a ∈ d.trees.toList ∨ a.2 ∈ new.toList := by
  rcases insertNewAfter_ok h with ⟨-, rfl⟩ | ⟨-, rfl⟩
  · exact .inl ha
  · exact (mem_insertAfter ha).imp_right snd_mem_of_mem_number

theorem mem_or_mem_of_insertNewBefore {a : NodeId × Node}
    (h : d.insertNewBefore anchor new = .ok e) (ha : a ∈ e.trees.toList) :
    a ∈ d.trees.toList ∨ a.2 ∈ new.toList := by
  rcases insertNewBefore_ok h with ⟨-, rfl⟩ | ⟨-, rfl⟩
  · exact .inl ha
  · exact (mem_insertBefore ha).imp_right snd_mem_of_mem_number

theorem not_mem_of_isLive_eq_false {a : NodeId × Node} (h : d.isLive a.1 = false) :
    a ∉ d.trees.toList := fun ha => by
  rw [isLive_of_mem ha] at h
  cases h

theorem mem_of_insertNewAfter {a : NodeId × Node} (h : d.insertNewAfter anchor new = .ok e)
    (ha : a ∈ e.trees.toList) (hl : d.isLive a.1 = false) : a.2 ∈ new.toList :=
  (mem_or_mem_of_insertNewAfter h ha).resolve_left (not_mem_of_isLive_eq_false hl)

theorem mem_of_insertNewBefore {a : NodeId × Node} (h : d.insertNewBefore anchor new = .ok e)
    (ha : a ∈ e.trees.toList) (hl : d.isLive a.1 = false) : a.2 ∈ new.toList :=
  (mem_or_mem_of_insertNewBefore h ha).resolve_left (not_mem_of_isLive_eq_false hl)

theorem pair_sublist {α : Type*} {a b : α} {l₁ l₂ l₃ : List α} (ha : a ∈ l₁) (hb : b ∈ l₂) :
    [a, b].Sublist (l₁ ++ l₂ ++ l₃) :=
  (List.Sublist.append (List.singleton_sublist.mpr ha) (List.singleton_sublist.mpr hb)).trans
    (List.sublist_append_left _ _)

/-- A new node comes later than those before the place where it is put. -/
theorem pair_of_graft {new grafted : Forest (NodeId × Node)} {next b y : NodeId}
    {l₁ l₂ : List (NodeId × Node)} (hw : Whole ⟨grafted, next⟩) (ho : d.trees.toList = l₁ ++ l₂)
    (hg : grafted.toList = l₁ ++ new.toList ++ l₂) (hb : b ∈ l₁.map Prod.fst)
    (hy : isLive ⟨grafted, next⟩ y = true) (hn : d.isLive y = false) :
    [b, y].Sublist (nodes ⟨grafted, next⟩) := by
  rw [hw.nodes_eq]
  rw [isLive_iff] at hy
  rw [Bool.eq_false_iff, Ne, isLive_iff] at hn
  simp only [numbers, hg, ho, List.map_append, List.mem_append] at hy hn ⊢
  exact pair_sublist hb (by tauto)

/-- Trees that are put together anew below the root are still below it. -/
theorem rooted_graft {put : NodeId × Node → Forest (NodeId × Node) → Forest (NodeId × Node) →
      Forest (NodeId × Node)} {parent : NodeId} (hd : d.Whole) (hp : d.parent? anchor = some parent) :
    ∃ node below, graft (isNode anchor) put d.trees = .single (root, node) below := by
  obtain ⟨node, below, ht⟩ := hd.rooted
  refine ⟨node, graft (isNode anchor) put below, ?_⟩
  rw [ht, single, graft_cons_of_ne (Ne.symm (ne_root_of_parent hd hp)), graft, single]

/-- The new nodes come later than the one they are put behind. -/
theorem Whole.insertNewAfter (hd : d.Whole) (h : d.insertNewAfter anchor new = .ok e) :
    Edited [] none d e ∧
      ∀ y, e.isLive y = true → d.isLive y = false → [anchor, y].Sublist e.nodes := by
  rcases insertNewAfter_ok h with ⟨-, rfl⟩ | ⟨⟨hl, parent, hp⟩, rfl⟩
  · exact ⟨.refl hd, fun y hy hn => by simp [hy] at hn⟩
  · obtain ⟨l₁, l₂, ho, hm, hg⟩ :=
      toList_insertAfter (new.number d.next).1 hd.nodup (isLive_iff.mp hl)
    obtain ⟨hnew, hnext⟩ := numbers_number new d.next
    have he := edited_of_graft hd ho hg (insertAfter_eq_graft _ _ d.trees ▸ rooted_graft hd hp)
      (fun _ => above?_insertAfter) hnew hnext
    exact ⟨he, fun y => pair_of_graft he.whole ho hg hm⟩

/-- The new nodes come later than those above the one they are put before. -/
theorem Whole.insertNewBefore (hd : d.Whole) (h : d.insertNewBefore anchor new = .ok e) :
    Edited [] none d e ∧ ∀ y, e.isLive y = true → d.isLive y = false →
      ∀ a ∈ d.ancestors anchor, [a, y].Sublist e.nodes := by
  rcases insertNewBefore_ok h with ⟨-, rfl⟩ | ⟨⟨hl, parent, hp⟩, rfl⟩
  · exact ⟨.refl hd, fun y hy hn => by simp [hy] at hn⟩
  · obtain ⟨as, has⟩ := isLive_iff_above.mp hl
    obtain ⟨l₁, l₂, ho, hm, hg⟩ :=
      toList_insertBefore (new.number d.next).1 hd.nodup has
    obtain ⟨hnew, hnext⟩ := numbers_number new d.next
    have he := edited_of_graft hd ho hg (insertBefore_eq_graft _ _ d.trees ▸ rooted_graft hd hp)
      (fun _ => above?_insertBefore) hnew hnext
    refine ⟨he, fun y hy hn a ha => pair_of_graft he.whole ho hg ?_ hy hn⟩
    exact List.map_subset _ hm (ancestors_eq has ▸ ha)

theorem edited_of_modify (id : NodeId) (hd : d.Whole) {g : NodeId × Node → NodeId × Node}
    (hg : ∀ a, (g a).1 = a.1) :
    Edited [id] none d { d with trees := d.trees.modify (isNode id) g } ∧
      (d.trees.modify (isNode id) g).numbers = d.trees.numbers := by
  have hids := numbers_modify (f := d.trees) (isNode id) hg
  have hn : (d.trees.modify (isNode id) g).numbers.Nodup := hids ▸ hd.nodup
  refine ⟨⟨⟨Nat.le_refl _, ?_, ?_, ?_⟩, ⟨?_, hn, fun y hy => hd.lt_next y (hids ▸ hy)⟩, ?_⟩, hids⟩
  · rw [hids]; exact List.filter_sublist
  · intro y _ _
    have h := above?_modify (f := d.trees) (isNode id) y hg
    cases h₁ : d.trees.above? (isNode y) <;>
      cases h₂ : (d.trees.modify (isNode id) g).above? (isNode y) <;>
      simp_all [ancestors]
  · intro y _ hy _
    ext n
    rw [List.mem_singleton] at hy
    rw [node?_eq_some_iff hn, node?_eq_some_iff hd.nodup, toList_modify, List.mem_map]
    constructor
    · rintro ⟨a, hm, ha⟩
      split at ha
      case isTrue hi => exact absurd (by rw [← isNode_iff.mp hi, ← hg a, ha]) hy
      case isFalse => exact ha ▸ hm
    · intro hm
      refine ⟨_, hm, if_neg ?_⟩
      simpa [isNode] using hy
  · obtain ⟨node, below, ht⟩ := hd.rooted
    let top := if isNode id (root, node) then g (root, node) else (root, node)
    have hr : top.1 = root := by
      simp only [top]
      split
      · exact hg _
      · rfl
    refine ⟨top.2, below.modify (isNode id) g, ?_⟩
    show d.trees.modify (isNode id) g = _
    rw [ht, single, Forest.modify, single, show (root, top.2) = top from Prod.ext hr.symm rfl]
    rfl
  · intro y hy
    simp [isLive_iff, hids, isLive_iff.mp hy]

theorem setKind_ok {kind : Kind} (h : d.setKind id kind = .ok e) :
    d.isLive id = true ∧
      e = { d with
        trees := d.trees.modify (isNode id) fun (id, node) => (id, { node with kind }) } := by
  unfold Document.setKind at h
  split at h
  case isTrue => cases h
  case isFalse hl => cases h; exact ⟨by simpa using hl, rfl⟩

theorem Whole.setKind (hd : d.Whole) {kind : Kind} (h : d.setKind id kind = .ok e) :
    Edited [id] none d e ∧ ∀ y, e.isLive y = true → d.isLive y = true := by
  obtain ⟨-, rfl⟩ := setKind_ok h
  obtain ⟨he, hids⟩ := edited_of_modify id hd
    (g := fun (i, node) => (i, Node.mk kind node.line)) fun _ => rfl
  refine ⟨he, fun y hy => ?_⟩
  rw [isLive_iff] at hy ⊢
  exact hids ▸ hy

theorem node?_setKind {kind : Kind} (h : d.setKind id kind = .ok e) :
    e.node? id = (d.node? id).map fun n => { n with kind } := by
  obtain ⟨-, rfl⟩ := setKind_ok h
  rw [node?_eq, node?_eq, toList_modify, List.find?_map, Option.map_map, Option.map_map]
  have hp : (isNode id ∘ fun a : NodeId × Node =>
      if isNode id a then (a.1, Node.mk kind a.2.line) else a) = isNode id := by
    funext a
    simp only [Function.comp_apply]
    split
    case isTrue ha => exact ha.symm ▸ ha
    case isFalse => rfl
  show (d.trees.toList.find? (isNode id ∘ _)).map _ = _
  rw [hp]
  cases hf : d.trees.toList.find? (isNode id) with
  | none => rfl
  | some a => simp [List.find?_some hf]

theorem Whole.setValue (hd : d.Whole) {value : String} (h : d.setValue id value = .ok e) :
    Edited [id] none d e ∧ ∀ y, e.isLive y = true → d.isLive y = true := by
  unfold Document.setValue at h
  split at h
  · cases h
  · exact hd.setKind h
  · cases h
    exact ⟨⟨⟨Nat.le_refl _, (Keeps.refl d).order, fun _ _ _ => rfl, fun _ _ _ _ => rfl⟩, hd,
      fun _ h => by simp [h]⟩, fun _ h => h⟩

/-- A cut below the root loses just the node and those below it. -/
theorem Whole.cut (hd : d.Whole) (hx : x ≠ root) :
    Edited [] (some x) d { d with trees := d.without x } := by
  have hs : (d.without x).numbers.Sublist d.trees.numbers := numbers_erase_sublist _ _
  have hn : (d.without x).numbers.Nodup := hs.nodup hd.nodup
  have hkeep : ∀ y ∈ (d.without x).numbers, ∃ as, d.trees.above? (isNode y) = some as ∧
      (d.without x).above? (isNode y) = some as ∧ ¬(x = y ∨ x ∈ as.map Prod.fst) := by
    intro y hy
    obtain ⟨as, ha⟩ := isLive_iff_above.mp (isLive_iff.mpr (hs.subset hy))
    have hc := above?_erase (x := x) hd.nodup ha
    split at hc
    case isTrue => exact absurd hy (above?_eq_none.mp hc)
    case isFalse h => exact ⟨as, ha, hc, h⟩
  refine ⟨⟨Nat.le_refl _, List.filter_sublist.trans hs, ?_, ?_⟩,
    ⟨?_, hn, fun y hy => hd.lt_next y (hs.subset hy)⟩, ?_⟩
  · intro y _ hy
    obtain ⟨as, ha, hc, -⟩ := hkeep y (isLive_iff.mp hy)
    rw [ancestors_eq ha, ancestors_eq hc]
  · intro y _ _ hy
    obtain ⟨n, hy⟩ := isLive_iff_node.mp hy
    rw [hy, eq_comm, node?_eq_some_iff hd.nodup]
    exact (toList_erase_sublist _ _).subset ((node?_eq_some_iff hn).mp hy)
  · obtain ⟨node, below, ht⟩ := hd.rooted
    exact ⟨node, below.erase (isNode x), by
      rw [without, ht, single, erase_cons_of_ne (Ne.symm hx), erase, single]⟩
  · intro y hy
    obtain ⟨as, ha⟩ := isLive_iff_above.mp hy
    have hc := above?_erase (x := x) hd.nodup ha
    have hl : (∀ z ∈ some x, z ≠ y ∧ z ∉ as.map Prod.fst) ↔
        ¬(x = y ∨ x ∈ as.map Prod.fst) := by
      rw [not_or]
      exact ⟨fun h => h x rfl, by rintro h _ ⟨⟩; exact h⟩
    rw [isLive_iff, ancestors_eq ha, hl]
    show y ∈ (d.trees.erase (isNode x)).numbers ↔ _
    rw [mem_numbers_iff_above, hc]
    by_cases hxy : x = y ∨ x ∈ as.map Prod.fst
    · simp only [hxy, ↓reduceIte, Option.isSome_none, Bool.false_eq_true, not_true]
    · simp only [hxy, ↓reduceIte, Option.isSome_some, not_false_eq_true]

theorem remove_ok (h : d.remove x = .ok e) :
    x ≠ root ∧ d.isLive x = true ∧ e = { d with trees := d.without x } := by
  by_cases hx : x = root
  · simp [Document.remove, hx, bind, Except.bind] at h
  · cases hl : d.isLive x with
    | false => simp [Document.remove, checkLive, hx, hl, bind, Except.bind] at h
    | true =>
      simp only [Document.remove, checkLive, hx, hl, bind, Except.bind, pure, Except.pure,
        ↓reduceIte, Except.ok.injEq] at h
      exact ⟨hx, rfl, h.symm⟩

theorem remove_eq_ok (hx : x ≠ root) (h : d.isLive x = true) :
    d.remove x = .ok { d with trees := d.without x } := by
  simp [remove, checkLive, hx, h, bind, Except.bind, pure, Except.pure]

theorem Whole.remove (hd : d.Whole) (h : d.remove x = .ok e) :
    Edited [] (some x) d e ∧ ∀ y, e.isLive y = true → d.isLive y = true := by
  obtain ⟨hx, -, rfl⟩ := remove_ok h
  refine ⟨hd.cut hx, fun y hy => ?_⟩
  rw [isLive_iff] at hy ⊢
  exact (numbers_erase_sublist _ _).subset hy

theorem replaceWithNew_ok {node : Node} (h : d.replaceWithNew x node = .ok e) :
    x ≠ root ∧ ∃ d', d.insertNewBefore x (.single node .nil) = .ok d' ∧
      e = { d' with trees := d'.without x } := by
  unfold Document.replaceWithNew at h
  split at h
  · cases h
  case isFalse hx =>
    obtain ⟨d', hi, h⟩ := exists_of_bind_eq_ok h
    cases h
    exact ⟨hx, d', hi, rfl⟩

theorem mem_or_eq_of_replaceWithNew {node : Node} {a : NodeId × Node}
    (h : d.replaceWithNew x node = .ok e) (ha : a ∈ e.trees.toList) :
    a ∈ d.trees.toList ∨ a.2 = node := by
  obtain ⟨-, d', hi, rfl⟩ := replaceWithNew_ok h
  exact (mem_or_mem_of_insertNewBefore hi ((toList_erase_sublist _ _).subset ha)).imp_right
    List.mem_singleton.mp

theorem eq_of_replaceWithNew {node : Node} {a : NodeId × Node}
    (h : d.replaceWithNew x node = .ok e) (ha : a ∈ e.trees.toList) (hl : d.isLive a.1 = false) :
    a.2 = node :=
  (mem_or_eq_of_replaceWithNew h ha).resolve_left (not_mem_of_isLive_eq_false hl)

/-- The new node comes later than those above the one it replaces. -/
theorem Whole.replaceWithNew (hd : d.Whole) {node : Node} (h : d.replaceWithNew x node = .ok e) :
    Edited [] (some x) d e ∧ ∀ y, e.isLive y = true → d.isLive y = false →
      ∀ a ∈ d.ancestors x, [a, y].Sublist e.nodes := by
  obtain ⟨hx, d', hi, he⟩ := replaceWithNew_ok h
  obtain ⟨h₁, hnew⟩ := hd.insertNewBefore hi
  have h₂ := h₁.whole.cut hx
  rw [← he] at h₂
  have ht := Edited.trans hd h₁ h₂
  refine ⟨ht, fun y hy hn a ha => ?_⟩
  have hy' : d'.isLive y = true := by
    rw [isLive_iff, he] at hy
    exact isLive_iff.mpr ((numbers_erase_sublist _ _).subset hy)
  have hal : e.isLive a = true := by
    refine (ht.isLive a (isLive_of_mem_ancestors ha)).mpr ?_
    rintro _ ⟨⟩
    exact hd.not_above ha
  exact h₂.pair h₁.whole hal hy (hnew y hy' hn a ha)

/-! ### Font sizes -/

variable {value : String}

theorem exists_of_fontSize? (h : d.fontSize? id = some value) : ∃ n property important,
    d.node? id = some n ∧ n.kind = .declaration property value important ∧
      Text.eqIgnoringCase property.toList "font-size".toList = true := by
  obtain ⟨n, hn, hv⟩ := Option.bind_eq_some_iff.mp h
  cases hk : n.kind with
  | declaration property old important =>
    simp only [hk, Sizing.fontSizeOf?, Option.ite_none_right_eq_some, Option.some.injEq] at hv
    obtain ⟨hp, rfl⟩ := hv
    exact ⟨n, property, important, hn, hk, hp⟩
  | _ => simp [hk, Sizing.fontSizeOf?] at hv

theorem isLive_of_fontSize? (h : d.fontSize? id = some value) : d.isLive id = true := by
  obtain ⟨n, -, -, hn, -⟩ := exists_of_fontSize? h
  exact isLive_iff_node.mpr ⟨n, hn⟩

theorem fontSize?_setValue {old value : String} (hv : d.fontSize? id = some old)
    (h : d.setValue id value = .ok e) : e.fontSize? id = some value := by
  obtain ⟨n, property, important, hn, hk, hp⟩ := exists_of_fontSize? hv
  rw [setValue, kind_of_node? hn, hk] at h
  rw [fontSize?, node?_setKind h, hn]
  exact if_pos hp

theorem fontSize?_of_edited {lost : Option NodeId} (hd : d.Whole) (t : Edited [] lost d e)
    (hl : e.isLive id = true) (hv : d.fontSize? id = some value) :
    e.fontSize? id = some value := by
  have hlt := hd.lt_of_isLive (isLive_of_fontSize? hv)
  rw [fontSize?, t.node id hlt List.not_mem_nil hl]
  exact hv

end ModularScale.Document
