import ModularScale.Proofs.Document.Edits
import Mathlib.Logic.Relation

/-! # What the root leads to

Edits may put the root below another node. The nodes that it leads to stay the same by this, but
none of them counts as attached any more.
-/

namespace ModularScale.Document

open Forest

variable {d e : Document} {id a x : NodeId}

/-! ### Documents whose root is anywhere -/

/-- All nodes have different numbers, which have been given out. -/
structure Numbered (d : Document) : Prop where
  nodup : d.trees.numbers.Nodup
  lt_next : ∀ id ∈ d.trees.numbers, id < d.next

theorem Rooted.numbered (hd : d.Rooted) : d.Numbered :=
  ⟨hd.nodup, hd.lt_next⟩

namespace Numbered

variable {anchor parent : NodeId}

theorem next_notMem (hd : d.Numbered) : d.next ∉ d.trees.numbers := fun h =>
  Nat.lt_irrefl _ (hd.lt_next _ h)

theorem cut (hd : d.Numbered) (x : NodeId) : Numbered { d with trees := d.without x } where
  nodup := (numbers_erase_sublist _ _).nodup hd.nodup
  lt_next id h := hd.lt_next id ((numbers_erase_sublist _ _).subset h)

/-- A node, which may be the root, is taken out with all below it and put back elsewhere; a place
that is gone by then takes the node with it. -/
theorem move {grafted : Forest (NodeId × Node)} (hd : d.Numbered)
    (hg : anchor ∈ (d.without x).numbers → Grafted (d.subtree x) (d.without x) grafted)
    (hn : anchor ∉ (d.without x).numbers → grafted = d.without x) :
    Numbered { d with trees := grafted } := by
  by_cases h : anchor ∈ (d.without x).numbers
  · have hp := (perm_subtree hd.nodup x).trans (hg h).perm.symm
    exact ⟨hp.nodup_iff.mp hd.nodup, fun id hid => hd.lt_next id (hp.mem_iff.mpr hid)⟩
  · rw [hn h]
    exact hd.cut x

theorem append (hd : d.Numbered) (h : d.append parent id = .ok e) : e.Numbered := by
  rw [append_ok h]
  exact hd.move (grafted_appendTo (hd.cut id).nodup) appendTo_of_notMem

theorem insertBefore (hd : d.Numbered) (h : d.insertBefore anchor id = .ok e) : e.Numbered := by
  rw [insertBefore_ok h]
  exact hd.move (grafted_insertBefore (hd.cut id).nodup) insertBefore_of_notMem

theorem insertAfter (hd : d.Numbered) (h : d.insertAfter anchor id = .ok e) : e.Numbered := by
  rw [insertAfter_ok h]
  exact hd.move (grafted_insertAfter (hd.cut id).nodup) insertAfter_of_notMem

theorem create (hd : d.Numbered) (node : Node) : (d.create node).2.Numbered := by
  have hids : (d.create node).2.trees.numbers = d.trees.numbers ++ [d.next] := by
    simp [Document.create, single]
  constructor
  · rw [hids, List.nodup_append]
    refine ⟨hd.nodup, List.nodup_singleton _, ?_⟩
    rintro y hy _ hz rfl
    exact Nat.ne_of_lt (hd.lt_next y hy) (List.mem_singleton.mp hz)
  · intro y hy
    rw [hids, List.mem_append, List.mem_singleton] at hy
    rcases hy with hy | rfl
    · exact Nat.lt_succ_of_lt (hd.lt_next y hy)
    · exact Nat.lt_succ_self _

theorem setKind {kind : Kind} (hd : d.Numbered) (h : d.setKind id kind = .ok e) :
    e.Numbered := by
  obtain ⟨-, rfl⟩ := setKind_ok h
  have hids := numbers_modify (f := d.trees) (isNode id)
    (g := fun a => (a.1, Node.mk kind a.2.line)) fun _ => rfl
  exact ⟨hids ▸ hd.nodup, fun y hy => hd.lt_next y (hids ▸ hy)⟩

/-- Each edit keeps the numbers apart, whatever it moves. -/
theorem perform (hd : d.Numbered) (edit : Edit) : (edit.perform d).Numbered := by
  unfold Edit.perform
  split
  case h_1 e h =>
    cases edit with
    | create node => cases h; exact hd.create node
    | setKind id kind => exact hd.setKind h
    | append parent child => exact hd.append h
    | insertBefore anchor id => exact hd.insertBefore h
    | insertAfter anchor id => exact hd.insertAfter h
    | remove id =>
      obtain ⟨-, -, rfl⟩ := remove_ok h
      exact hd.cut id
    | replace old new =>
      obtain ⟨-, d', hd', rfl⟩ := replace_ok h
      exact (hd.insertBefore hd').cut old
    | addChild parent kind =>
      obtain ⟨id, hc⟩ := Edit.exists_addChild h
      exact (hd.create _).append (addChild_ok hc).2
  case h_2 =>
    cases edit with
    | addChild parent kind => exact hd.create _
    | _ => exact hd

theorem foldl_perform (hd : d.Numbered) (edits : List Edit) :
    (edits.foldl Edit.perform d).Numbered := by
  induction edits generalizing d with
  | nil => exact hd
  | cons edit edits ih => exact ih (hd.perform edit)

end Numbered

theorem next_le_perform (d : Document) (edit : Edit) : d.next ≤ (edit.perform d).next := by
  unfold Edit.perform
  split
  case h_1 e h =>
    cases edit with
    | create node => cases h; exact Nat.le_succ _
    | setKind id kind => obtain ⟨-, rfl⟩ := setKind_ok h; exact Nat.le_refl _
    | append parent child => exact Nat.le_of_eq (congrArg Document.next (append_ok h)).symm
    | insertBefore anchor id =>
      exact Nat.le_of_eq (congrArg Document.next (insertBefore_ok h)).symm
    | insertAfter anchor id => exact Nat.le_of_eq (congrArg Document.next (insertAfter_ok h)).symm
    | remove id => obtain ⟨-, -, rfl⟩ := remove_ok h; exact Nat.le_refl _
    | replace old new =>
      obtain ⟨-, d', hd', rfl⟩ := replace_ok h
      exact Nat.le_of_eq (congrArg Document.next (insertBefore_ok hd')).symm
    | addChild parent kind =>
      obtain ⟨id, hc⟩ := Edit.exists_addChild h
      rw [append_ok (addChild_ok hc).2]
      exact Nat.le_succ _
  case h_2 =>
    cases edit with
    | addChild parent kind => exact Nat.le_succ _
    | _ => exact Nat.le_refl _

theorem next_le_foldl_perform (d : Document) (edits : List Edit) :
    d.next ≤ (edits.foldl Edit.perform d).next := by
  induction edits generalizing d with
  | nil => exact Nat.le_refl _
  | cons edit edits ih => exact Nat.le_trans (next_le_perform d edit) (ih (edit.perform d))

/-! ### Ways down -/

/-- A node is another one or is found below it from child to child. -/
def Reaches (d : Document) : NodeId → NodeId → Prop :=
  Relation.ReflTransGen fun parent child => child ∈ d.children parent

/-- The ways down from a node are the ways up to it. -/
theorem reaches_iff (hn : d.trees.numbers.Nodup) :
    d.Reaches a x ↔ x = a ∨ a ∈ d.ancestors x := by
  constructor
  · intro h
    induction h with
    | refl => exact .inl rfl
    | tail _ hc ih =>
      rw [ancestors_of_parent hn ((mem_children_iff hn).mp hc), List.mem_cons]
      exact .inr (ih.imp_left Eq.symm)
  · generalize has : d.ancestors x = as
    intro h
    induction as generalizing x with
    | nil =>
      obtain rfl := h.resolve_right List.not_mem_nil
      exact .refl
    | cons p as ih =>
      have hp : d.parent? x = some p := by rw [parent?, has]; rfl
      have hc := (mem_children_iff hn).mpr hp
      rw [ancestors_of_parent hn hp, List.cons.injEq] at has
      rcases h with rfl | h
      · exact .refl
      · exact .tail (ih has.2 ((List.mem_cons.mp h).imp_left Eq.symm)) hc

/-- The nodes from the root on are those that the root leads to. -/
theorem mem_nodes_iff (hn : d.trees.numbers.Nodup) (hr : d.isLive root = true) :
    x ∈ d.nodes ↔ d.Reaches root x := by
  have hp := perm_subtree hn root
  have hdisj := (List.nodup_append.mp (hp.nodup_iff.mp hn)).2.2
  have hcut : x ∈ d.nodes ↔ d.isLive x = true ∧ x ∉ (d.without root).numbers := by
    rw [isLive_iff, hp.mem_iff, List.mem_append]
    constructor
    · exact fun h => ⟨.inl h, fun h' => hdisj x h x h' rfl⟩
    · rintro ⟨h | h, h'⟩
      · exact h
      · exact absurd h h'
  rw [hcut, reaches_iff hn]
  constructor
  · rintro ⟨hl, hx⟩
    obtain ⟨as, has⟩ := isLive_iff_above.mp hl
    have h := above?_erase (x := root) hn has
    rw [show (d.trees.erase (isNode root)).above? (isNode x) = none from above?_eq_none.mpr hx] at h
    split at h
    case isTrue hroot => exact ancestors_eq has ▸ hroot.imp_left Eq.symm
    case isFalse => cases h
  · intro h
    have hl : d.isLive x = true := by
      rcases h with rfl | h
      · exact hr
      · exact isLive_of_ancestor h
    obtain ⟨as, has⟩ := isLive_iff_above.mp hl
    refine ⟨hl, above?_eq_none.mp ?_⟩
    have herase := above?_erase (x := root) hn has
    rwa [if_pos (ancestors_eq has ▸ h.imp_left Eq.symm)] at herase

/-! ### Ways up -/

/-- The topmost node above another has none above it. -/
theorem getLast?_ancestors_iff (hn : d.trees.numbers.Nodup) :
    (d.ancestors x).getLast? = some a ↔ a ∈ d.ancestors x ∧ d.parent? a = none := by
  generalize has : d.ancestors x = as
  induction as generalizing x with
  | nil => simp
  | cons p as ih =>
    have hp : d.parent? x = some p := by rw [parent?, has]; rfl
    rw [ancestors_of_parent hn hp, List.cons.injEq] at has
    have hi := ih has.2
    cases as with
    | nil =>
      have hnone : d.parent? p = none := by rw [parent?, has.2]; rfl
      simp only [List.getLast?_singleton, Option.some.injEq, List.mem_singleton]
      constructor
      · rintro rfl; exact ⟨rfl, hnone⟩
      · exact fun h => h.1.symm
    | cons q as =>
      have hq : d.parent? p = some q := by rw [parent?, has.2]; rfl
      rw [List.getLast?_cons_cons, hi, List.mem_cons (a := a) (b := p)]
      refine and_congr_left fun hnone => (or_iff_right ?_).symm
      rintro rfl
      rw [hq] at hnone
      cases hnone

/-- A node is attached if the root leads to it and has itself no parent. -/
theorem isAttached_iff (hn : d.trees.numbers.Nodup) (hl : d.isLive x = true) :
    d.isAttached x = true ↔ d.Reaches root x ∧ d.parent? root = none := by
  rw [isAttached, hl, Bool.true_and, beq_iff_eq, reaches_iff hn]
  cases hlast : (d.ancestors x).getLast? with
  | none =>
    have hnil := List.getLast?_eq_none_iff.mp hlast
    rw [hnil, Option.getD_none]
    constructor
    · rintro rfl
      exact ⟨.inl rfl, by rw [parent?, hnil]; rfl⟩
    · exact fun h => h.1.resolve_right List.not_mem_nil
  | some top =>
    have htop := (getLast?_ancestors_iff hn).mp hlast
    rw [Option.getD_some]
    constructor
    · rintro rfl
      exact ⟨.inr htop.1, htop.2⟩
    · rintro ⟨rfl | hm, hroot⟩
      · rw [ancestors_of_parent_eq_none hroot] at hlast
        cases hlast
      · rw [(getLast?_ancestors_iff hn).mpr ⟨hm, hroot⟩] at hlast
        exact (Option.some.inj hlast).symm

/-- Without a parent the root is a topmost node. -/
theorem Numbered.rooted (hd : d.Numbered) (hr : d.isLive root = true)
    (h : d.parent? root = none) : d.Rooted where
  nodup := hd.nodup
  lt_next := hd.lt_next
  top := by
    obtain ⟨as, has⟩ := isLive_iff_above.mp hr
    have hnil := ancestors_of_parent_eq_none h
    rw [ancestors_eq has, List.map_eq_nil_iff] at hnil
    rw [has, hnil]

end ModularScale.Document
