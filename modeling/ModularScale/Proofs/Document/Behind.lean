import ModularScale.Proofs.Document.Keeping

/-! # What is put behind a node

New nodes that are put behind a node come right after all that is below it in document order, and
before all else that was behind it. Above them are the nodes that are above it.
-/

namespace ModularScale

namespace Forest

open Document

variable {f new : Forest (NodeId × Node)} {anchor id x : NodeId} {as : List (NodeId × Node)}

/-- A cut of document order, behind all that is below a node. -/
structure CutBehind (f : Forest (NodeId × Node)) (anchor : NodeId) (upTo behind : List NodeId) :
    Prop where
  numbers : f.numbers = upTo ++ behind
  insertAfter : ∀ new, (insertAfter (isNode anchor) new f).numbers = upTo ++ new.numbers ++ behind
  below : ∀ x as, f.above? (isNode x) = some as → anchor ∈ as.map Prod.fst → x ∈ upTo
  upTo : ∃ before below, upTo = before ++ anchor :: below ∧
    ∀ x ∈ below, ∃ as, f.above? (isNode x) = some as ∧ anchor ∈ as.map Prod.fst

namespace CutBehind

variable {a : NodeId × Node} {c r : Forest (NodeId × Node)} {upTo behind : List NodeId}

/-- The first node has the trees beside its own behind it. -/
theorem first (hn : (cons a c r).numbers.Nodup) :
    (cons a c r).CutBehind a.1 (a.1 :: c.numbers) r.numbers where
  numbers := numbers_cons a c r
  insertAfter new := by
    rw [insertAfter_cons_of_eq rfl, numbers_cons, numbers_append]
    simp
  below x as has hm := by
    obtain ⟨-, har, -⟩ := nodup_cons hn
    obtain ⟨-, rfl⟩ | ⟨-, bs, hbs, -⟩ | ⟨-, -, has⟩ := above?_cons_cases has
    · cases hm
    · exact List.mem_cons_of_mem _ (mem_of_above? hbs)
    · exact absurd (List.map_subset _ (above?_subset has) hm) har
  upTo := by
    refine ⟨[], c.numbers, rfl, fun x hx => ?_⟩
    obtain ⟨as, has⟩ := Option.isSome_iff_exists.mp (mem_numbers_iff_above.mp hx)
    exact ⟨as ++ [a], above?_cons_below hn has, by simp⟩

/-- A cut among the nodes below the first one leaves the trees beside behind it. -/
theorem child (hn : (cons a c r).numbers.Nodup) (h : anchor ∈ c.numbers)
    (hc : c.CutBehind anchor upTo behind) :
    (cons a c r).CutBehind anchor (a.1 :: upTo) (behind ++ r.numbers) := by
  obtain ⟨hac, -, -, -, hcr⟩ := nodup_cons hn
  have hne : a.1 ≠ anchor := fun e => hac (e ▸ h)
  constructor
  case numbers =>
    rw [numbers_cons, hc.numbers]
    simp
  case insertAfter =>
    intro new
    rw [insertAfter_cons_of_ne hne, numbers_cons, hc.insertAfter, insertAfter_of_notMem (hcr _ h)]
    simp
  case below =>
    intro x as has hm
    obtain ⟨-, rfl⟩ | ⟨-, bs, hbs, rfl⟩ | ⟨-, -, has⟩ := above?_cons_cases has
    · cases hm
    · have hm : anchor ∈ bs.map Prod.fst := by simpa [hne.symm] using hm
      exact List.mem_cons_of_mem _ (hc.below x bs hbs hm)
    · exact absurd (List.map_subset _ (above?_subset has) hm) (hcr _ h)
  case upTo =>
    obtain ⟨before, below, rfl, hb⟩ := hc.upTo
    refine ⟨a.1 :: before, below, rfl, fun x hx => ?_⟩
    obtain ⟨as, has, hm⟩ := hb x hx
    refine ⟨as ++ [a], above?_cons_below hn has, ?_⟩
    rw [List.map_append]
    exact List.mem_append_left _ hm

/-- A cut of the trees beside the first one comes behind all nodes of this. -/
theorem beside (hn : (cons a c r).numbers.Nodup) (h : anchor ∈ r.numbers)
    (hr : r.CutBehind anchor upTo behind) :
    (cons a c r).CutBehind anchor (a.1 :: (c.numbers ++ upTo)) behind := by
  obtain ⟨-, har, -, -, hcr⟩ := nodup_cons hn
  constructor
  case numbers =>
    rw [numbers_cons, hr.numbers]
    simp
  case insertAfter =>
    intro new
    rw [insertAfter_cons_of_ne fun e => har (e ▸ h), numbers_cons, hr.insertAfter,
      insertAfter_of_notMem fun hm => hcr _ hm h]
    simp
  case below =>
    intro x as has hm
    obtain ⟨-, rfl⟩ | ⟨-, bs, hbs, -⟩ | ⟨-, -, has⟩ := above?_cons_cases has
    · cases hm
    · exact List.mem_cons_of_mem _ (List.mem_append_left _ (mem_of_above? hbs))
    · exact List.mem_cons_of_mem _ (List.mem_append_right _ (hr.below x as has hm))
  case upTo =>
    obtain ⟨before, below, rfl, hb⟩ := hr.upTo
    refine ⟨a.1 :: (c.numbers ++ before), below, by simp, fun x hx => ?_⟩
    obtain ⟨as, has, hm⟩ := hb x hx
    exact ⟨as, above?_cons_beside hn has, hm⟩

end CutBehind

theorem exists_cutBehind (hn : f.numbers.Nodup) (h : anchor ∈ f.numbers) :
    ∃ upTo behind, f.CutBehind anchor upTo behind := by
  induction f with
  | nil => cases h
  | cons a c r ihc ihr =>
    obtain ⟨-, -, hnc, hnr, -⟩ := nodup_cons hn
    rw [numbers_cons, List.mem_cons, List.mem_append] at h
    rcases h with rfl | h | h
    · exact ⟨_, _, .first hn⟩
    · obtain ⟨upTo, behind, hc⟩ := ihc hnc h
      exact ⟨_, _, hc.child hn h⟩
    · obtain ⟨upTo, behind, hr⟩ := ihr hnr h
      exact ⟨_, _, hr.beside hn h⟩

/-- Above new nodes is what is above the one that they are put behind. -/
theorem above?_insertAfter_new (hn : f.numbers.Nodup) (h : f.above? (isNode anchor) = some as)
    {bs : List (NodeId × Node)} (hb : new.above? (isNode id) = some bs) (hid : id ∉ f.numbers) :
    (insertAfter (isNode anchor) new f).above? (isNode id) = some (bs ++ as) := by
  induction f generalizing as with
  | nil => cases h
  | cons a c r ihc ihr =>
    obtain ⟨-, -, hnc, hnr, -⟩ := nodup_cons hn
    rw [numbers_cons, List.mem_cons, List.mem_append, not_or, not_or] at hid
    obtain ⟨hia, hic, hir⟩ := hid
    obtain ⟨ha, rfl⟩ | ⟨ha, cs, hcs, rfl⟩ | ⟨ha, hc, h⟩ := above?_cons_cases h
    · rw [insertAfter_cons_of_eq ha, above?_cons_of_ne (Ne.symm hia), above?_eq_none.mpr hic,
        above?_append, hb, List.append_nil]
      rfl
    · rw [insertAfter_cons_of_ne ha, above?_cons_of_ne (Ne.symm hia), ihc hnc hcs hic,
        Option.map_some, Option.some_or, List.append_assoc]
    · rw [insertAfter_cons_of_ne ha, above?_cons_of_ne (Ne.symm hia), insertAfter_of_notMem hc,
        above?_eq_none.mpr hic, ihr hnr h hir]
      rfl

end Forest

namespace Document

open Forest

variable {d e : Document} {anchor x : NodeId} {new : Forest Node}

/-- A cut of the nodes of a document, behind all that is below one of them. -/
structure CutBehind (d : Document) (anchor : NodeId) (upTo behind : List NodeId) : Prop where
  nodes : d.nodes = upTo ++ behind
  insertNewAfter : ∀ new e, d.insertNewAfter anchor new = .ok e →
    e.nodes = upTo ++ List.range' d.next (e.next - d.next) ++ behind
  mem_upTo : ∀ x, anchor ∈ d.ancestors x → x ∈ upTo
  mem_behind : ∀ x, [anchor, x].Sublist d.nodes → anchor ∉ d.ancestors x → x ∈ behind

theorem Whole.mem_nodes_iff (hd : d.Whole) : x ∈ d.nodes ↔ d.isLive x = true := by
  rw [hd.nodes_eq, isLive_iff]

theorem Whole.nodup_nodes (hd : d.Whole) : d.nodes.Nodup :=
  hd.nodes_eq ▸ hd.nodup

theorem next_insertNewAfter (h : d.insertNewAfter anchor new = .ok e) :
    (new.number d.next).1.numbers = List.range' d.next (e.next - d.next) := by
  obtain ⟨hn, hnext⟩ := numbers_number new d.next
  rcases insertNewAfter_ok h with ⟨rfl, rfl⟩ | ⟨-, rfl⟩
  · rw [Nat.sub_self]
    rfl
  · rw [hn, hnext, Nat.add_sub_cancel_left]

theorem Whole.exists_cutBehind (hd : d.Whole) (hl : d.isLive anchor = true) :
    ∃ upTo behind, d.CutBehind anchor upTo behind := by
  obtain ⟨upTo, behind, hc⟩ := Forest.exists_cutBehind hd.nodup (isLive_iff.mp hl)
  refine ⟨upTo, behind, hd.nodes_eq.trans hc.numbers, fun new e h => ?_, fun x hx => ?_,
    fun x hs hx => ?_⟩
  · rw [(hd.insertNewAfter h).1.whole.nodes_eq, trees_insertNewAfter h, hc.insertAfter,
      next_insertNewAfter h]
  · obtain ⟨as, has⟩ := exists_above hx
    rw [ancestors_eq has] at hx
    exact hc.below x as has hx
  · obtain ⟨before, below, rfl, hb⟩ := hc.upTo
    have hn := hd.nodup_nodes
    rw [hd.nodes_eq, hc.numbers, List.append_assoc] at hs hn
    have hnot : anchor ∉ before := fun hm =>
      List.disjoint_of_nodup_append hn hm (by simp)
    -- what comes after the node is below it or behind
    obtain ⟨l₁, l₂, hl, h₁, h₂⟩ := List.sublist_append_iff.mp hs
    cases l₁ with
    | cons b l₁ =>
      obtain ⟨rfl, -⟩ := List.cons.inj (show anchor :: [x] = b :: (l₁ ++ l₂) from hl)
      exact absurd (h₁.subset List.mem_cons_self) hnot
    | nil =>
      obtain rfl : [anchor, x] = l₂ := hl
      have hm : x ∈ below ++ behind := List.singleton_sublist.mp h₂.of_cons_cons
      rcases List.mem_append.mp hm with hm | hm
      · obtain ⟨as, has, hm⟩ := hb x hm
        rw [ancestors_eq has] at hx
        exact absurd hm hx
      · exact hm

/-- Above new nodes is what is above the one that they are put behind. -/
theorem ancestors_insertNewAfter (hd : d.Whole) (h : d.insertNewAfter anchor new = .ok e)
    {as : List (NodeId × Node)} (has : (new.number d.next).1.above? (isNode x) = some as) :
    e.ancestors x = as.map Prod.fst ++ d.ancestors anchor := by
  rcases insertNewAfter_ok h with ⟨rfl, -⟩ | ⟨⟨hl, -⟩, rfl⟩
  · cases has
  · obtain ⟨bs, hbs⟩ := isLive_iff_above.mp hl
    have hx := mem_of_above? has
    have hnot : x ∉ d.trees.numbers := by
      rw [(numbers_number _ _).1, List.mem_range'_1] at hx
      exact fun hm => Nat.not_lt_of_le hx.1 (hd.lt_next x hm)
    rw [ancestors_eq (above?_insertAfter_new hd.nodup hbs has hnot), ancestors_eq hbs,
      List.map_append]

theorem node?_insertNewAfter (hd : d.Whole) (h : d.insertNewAfter anchor new = .ok e)
    {a : NodeId × Node} (ha : a ∈ (new.number d.next).1.toList) : e.node? a.1 = some a.2 := by
  have hw := (hd.insertNewAfter h).1.whole
  rw [node?_eq_some_iff hw.nodup]
  rcases insertNewAfter_ok h with ⟨rfl, -⟩ | ⟨⟨hl, -⟩, rfl⟩
  · cases ha
  · obtain ⟨l₁, l₂, -, -, hg⟩ :=
      toList_insertAfter (new.number d.next).1 hd.nodup (isLive_iff.mp hl)
    rw [hg]
    simp [ha]

end Document

end ModularScale
