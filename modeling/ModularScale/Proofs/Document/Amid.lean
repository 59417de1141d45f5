import ModularScale.Proofs.Document.Embedding
import ModularScale.Proofs.Document.Moving

/-! # Documents amid other trees

Trees that stand apart from a style sheet have no part in what is read of it or done to it. An edit
of the style sheet alone and the same edit with the other trees beside it give the same result.
-/

namespace ModularScale

namespace Forest

open Document

variable {f g new : Forest (NodeId × Node)} {id : NodeId}

theorem find?_append (p : NodeId × Node → Bool) (f g : Forest (NodeId × Node)) :
    (f ++ g).find? p = (f.find? p).or (g.find? p) := by
  induction f with
  | nil => rfl
  | cons a c r _ ih =>
    simp only [cons_append, find?, ih]
    split
    · rfl
    · rw [Option.or_assoc]

theorem erase_append (p : NodeId × Node → Bool) (f g : Forest (NodeId × Node)) :
    (f ++ g).erase p = f.erase p ++ g.erase p := by
  induction f with
  | nil => rfl
  | cons a c r _ ih =>
    simp only [cons_append, erase, ih]
    split <;> rfl

/-- New trees come into the part that their place is in. -/
theorem graft_append {put : NodeId × Node → Forest (NodeId × Node) → Forest (NodeId × Node) →
      Forest (NodeId × Node)} (hput : ∀ a c r, put a c (r ++ g) = put a c r ++ g)
    (h : id ∉ f.numbers ∨ id ∉ g.numbers) :
    graft (isNode id) put (f ++ g) = graft (isNode id) put f ++ graft (isNode id) put g := by
  induction f with
  | nil => rfl
  | cons a c r _ ih =>
    have hr : id ∉ r.numbers ∨ id ∉ g.numbers :=
      h.imp_left fun hn hm => hn (by simp [hm])
    by_cases ha : a.1 = id
    · have hg : id ∉ g.numbers := h.resolve_left fun hn => hn (by simp [ha])
      rw [cons_append, graft_cons_of_eq ha, graft_cons_of_eq ha, hput, graft_of_notMem hg]
    · rw [cons_append, graft_cons_of_ne ha, graft_cons_of_ne ha, ih hr, cons_append]

theorem insertAfter_append (h : id ∉ f.numbers ∨ id ∉ g.numbers) :
    insertAfter (isNode id) new (f ++ g) =
      insertAfter (isNode id) new f ++ insertAfter (isNode id) new g := by
  simp only [insertAfter_eq_graft]
  exact graft_append (fun a c r => by rw [cons_append, append_assoc]) h

theorem insertBefore_append (h : id ∉ f.numbers ∨ id ∉ g.numbers) :
    insertBefore (isNode id) new (f ++ g) =
      insertBefore (isNode id) new f ++ insertBefore (isNode id) new g := by
  simp only [insertBefore_eq_graft]
  exact graft_append (fun a c r => by rw [append_assoc, cons_append]) h

end Forest

namespace Document

open Forest

variable {before after : Forest (NodeId × Node)} {d e : Document} {id : NodeId}

/-- A document with other trees before and behind its own. -/
def amid (before after : Forest (NodeId × Node)) (d : Document) : Document :=
  ⟨before ++ d.trees ++ after, d.next⟩

/-- A node that is in none of the other trees. -/
structure Apart (before after : Forest (NodeId × Node)) (id : NodeId) : Prop where
  before : id ∉ before.numbers
  after : id ∉ after.numbers

/-- Other trees with old nodes that are not in the document. -/
structure Aside (before after : Forest (NodeId × Node)) (d : Document) : Prop where
  apart : ∀ id ∈ d.trees.numbers, Apart before after id
  lt_next : ∀ id, ¬Apart before after id → id < d.next

namespace Apart

variable (h : Apart before after id)
include h

theorem find? (d : Document) : (d.amid before after).find? id = d.find? id := by
  rw [Document.find?, amid, find?_append, find?_append, find?_eq_none_of_notMem h.before,
    find?_eq_none_of_notMem h.after, Option.none_or, Option.or_none, Document.find?]

theorem above? (d : Document) :
    (d.amid before after).trees.above? (isNode id) = d.trees.above? (isNode id) := by
  rw [amid, above?_append, above?_append, above?_eq_none.mpr h.before, above?_eq_none.mpr h.after,
    Option.none_or, Option.or_none]

theorem isLive (d : Document) : (d.amid before after).isLive id = d.isLive id := by
  rw [Document.isLive, h.find?, Document.isLive]

theorem node? (d : Document) : (d.amid before after).node? id = d.node? id := by
  rw [Document.node?, h.find?, Document.node?]

theorem ancestors (d : Document) : (d.amid before after).ancestors id = d.ancestors id := by
  rw [Document.ancestors, h.above?, Document.ancestors]

theorem parent? (d : Document) : (d.amid before after).parent? id = d.parent? id := by
  rw [Document.parent?, h.ancestors, Document.parent?]

theorem isAttached (d : Document) : (d.amid before after).isAttached id = d.isAttached id := by
  rw [Document.isAttached, h.isLive, h.ancestors, Document.isAttached]

end Apart

namespace Aside

theorem of_isLive (h : Aside before after d) (hl : d.isLive id = true) : Apart before after id :=
  h.apart id (isLive_iff.mp hl)

/-- Other trees stay apart from a document that gets new nodes alone. -/
theorem of_keeps {changed : List NodeId} (h : Aside before after d) (k : Keeps changed d e) :
    Aside before after e where
  apart id hm := by
    by_contra hid
    exact hid (h.of_isLive (k.isLive_of_isLive (h.lt_next id hid) (isLive_iff.mpr hm)))
  lt_next id hid := Nat.lt_of_lt_of_le (h.lt_next id hid) k.next_le

theorem declarations (h : Aside before after d) (hd : d.Whole) :
    (d.amid before after).declarations = d.declarations := by
  have hr : Apart before after root := by
    obtain ⟨node, below, ht⟩ := hd.rooted
    exact h.apart root (by simp [ht, single])
  rw [Document.declarations, attached, hr.find?, Document.declarations, attached]

end Aside

/-- A built document is its style sheet amid other trees. -/
theorem Rooted.exists_amid (hd : d.Rooted) : ∃ before after w, d = amid before after w ∧ w.Whole ∧
    Aside before after w := by
  obtain ⟨before, node, below, after, ht⟩ := exists_of_top hd.top
  refine ⟨before, after, ⟨single (root, node) below, d.next⟩, ?_,
    ⟨⟨node, below, rfl⟩, ?_, ?_⟩, ?_, ?_⟩
  · rw [amid, ← ht]
  all_goals
    have hn := hd.nodup
    have hlt := hd.lt_next
    rw [ht, numbers_append, numbers_append] at hn hlt
    have ⟨hn₁, _, hdisj⟩ := List.nodup_append.mp hn
    have ⟨_, hn₂, hdisj'⟩ := List.nodup_append.mp hn₁
  · exact hn₂
  · exact fun id hm => hlt id (by simp [hm])
  · refine fun id hm => ⟨fun hb => hdisj' id hb id hm rfl, fun ha => ?_⟩
    exact hdisj id (List.mem_append_right _ hm) id ha rfl
  · intro id hid
    by_contra hlt'
    refine hid ⟨fun hb => hlt' (hlt id (by simp [hb])), fun ha => hlt' (hlt id (by simp [ha]))⟩

end Document

open Document Forest

/-- Documents with the same trees beside them. -/
def Embedding.amid (before after : Forest (NodeId × Node)) : Embedding where
  number id := id
  document := Document.amid before after
  Known := Apart before after
  Fits d := d.Whole ∧ Aside before after d
  whole h := h.1
  of_edited h t := ⟨t.whole, h.2.of_keeps t.toKeeps⟩
  known h := h.2.of_isLive
  number_eq_root := Iff.rfl
  node? h := h.node?
  ancestors h d := by rw [h.ancestors, List.map_id']
  modify h d change := by
    simp only [Document.amid, modify_append, modify_of_notMem h.before, modify_of_notMem h.after]
  without h d := by
    simp only [Document.amid, Document.without, erase_append, erase_of_notMem h.before,
      erase_of_notMem h.after]
  insertAfter _ h _ new := by
    simp only [Document.amid, insertAfter_append (.inr h.after), insertAfter_append (.inl h.before),
      insertAfter_of_notMem h.before, insertAfter_of_notMem h.after]
  insertBefore _ h _ new := by
    simp only [Document.amid, insertBefore_append (.inr h.after),
      insertBefore_append (.inl h.before), insertBefore_of_notMem h.before,
      insertBefore_of_notMem h.after]

end ModularScale
