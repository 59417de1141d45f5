import ModularScale.Proofs.Document.Amid
import ModularScale.Proofs.Document.Renaming

/-! # Documents in place

A document has a place in another one that holds the same items between others, under numbers of
their own. An edit at the place does what the edit does to the document alone, and fails where it
does.
-/

namespace ModularScale

namespace Forest

open Document

variable {before after f new : Forest (NodeId × Node)} {id : NodeId}

/-- Puts other trees before and behind what is below each topmost node. -/
def flank (before after : Forest (NodeId × Node)) :
    Forest (NodeId × Node) → Forest (NodeId × Node)
  | nil => nil
  | cons a children rest => cons a (before ++ children ++ after) (flank before after rest)

variable (h : Apart before after id)
include h

theorem find?_flank (f : Forest (NodeId × Node)) :
    ((flank before after f).find? (isNode id)).map Prod.fst =
      (f.find? (isNode id)).map Prod.fst := by
  induction f with
  | nil => rfl
  | cons a c r _ ih =>
    simp only [flank, find?, find?_append, find?_eq_none_of_notMem h.before,
      find?_eq_none_of_notMem h.after, Option.none_or, Option.or_none]
    split
    · rfl
    · rw [Option.map_or, Option.map_or, ih]

theorem above?_flank (f : Forest (NodeId × Node)) :
    (flank before after f).above? (isNode id) = f.above? (isNode id) := by
  induction f with
  | nil => rfl
  | cons a c r _ ih =>
    simp only [flank, above?, above?_append, above?_eq_none.mpr h.before,
      above?_eq_none.mpr h.after, Option.none_or, Option.or_none, ih]

theorem erase_flank (f : Forest (NodeId × Node)) :
    (flank before after f).erase (isNode id) = flank before after (f.erase (isNode id)) := by
  induction f with
  | nil => rfl
  | cons a c r _ ih =>
    simp only [flank, erase, erase_append, erase_of_notMem h.before, erase_of_notMem h.after, ih]
    split <;> rfl

theorem modify_flank (k : NodeId × Node → NodeId × Node) (f : Forest (NodeId × Node)) :
    (flank before after f).modify (isNode id) k =
      flank before after (f.modify (isNode id) k) := by
  induction f with
  | nil => rfl
  | cons a c r _ ih =>
    simp only [flank, modify, modify_append, modify_of_notMem h.before, modify_of_notMem h.after,
      ih]

/-- A graft that is not at the top comes to stand between the other trees. -/
theorem insertAfter_flank (hid : id ∉ f.tops.map Prod.fst) :
    insertAfter (isNode id) new (flank before after f) =
      flank before after (insertAfter (isNode id) new f) := by
  induction f with
  | nil => rfl
  | cons a c r _ ih =>
    rw [tops, List.map_cons, List.mem_cons, not_or] at hid
    have ha : a.1 ≠ id := Ne.symm hid.1
    rw [flank, insertAfter_cons_of_ne ha, insertAfter_cons_of_ne ha, ih hid.2,
      insertAfter_append (.inr h.after), insertAfter_append (.inl h.before),
      insertAfter_of_notMem h.before, insertAfter_of_notMem h.after, flank]

theorem insertBefore_flank (hid : id ∉ f.tops.map Prod.fst) :
    insertBefore (isNode id) new (flank before after f) =
      flank before after (insertBefore (isNode id) new f) := by
  induction f with
  | nil => rfl
  | cons a c r _ ih =>
    rw [tops, List.map_cons, List.mem_cons, not_or] at hid
    have ha : isNode id a = false := by simpa [isNode] using Ne.symm hid.1
    simp only [flank, insertBefore, ha, Bool.false_eq_true, ↓reduceIte, ih hid.2,
      insertBefore_append (.inr h.after), insertBefore_append (.inl h.before),
      insertBefore_of_notMem h.before, insertBefore_of_notMem h.after]

end Forest

open Document Forest

namespace Document

theorem trees_ofForest (items : Forest Node) :
    (ofForest items).trees = .single (root, .made .root) (items.number 1).1 := rfl

theorem Whole.declarations_eq {d : Document} {node : Node} {below : Forest (NodeId × Node)}
    (hd : d.Whole) (h : d.trees = .single (root, node) below)
    (hn : node.kind.isDeclaration = false) : d.declarations = below.declarations := by
  rw [declarations, hd.attached_eq, h]
  simp [single, toList, hn, Forest.declarations]

end Document

/-- A place for a document in another one: the numbers that its nodes have there, and what stands
before and behind its items. From some number on, numbers that follow each other do so in both. -/
structure Place where
  number : NodeId → NodeId
  before : Forest (NodeId × Node)
  after : Forest (NodeId × Node)
  first : NodeId
  injective : Function.Injective number
  number_root : number root = root
  number_succ : ∀ i, first ≤ i → number (i + 1) = number i + 1
  apart : ∀ id, Apart before after (number id)

namespace Place

variable {d : Document} {id : NodeId}

/-- A document at its place. -/
def document (P : Place) (d : Document) : Document :=
  ⟨flank P.before P.after (d.trees.rename P.number), P.number d.next⟩

/-- A document with numbers that a place is made for. -/
structure Suits (P : Place) (d : Document) : Prop where
  whole : d.Whole
  first_le : P.first ≤ d.next

variable (P : Place)

theorem number_eq_root : P.number id = root ↔ id = root :=
  ⟨fun h => P.injective (h.trans P.number_root.symm), fun h => h ▸ P.number_root⟩

theorem node? (d : Document) (id : NodeId) :
    (P.document d).node? (P.number id) = d.node? id := by
  have h : ((P.document d).find? (P.number id)).map Prod.fst =
      ((d.find? id).map Prod.fst).map fun a => (P.number a.1, a.2) := by
    rw [Document.find?, document, find?_flank (P.apart id), find?_rename P.injective,
      Option.map_map, Option.map_map]
    rfl
  have hmap : ∀ o : Option ((NodeId × Node) × Forest (NodeId × Node)),
      o.map (·.1.2) = (o.map Prod.fst).map Prod.snd := fun o => by rw [Option.map_map]; rfl
  rw [Document.node?, hmap, h, Option.map_map, Document.node?, hmap]
  rfl

theorem ancestors (d : Document) (id : NodeId) :
    (P.document d).ancestors (P.number id) = (d.ancestors id).map P.number := by
  rw [Document.ancestors, document, above?_flank (P.apart id), above?_rename P.injective,
    Document.ancestors]
  cases d.trees.above? (isNode id) <;> simp

variable {P}

/-- The root has no place beside it, so an edit beside a node is between the other trees. -/
theorem number_notMem_tops (hd : d.Whole) (h : d.checkAnchor id = .ok ()) :
    P.number id ∉ (d.trees.rename P.number).tops.map Prod.fst := by
  obtain ⟨-, parent, hp⟩ := checkAnchor_ok h
  obtain ⟨node, below, ht⟩ := hd.rooted
  rw [ht]
  simpa [rename, single, map, tops, P.number_root, P.number_eq_root] using ne_root_of_parent hd hp

theorem Suits.number_next (hd : P.Suits d) (new : Forest Node) : new.number (P.document d).next =
    ((new.number d.next).1.rename P.number, P.number (new.number d.next).2) :=
  number_rename P.number_succ hd.first_le new

/-- Documents at a place. -/
def embedding (P : Place) : Embedding where
  number := P.number
  document := P.document
  Known _ := True
  Fits := P.Suits
  whole h := h.whole
  of_edited h t := ⟨t.whole, Nat.le_trans h.first_le t.next_le⟩
  known _ _ := trivial
  number_eq_root := P.number_eq_root
  node? _ d := P.node? d _
  ancestors _ d := P.ancestors d _
  modify _ d change := by
    simp only [document, modify_flank (P.apart _), modify_rename P.injective]
  without _ d := by
    simp only [document, Document.without, erase_flank (P.apart _), erase_rename P.injective]
  insertAfter hd _ ha new := by
    rw [hd.number_next, document, insertAfter_flank (P.apart _) (number_notMem_tops hd.whole ha),
      insertAfter_rename P.injective, document]
  insertBefore hd _ ha new := by
    rw [hd.number_next, document, insertBefore_flank (P.apart _) (number_notMem_tops hd.whole ha),
      insertBefore_rename P.injective, document]

/-- The given numbers in turn, and then all from `next` on. -/
def numberAt (ids : List Nat) (next i : Nat) : Nat :=
  if h : i < ids.length then ids[i] else i - ids.length + next

section

variable {ids : List Nat} {next : Nat}

theorem numberAt_injective (hn : ids.Nodup) (hlt : ∀ id ∈ ids, id < next) :
    Function.Injective (numberAt ids next) := by
  intro i j h
  have hget : ∀ k (hk : k < ids.length), ids[k] < next := fun k hk => hlt _ (List.getElem_mem hk)
  unfold numberAt at h
  split at h <;> split at h
  · exact hn.getElem_inj_iff.mp h
  · have := hget i ‹_›
    omega
  · have := hget j ‹_›
    omega
  · omega

theorem numberAt_succ {i : Nat} (h : ids.length ≤ i) :
    numberAt ids next (i + 1) = numberAt ids next i + 1 := by
  unfold numberAt
  rw [dif_neg (by omega), dif_neg (by omega)]
  omega

theorem numberAt_mem_or (i : Nat) : numberAt ids next i ∈ ids ∨ next ≤ numberAt ids next i := by
  unfold numberAt
  split
  · exact .inl (List.getElem_mem _)
  · exact .inr (by omega)

theorem map_numberAt (id : Nat) (ids : List Nat) (next : Nat) :
    (List.range' 1 ids.length).map (numberAt (id :: ids) next) = ids := by
  refine List.ext_getElem (by simp) fun i _ hi => ?_
  rw [List.getElem_map, List.getElem_range', numberAt, dif_pos (by simp; omega)]
  simp [Nat.add_comm]

end

section

variable {before f after : Forest (NodeId × Node)} (hd : d.Whole)
  (ht : d.trees = .single (root, .made .root) (before ++ f ++ after))

include hd ht in
/-- The nodes of some items have numbers of their own, and so do the items around them. -/
theorem numbers_of_items : (root :: f.numbers).Nodup ∧ (∀ id ∈ root :: f.numbers, id < d.next) ∧
    ∀ id, id ∈ root :: f.numbers ∨ d.next ≤ id → Apart before after id := by
  have hn := hd.nodup
  have hlt := hd.lt_next
  simp only [ht, single, numbers_cons, numbers_append, numbers_nil, List.append_nil,
    List.append_assoc] at hn hlt
  refine ⟨hn.sublist (.cons_cons _ ?_), fun id hid => hlt id (by grind), ?_⟩
  · exact (List.sublist_append_left _ _).trans (List.sublist_append_right _ _)
  · rintro id (h | h)
    · exact ⟨by grind, by grind⟩
    · exact ⟨fun hb => Nat.not_le_of_lt (hlt id (by simp [hb])) h,
        fun ha => Nat.not_le_of_lt (hlt id (by simp [ha])) h⟩

/-- The place of some of the items of a style sheet, for a document with no other items. -/
def ofItems : Place where
  number := numberAt (root :: f.numbers) d.next
  before
  after
  first := (root :: f.numbers).length
  injective := numberAt_injective (numbers_of_items hd ht).1 (numbers_of_items hd ht).2.1
  number_root := rfl
  number_succ _ := numberAt_succ
  apart id := (numbers_of_items hd ht).2.2 _ (numberAt_mem_or id)

theorem next_ofForest (f : Forest (NodeId × Node)) :
    (ofForest (f.map Prod.snd)).next = (root :: f.numbers).length := by
  rw [ofForest, (toList_number _ _).2]
  simp [single, toList, toList_map, root, numbers, Nat.add_comm]

theorem suits_ofItems : (ofItems hd ht).Suits (ofForest (f.map Prod.snd)) :=
  ⟨ofForest_whole _, Nat.le_of_eq (next_ofForest f).symm⟩

theorem rename_ofItems : ((f.map Prod.snd).number 1).1.rename (ofItems hd ht).number = f := by
  refine rename_number ?_
  rw [← List.length_map (f := Prod.fst)]
  exact (map_numberAt root f.numbers d.next).symm

/-- The document with these items alone comes to be the whole document. -/
theorem document_ofItems : (ofItems hd ht).document (ofForest (f.map Prod.snd)) = d := by
  have hnext : (ofItems hd ht).number (ofForest (f.map Prod.snd)).next = d.next := by
    rw [next_ofForest]
    simp [ofItems, numberAt]
  have htrees : flank before after
      ((ofForest (f.map Prod.snd)).trees.rename (ofItems hd ht).number) = d.trees := by
    rw [ht, trees_ofForest]
    show single (root, .made .root)
      (before ++ ((f.map Prod.snd).number 1).1.rename (ofItems hd ht).number ++ after) = _
    rw [rename_ofItems]
  rw [document, hnext]
  exact congrArg (Document.mk · d.next) htrees

theorem declarations_ofItems :
    f.declarations = (ofForest (f.map Prod.snd)).declarations.map (ofItems hd ht).number := by
  rw [(ofForest_whole _).declarations_eq (trees_ofForest _) rfl, ← declarations_rename,
    rename_ofItems]

end

end Place

end ModularScale
