import ModularScale.Proofs.Document.Siblings

/-! # Splices

New trees that come into one list of children, nodes that are cut out of one, and declarations with
a new value. All other nodes keep what they are, what is above them and what is right below them,
and the new ones are found as they were made.
-/

namespace ModularScale

namespace Document

open Forest

variable {d e e' : Document} {id anchor x : NodeId} {f new : Forest (NodeId × Node)}

theorem children_eq (d : Document) (x : NodeId) :
    d.children x = ((d.find? x).map fun found => found.2.tops.map Prod.fst).getD [] := by
  unfold children
  cases d.find? x <;> rfl

/-! ### Trees that a document has -/

/-- The document has all nodes of some trees, with the same lists of children. -/
def Has (d : Document) : Forest (NodeId × Node) → Prop
  | .nil => True
  | .cons a c r => d.node? a.1 = some a.2 ∧ d.children a.1 = c.tops.map Prod.fst ∧ d.Has c ∧ d.Has r

/-- The given nodes are the topmost ones of trees with the given values, and have no other nodes
below them. -/
def Shows (d : Document) : List NodeId → Forest Node → Prop
  | [], .nil => True
  | id :: ids, .cons node c r => d.node? id = some node ∧ d.Shows (d.children id) c ∧ d.Shows ids r
  | _, _ => False

theorem has_of_find? (hn : f.numbers.Nodup)
    (h : ∀ x ∈ f.numbers, d.find? x = f.find? (isNode x)) : d.Has f := by
  induction f with
  | nil => trivial
  | cons a c r ihc ihr =>
    obtain ⟨-, -, hnc, hnr, -⟩ := nodup_cons hn
    have ha : d.find? a.1 = some (a, c) := by rw [h a.1 (by simp), find?_cons_of_eq rfl]
    refine ⟨by rw [node?, ha]; rfl, by rw [children_eq, ha]; rfl, ihc hnc fun x hx => ?_,
      ihr hnr fun x hx => ?_⟩
    · rw [h x (by simp [hx]), find?_cons_below hn hx]
    · rw [h x (by simp [hx]), find?_cons_beside hn hx]

namespace Has

theorem congr (h : d.Has f)
    (he : ∀ x ∈ f.numbers, e.node? x = d.node? x ∧ e.children x = d.children x) : e.Has f := by
  induction f with
  | nil => trivial
  | cons a c r ihc ihr =>
    obtain ⟨hn, hc, hac, har⟩ := h
    obtain ⟨hna, hca⟩ := he a.1 (by simp)
    exact ⟨hna.trans hn, hca.trans hc, ihc hac fun x hx => he x (by simp [hx]),
      ihr har fun x hx => he x (by simp [hx])⟩

theorem shows_map (h : d.Has f) : d.Shows (f.tops.map Prod.fst) (f.map Prod.snd) := by
  induction f with
  | nil => trivial
  | cons a c r ihc ihr =>
    obtain ⟨hn, hc, hac, har⟩ := h
    exact ⟨hn, hc.symm ▸ ihc hac, ihr har⟩

end Has

theorem Shows.append {ids : List NodeId} {f g : Forest Node} (h : d.Shows ids (f ++ g)) :
    ∃ as bs, ids = as ++ bs ∧ d.Shows as f ∧ d.Shows bs g := by
  induction f generalizing ids with
  | nil => exact ⟨[], ids, rfl, trivial, h⟩
  | cons node c r _ ihr =>
    cases ids with
    | nil => cases h
    | cons id ids =>
      obtain ⟨hn, hb, hr⟩ := h
      obtain ⟨as, bs, rfl, has, hbs⟩ := ihr hr
      exact ⟨id :: as, bs, rfl, ⟨hn, hb, has⟩, hbs⟩

theorem Shows.exists_of_single {ids : List NodeId} {node : Node} {below : Forest Node}
    (h : d.Shows ids (.single node below)) : ∃ id, ids = [id] := by
  match ids, h with
  | [id], _ => exact ⟨id, rfl⟩
  | _ :: _ :: _, ⟨_, _, h⟩ => cases h

/-- What is shown side by side is shown one by one. -/
theorem Shows.forall₂ {α : Type} {ids : List NodeId} {as : List α} {tree : α → Forest Node}
    (h : d.Shows ids (as.foldr (fun a rest => tree a ++ rest) .nil))
    (ht : ∀ a, ∃ node below, tree a = .single node below) :
    List.Forall₂ (fun a id => d.Shows [id] (tree a)) as ids := by
  induction as generalizing ids with
  | nil =>
    cases ids with
    | nil => exact .nil
    | cons => cases h
  | cons a as ih =>
    obtain ⟨node, below, he⟩ := ht a
    rw [List.foldr_cons, he] at h
    cases ids with
    | nil => cases h
    | cons id ids =>
      obtain ⟨hn, hb, hr⟩ := h
      exact .cons (he ▸ ⟨hn, hb, trivial⟩) (ih hr)

/-! ### What stays -/

/-- Nodes that are still there have the same nodes above them; all but the given ones are what they
were, and all but the given ones have the same children. -/
structure SameBut (nodes lists : List NodeId) (d e : Document) : Prop where
  node? : ∀ x, d.isLive x = true → e.isLive x = true → x ∉ nodes → e.node? x = d.node? x
  parent? : ∀ x, d.isLive x = true → e.isLive x = true → e.parent? x = d.parent? x
  children : ∀ x, d.isLive x = true → e.isLive x = true → x ∉ lists → e.children x = d.children x

namespace SameBut

variable {nodes nodes' lists lists' : List NodeId}

theorem mono (h : SameBut nodes lists d e) (hn : nodes ⊆ nodes') (hl : lists ⊆ lists') :
    SameBut nodes' lists' d e where
  node? x hx hx' hne := h.node? x hx hx' fun hm => hne (hn hm)
  parent? := h.parent?
  children x hx hx' hne := h.children x hx hx' fun hm => hne (hl hm)

theorem trans (h : SameBut nodes lists d e) (h' : SameBut nodes' lists' e e')
    (hl : ∀ x, d.isLive x = true → e'.isLive x = true → e.isLive x = true) :
    SameBut (nodes ++ nodes') (lists ++ lists') d e' where
  node? x hx hx' hn := by
    rw [List.mem_append, not_or] at hn
    have he := hl x hx hx'
    rw [h'.node? x he hx' hn.2, h.node? x hx he hn.1]
  parent? x hx hx' := by
    have he := hl x hx hx'
    rw [h'.parent? x he hx', h.parent? x hx he]
  children x hx hx' hn := by
    rw [List.mem_append, not_or] at hn
    have he := hl x hx hx'
    rw [h'.children x he hx' hn.2, h.children x hx he hn.1]

/-- Trees are still there if nothing of theirs is given up. -/
theorem has (h : SameBut nodes lists d e) (hf : d.Has f)
    (hx : ∀ x ∈ f.numbers, d.isLive x = true ∧ e.isLive x = true ∧ x ∉ nodes ∧ x ∉ lists) :
    e.Has f := by
  refine hf.congr fun x hm => ?_
  obtain ⟨hd, he, hn, hl⟩ := hx x hm
  exact ⟨h.node? x hd he hn, h.children x hd he hl⟩

end SameBut

/-! ### Splices -/

/-- New trees come into the list in which `place` shows more than one node. -/
structure Spliced (place : NodeId → List NodeId) (new : Forest (NodeId × Node)) (d e : Document) :
    Prop where
  nodup : e.trees.numbers.Nodup
  isLive : ∀ x, e.isLive x = true ↔ x ∈ new.numbers ∨ d.isLive x = true
  node? : ∀ x, d.isLive x = true → e.node? x = d.node? x
  ancestors : ∀ x, d.isLive x = true → e.ancestors x = d.ancestors x
  children : ∀ x, d.isLive x = true → e.children x = (d.children x).flatMap place
  has : e.Has new

/-- What a node becomes in its list when new trees are put behind another one. -/
def behind (anchor : NodeId) (new : List NodeId) (y : NodeId) : List NodeId :=
  if y = anchor then y :: new else [y]

/-- What a node becomes in its list when new trees are put before another one. -/
def ahead (anchor : NodeId) (new : List NodeId) (y : NodeId) : List NodeId :=
  if y = anchor then new ++ [y] else [y]

theorem flatMap_of_notMem {place : NodeId → List NodeId} {ys : List NodeId}
    (hp : ∀ y, y ≠ anchor → place y = [y]) (h : anchor ∉ ys) : ys.flatMap place = ys := by
  induction ys with
  | nil => rfl
  | cons y ys ih =>
    rw [List.mem_cons, not_or] at h
    rw [List.flatMap_cons, hp y (Ne.symm h.1), ih h.2, List.singleton_append]

theorem flatMap_of_split {place : NodeId → List NodeId} {before after : List NodeId}
    (hp : ∀ y, y ≠ anchor → place y = [y]) (h : (before ++ anchor :: after).Nodup) :
    (before ++ anchor :: after).flatMap place = before ++ (place anchor ++ after) := by
  obtain ⟨-, hna, hdisj⟩ := List.nodup_append.mp h
  have hb : anchor ∉ before := fun hm => hdisj anchor hm anchor List.mem_cons_self rfl
  rw [List.flatMap_append, List.flatMap_cons, flatMap_of_notMem hp hb,
    flatMap_of_notMem hp (List.nodup_cons.mp hna).1]

theorem behind_of_ne {new : List NodeId} {y : NodeId} (h : y ≠ anchor) :
    behind anchor new y = [y] :=
  if_neg h

theorem ahead_of_ne {new : List NodeId} {y : NodeId} (h : y ≠ anchor) : ahead anchor new y = [y] :=
  if_neg h

/-- Trees that a document can take in. -/
structure Fresh (d : Document) (new : Forest (NodeId × Node)) : Prop where
  nodup : new.numbers.Nodup
  isLive : ∀ x ∈ new.numbers, d.isLive x = false

theorem Fresh.notMem (h : d.Fresh new) (hx : d.isLive x = true) : x ∉ new.numbers := by
  intro hm
  rw [h.isLive x hm] at hx
  cases hx

theorem Fresh.notMem_trees (h : d.Fresh new) (hx : x ∈ new.numbers) : x ∉ d.trees.numbers :=
  fun hm => h.notMem (isLive_iff.mpr hm) hx

theorem Numbered.fresh_number (hd : d.Numbered) (new : Forest Node) :
    d.Fresh (new.number d.next).1 := by
  have hnumbers := (numbers_number new d.next).1
  refine ⟨hnumbers ▸ List.nodup_range', fun x hx => ?_⟩
  rw [hnumbers, List.mem_range'_1] at hx
  rw [Bool.eq_false_iff, Ne, isLive_iff]
  exact fun hm => Nat.not_lt_of_le hx.1 (hd.lt_next x hm)

/-- A graft is a splice if each old node has the new trees in its list where `place` shows them. -/
theorem spliced_of_grafted {place : NodeId → List NodeId} (hd : d.trees.numbers.Nodup)
    (hf : d.Fresh new) {change : Forest (NodeId × Node) → Forest (NodeId × Node)}
    (hg : Grafted new d.trees e.trees)
    (hold : ∀ x, d.isLive x = true → e.find? x = (d.find? x).map fun found =>
      (found.1, change found.2))
    (htops : ∀ f : Forest (NodeId × Node), f.numbers.Nodup →
      (change f).tops.map Prod.fst = (f.tops.map Prod.fst).flatMap place)
    (hnew : ∀ x ∈ new.numbers, e.find? x = new.find? (isNode x)) : Spliced place new d e where
  nodup := by
    refine hg.perm.nodup_iff.mpr (List.nodup_append.mpr ⟨hf.nodup, hd, ?_⟩)
    rintro x hx _ hm rfl
    exact hf.notMem_trees hx hm
  isLive x := by rw [isLive_iff, hg.perm.mem_iff, List.mem_append, isLive_iff]
  node? x hx := by
    rw [Document.node?, hold x hx, Document.node?, Option.map_map]
    rfl
  ancestors x hx := by
    rw [Document.ancestors, hg.above x (hf.notMem hx), Document.ancestors]
  children x hx := by
    obtain ⟨⟨a, below⟩, ha⟩ := Option.isSome_iff_exists.mp hx
    have hb : below.numbers.Nodup := ((find?_sublist ha).map _).nodup hd
    rw [children_eq, hold x hx, ha, children_eq, ha]
    exact htops below hb
  has := has_of_find? hf.nodup hnew

theorem spliced_insertAfter (hd : d.trees.numbers.Nodup) (h : d.isLive anchor = true)
    (hf : d.Fresh new) (ht : e.trees = Forest.insertAfter (isNode anchor) new d.trees) :
    Spliced (behind anchor (new.tops.map Prod.fst)) new d e := by
  have ha := isLive_iff.mp h
  refine spliced_of_grafted hd hf (ht ▸ grafted_insertAfter hd ha) (fun x hx => ?_)
    (fun f hn => tops_insertAfter hn) fun x hx => ?_
  · rw [Document.find?, ht, find?_insertAfter hd (hf.notMem hx), Document.find?]
  · rw [Document.find?, ht, find?_insertAfter_new hd ha (hf.notMem_trees hx)]

theorem spliced_insertBefore (hd : d.trees.numbers.Nodup) (h : d.isLive anchor = true)
    (hf : d.Fresh new) (ht : e.trees = Forest.insertBefore (isNode anchor) new d.trees) :
    Spliced (ahead anchor (new.tops.map Prod.fst)) new d e := by
  have ha := isLive_iff.mp h
  refine spliced_of_grafted hd hf (ht ▸ grafted_insertBefore hd ha) (fun x hx => ?_)
    (fun f hn => tops_insertBefore hn) fun x hx => ?_
  · rw [Document.find?, ht, find?_insertBefore hd (hf.notMem hx), Document.find?]
  · rw [Document.find?, ht, find?_insertBefore_new hd ha (hf.notMem_trees hx)]

/-- The place of a node among the children of its parent. -/
theorem exists_children_split (hd : d.trees.numbers.Nodup) {parent : NodeId}
    (h : d.parent? id = some parent) :
    ∃ before after, d.children parent = before ++ id :: after :=
  List.append_of_mem ((mem_children_iff hd).mpr h)

namespace Spliced

variable {place : NodeId → List NodeId}

theorem isLive_of_isLive (h : Spliced place new d e) (hx : d.isLive x = true) :
    e.isLive x = true :=
  (h.isLive x).mpr (.inr hx)

theorem parent? (h : Spliced place new d e) (hx : d.isLive x = true) :
    e.parent? x = d.parent? x := by
  rw [Document.parent?, h.ancestors x hx, Document.parent?]

theorem isLive_new (h : Spliced place new d e) : ∀ x ∈ new.numbers, e.isLive x = true :=
  fun x hx => (h.isLive x).mpr (.inl hx)

/-- The parents are the same, and all lists but that of the place. -/
theorem sameBut (h : Spliced place new d e) (hd : d.trees.numbers.Nodup)
    (hp : ∀ y, y ≠ anchor → place y = [y]) {parent : NodeId} (ha : d.parent? anchor = some parent) :
    SameBut [] [parent] d e where
  node? x hx _ _ := h.node? x hx
  parent? x hx _ := h.parent? hx
  children x hx _ hne := by
    rw [h.children x hx, flatMap_of_notMem hp fun hm => hne ?_]
    rw [(mem_children_iff hd).mp hm] at ha
    exact List.mem_singleton.mpr (Option.some.inj ha)

/-- In the list of the place the new trees stand beside the anchor. -/
theorem children_of_split (h : Spliced place new d e) (hd : d.trees.numbers.Nodup)
    (hp : ∀ y, y ≠ anchor → place y = [y]) {parent : NodeId} {before after : List NodeId}
    (hl : d.isLive parent = true) (hc : d.children parent = before ++ anchor :: after) :
    e.children parent = before ++ (place anchor ++ after) := by
  have hn := nodup_children hd parent
  rw [h.children parent hl, hc]
  exact flatMap_of_split hp (hc ▸ hn)

/-- What new trees beside a node leave as it is, and where they are found. -/
theorem beside (h : Spliced place new d e) (hd : d.trees.numbers.Nodup)
    (hp : ∀ y, y ≠ anchor → place y = [y]) {parent : NodeId} (ha : d.parent? anchor = some parent) :
    SameBut [] [parent] d e ∧ (∀ x, d.isLive x = true → e.isLive x = true) ∧ e.Has new ∧
      (∀ x ∈ new.numbers, e.isLive x = true) ∧
      ∃ before after, d.children parent = before ++ anchor :: after ∧
        e.children parent = before ++ (place anchor ++ after) := by
  have hl := isLive_of_mem_ancestors (mem_ancestors_of_parent ha)
  obtain ⟨before, after, hc⟩ := exists_children_split hd ha
  exact ⟨h.sameBut hd hp ha, fun _ => h.isLive_of_isLive, h.has, h.isLive_new, before, after, hc,
    h.children_of_split hd hp hl hc⟩

end Spliced

/-- Trees that come in one after the other can come in together. -/
theorem Spliced.fresh_append {place : NodeId → List NodeId} {later : Forest (NodeId × Node)}
    (h : Spliced place new d e) (hf : d.Fresh new) (hl : e.Fresh later) :
    d.Fresh (later ++ new) ∧ d.Fresh (new ++ later) := by
  have hlive : ∀ x ∈ later.numbers, d.isLive x = false := fun x hx => by
    rw [Bool.eq_false_iff]
    exact fun hd => hl.notMem (h.isLive_of_isLive hd) hx
  have hdisj : ∀ x ∈ later.numbers, x ∉ new.numbers := fun x hx hm =>
    hl.notMem (h.isLive_new x hm) hx
  constructor <;> refine ⟨?_, fun x hx => ?_⟩
  · rw [numbers_append, List.nodup_append]
    exact ⟨hl.nodup, hf.nodup, fun x hx y hy he => hdisj x hx (he ▸ hy)⟩
  · rw [numbers_append, List.mem_append] at hx
    exact hx.elim (hlive x) (hf.isLive x)
  · rw [numbers_append, List.nodup_append]
    exact ⟨hf.nodup, hl.nodup, fun x hx y hy he => hdisj y hy (he ▸ hx)⟩
  · rw [numbers_append, List.mem_append] at hx
    exact hx.elim (hf.isLive x) (hlive x)

/-! ### Cuts -/

/-- A node is gone with all below it. -/
structure Shed (id : NodeId) (d e : Document) : Prop where
  isLive : ∀ x, e.isLive x = true ↔ d.isLive x = true ∧ x ≠ id ∧ id ∉ d.ancestors x
  node? : ∀ x, e.isLive x = true → e.node? x = d.node? x
  ancestors : ∀ x, e.isLive x = true → e.ancestors x = d.ancestors x
  children : ∀ x, e.isLive x = true → e.children x = (d.children x).filter (· ≠ id)

theorem shed_of_trees (hd : d.trees.numbers.Nodup) (ht : e.trees = d.without id) :
    Shed id d e := by
  have habove : ∀ x as, d.trees.above? (isNode x) = some as → e.trees.above? (isNode x) =
      if id = x ∨ id ∈ as.map Prod.fst then none else some as := fun x as has => by
    rw [ht, without, above?_erase hd has]
  have hold : ∀ x, e.isLive x = true → d.isLive x = true := fun x hx => by
    rw [isLive_iff, ht] at hx
    exact isLive_iff.mpr ((numbers_erase_sublist _ _).subset hx)
  have hfind : ∀ x, e.isLive x = true → e.find? x = (d.find? x).map fun found =>
      (found.1, found.2.erase (isNode id)) := fun x hx => by
    rw [isLive_iff, ht] at hx
    rw [Document.find?, ht]
    exact find?_erase hd hx
  have hancestors : ∀ x, e.isLive x = true →
      x ≠ id ∧ id ∉ d.ancestors x ∧ e.ancestors x = d.ancestors x := by
    intro x hx
    obtain ⟨as, has⟩ := isLive_iff_above.mp (hold x hx)
    obtain ⟨bs, hbs⟩ := isLive_iff_above.mp hx
    have hbs' := hbs
    rw [habove x as has] at hbs'
    split at hbs'
    case isTrue => cases hbs'
    case isFalse h =>
      cases hbs'
      rw [not_or] at h
      rw [ancestors_eq has, ancestors_eq hbs]
      exact ⟨Ne.symm h.1, h.2, rfl⟩
  refine ⟨fun x => ⟨fun hx => ?_, fun h => ?_⟩, fun x hx => ?_,
    fun x hx => (hancestors x hx).2.2, fun x hx => ?_⟩
  · obtain ⟨hne, ha, -⟩ := hancestors x hx
    exact ⟨hold x hx, hne, ha⟩
  · obtain ⟨hl, hne, ha⟩ := h
    obtain ⟨as, has⟩ := isLive_iff_above.mp hl
    rw [ancestors_eq has] at ha
    refine isLive_iff_above.mpr ⟨as, ?_⟩
    rw [habove x as has, if_neg (not_or.mpr ⟨hne.symm, ha⟩)]
  · rw [Document.node?, hfind x hx, Document.node?, Option.map_map]
    rfl
  · rw [children_eq, hfind x hx, children_eq]
    cases d.find? x with
    | none => rfl
    | some found => exact tops_erase found.2

namespace Shed

variable {parent : NodeId}

theorem sameBut (h : Shed id d e) (hd : d.trees.numbers.Nodup) (hp : d.parent? id = some parent) :
    SameBut [] [parent] d e where
  node? x _ hx _ := h.node? x hx
  parent? x _ hx := by rw [Document.parent?, h.ancestors x hx, Document.parent?]
  children x _ hx hne := by
    rw [h.children x hx, List.filter_eq_self]
    intro y hy
    refine decide_eq_true fun he => hne ?_
    rw [← he, (mem_children_iff hd).mp hy] at hp
    exact List.mem_singleton.mpr (Option.some.inj hp)

theorem children_of_split (h : Shed id d e) (hd : d.trees.numbers.Nodup)
    {before after : List NodeId} (hl : e.isLive parent = true)
    (hc : d.children parent = before ++ id :: after) : e.children parent = before ++ after := by
  have hn := nodup_children hd parent
  rw [hc, List.nodup_append, List.nodup_cons] at hn
  obtain ⟨-, ⟨hna, -⟩, hdisj⟩ := hn
  have hkeep : ∀ ys : List NodeId, id ∉ ys → ys.filter (· ≠ id) = ys := fun ys hys =>
    List.filter_eq_self.mpr fun y hy => decide_eq_true fun he => hys (he ▸ hy)
  rw [h.children parent hl, hc, List.filter_append, List.filter_cons_of_neg (by simp),
    hkeep after hna, hkeep before fun hm => hdisj id hm id List.mem_cons_self rfl]

end Shed

/-- A node without children is above no other. -/
theorem notMem_ancestors_of_children (hd : d.trees.numbers.Nodup) (h : d.children id = [])
    (x : NodeId) : id ∉ d.ancestors x := by
  intro hm
  rcases ((reaches_iff hd).mpr (.inr hm)).cases_head with rfl | ⟨y, hy, -⟩
  · obtain ⟨as, has⟩ := exists_above hm
    rw [ancestors_eq has] at hm
    exact (above?_of_mem hd has).1 hm
  · rw [h] at hy
    cases hy

/-! ### New values -/

theorem number_of_find? {found : (NodeId × Node) × Forest (NodeId × Node)}
    (h : d.find? x = some found) : found.1.1 = x := by
  have hp : (d.find? x).map Prod.fst = d.trees.toList.find? (isNode x) := map_fst_find? _ _
  rw [h] at hp
  exact isNode_iff.mp (List.find?_some hp.symm)

theorem sameBut_setKind {kind : Kind} (h : d.setKind id kind = .ok e) :
    (∀ x, e.isLive x = d.isLive x) ∧ SameBut [id] [] d e := by
  obtain ⟨-, rfl⟩ := setKind_ok h
  have hk : ∀ a : NodeId × Node, (a.1, Node.mk kind a.2.line).1 = a.1 := fun _ => rfl
  have hfind := fun x => find?_modify (f := d.trees) (p := isNode id) (x := x) hk
  refine ⟨fun x => ?_, fun x _ _ hne => ?_, fun x _ _ => ?_, fun x _ _ _ => ?_⟩
  · exact (congrArg Option.isSome (hfind x)).trans Option.isSome_map
  · refine (congrArg (Option.map fun found => found.1.2) (hfind x)).trans ?_
    rw [Option.map_map]
    refine Option.map_congr fun found hf => ?_
    have hid : isNode id found.1 = false := by
      rw [Bool.eq_false_iff, Ne, isNode_iff, number_of_find? hf]
      exact fun he => hne (List.mem_singleton.mpr he)
    simp only [Function.comp_apply, hid, Bool.false_eq_true, if_false]
  · have habove := above?_modify (f := d.trees) (isNode id) x hk
    have hancestors : ∀ g : Document, g.ancestors x =
        ((g.trees.above? (isNode x)).map (List.map Prod.fst)).getD [] := fun g => by
      rw [ancestors]
      cases g.trees.above? (isNode x) <;> rfl
    rw [parent?, hancestors, parent?, hancestors]
    exact congrArg (fun as => (Option.getD as []).head?) habove
  · rw [children_eq, children_eq]
    refine congrArg (fun o => Option.getD o []) ?_
    refine (congrArg (Option.map fun found => found.2.tops.map Prod.fst) (hfind x)).trans ?_
    rw [Option.map_map]
    exact Option.map_congr fun found _ => tops_modify hk found.2

/-- A declaration has a new value, and nothing else has changed. -/
structure Revalued (id : NodeId) (value : String) (d e : Document) : Prop where
  declaration : ∃ property old important line,
    d.node? id = some ⟨.declaration property old important, line⟩ ∧
      e.node? id = some ⟨.declaration property value important, line⟩
  isLive : ∀ x, e.isLive x = d.isLive x
  same : SameBut [id] [] d e

theorem revalued_setValue {old value : String} (hf : d.fontSize? id = some old)
    (he : d.setValue id value = .ok e) : Revalued id value d e := by
  obtain ⟨⟨kind, line⟩, property, important, hn, rfl, -⟩ := exists_of_fontSize? hf
  rw [setValue, kind_of_node? hn] at he
  obtain ⟨hlive, hsame⟩ := sameBut_setKind he
  refine ⟨⟨property, old, important, line, hn, ?_⟩, hlive, hsame⟩
  rw [node?_setKind he, hn]
  rfl

end Document

end ModularScale
