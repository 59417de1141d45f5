import ModularScale.Proofs.Document.Inherited

/-! # Nesting

The places in which nodes of each kind can stand. Documents whose nodes all stand where they can
are kept so by every edit that puts nodes where the node beside them could stand.
-/

namespace ModularScale

/-- What nodes can stand in. -/
inductive Site
  /-- Around the style sheet. -/
  | outside
  | sheet
  | block
  /-- Below a node without a block, where nothing can stand. -/
  | leaf
deriving DecidableEq, Repr

namespace Kind

/-- Whether a node of this kind has a block, in which others can stand. -/
def hasBlock : Kind → Bool
  | root => true
  | rule _ => true
  | atRule _ _ _ hasBlock => hasBlock
  | declaration .. => false
  | comment _ => false

/-- What the nodes below a node stand in. -/
def inside : Kind → Site
  | root => .sheet
  | rule _ => .block
  | atRule _ _ _ hasBlock => if hasBlock then .block else .leaf
  | declaration .. => .leaf
  | comment _ => .leaf

/-- Whether a node can stand there. -/
def fits : Kind → Site → Bool
  | root, site => site = .outside
  | declaration .., site => site = .block
  | _, site => site = .sheet || site = .block

variable {kind : Kind} {site : Site}

theorem not_fits_leaf (kind : Kind) : kind.fits .leaf = false := by
  cases kind <;> rfl

theorem eq_root_of_fits_outside (h : kind.fits .outside = true) : kind = root := by
  cases kind <;> simp [fits] at h ⊢

theorem inside_ne_outside (kind : Kind) : kind.inside ≠ .outside := by
  fun_cases inside kind <;> simp

theorem inside_eq_leaf (h : kind.hasBlock = false) : kind.inside = .leaf := by
  cases kind <;> simp_all [hasBlock, inside]

end Kind

namespace Forest

/-- All nodes stand where they can, the topmost ones in the given site. -/
def Nests (site : Site) (f : Forest Node) : Prop :=
  f.Along (fun _ n => n.kind.inside) (fun site n => n.kind.fits site = true) site

theorem nests_leaf {f : Forest Node} (h : f.Nests .leaf) : f = nil := by
  cases f with
  | nil => rfl
  | cons n children rest => simp [Nests, Along, Kind.not_fits_leaf] at h

theorem Nests.tops {site : Site} {f : Forest Node} (h : f.Nests site) :
    ∀ n ∈ f.tops, n.kind.fits site = true := by
  induction f with
  | nil => simp [Forest.tops]
  | cons n children rest _ ih => exact List.forall_mem_cons.mpr ⟨h.1, ih h.2.2⟩

end Forest

namespace Document

open Forest

variable {d e : Document} {id anchor parent : NodeId} {new : Forest Node} {n m : Node}

/-- A whole document whose nodes stand where they can. -/
structure Nested (d : Document) : Prop extends d.Whole where
  nests : (d.trees.map Prod.snd).Nests .outside

theorem Nested.of_edited {changed : List NodeId} {lost : Option NodeId}
    (t : Edited changed lost d e)
    (h : e.Inherits (fun _ n => n.kind.inside) (fun site n => n.kind.fits site = true) .outside) :
    e.Nested :=
  ⟨t.whole, h⟩

namespace Nested

/-- A node fits into its parent. -/
theorem fits (hd : d.Nested) (hp : d.parent? id = some parent) (hn : d.node? id = some n)
    (hm : d.node? parent = some m) : n.kind.fits m.kind.inside = true := by
  have h := (inherits_iff hd.nodup).mp hd.nests id n hn
  rw [around, hd.ancestors_of_parent hp, List.filterMap_cons_some hm] at h
  exact h

theorem node_parent (hp : d.parent? id = some parent) : ∃ m, d.node? parent = some m :=
  isLive_iff_node.mp (isLive_of_mem_ancestors (mem_ancestors_of_parent hp))

theorem kind_root (hd : d.Nested) : d.kind root = .ok .root := by
  obtain ⟨node, below, ht⟩ := hd.rooted
  have h := hd.nests
  simp only [ht, single, Forest.map, Nests, Along] at h
  have hn : d.node? root = some node := by
    rw [node?_eq_some_iff hd.nodup, ht]
    exact List.mem_cons_self
  rw [kind_of_node? hn, Kind.eq_root_of_fits_outside h.1]

theorem eq_root (hd : d.Nested) (h : d.kind id = .ok .root) : id = root := by
  by_contra hr
  obtain ⟨n, hn, hk⟩ := node?_of_kind h
  obtain ⟨parent, hp⟩ :=
    Option.isSome_iff_exists.mp (hd.parent_isSome (isLive_iff_node.mpr ⟨n, hn⟩) hr)
  obtain ⟨m, hm⟩ := node_parent hp
  have hf := hd.fits hp hn hm
  rw [hk, Kind.fits, decide_eq_true_eq] at hf
  exact m.kind.inside_ne_outside hf

theorem nests_below (hd : d.Nested) {a : NodeId × Node} {below : Forest (NodeId × Node)}
    (hf : d.find? id = some (a, below)) : (below.map Prod.snd).Nests a.2.kind.inside := by
  obtain ⟨_, -, h⟩ := Inherits.of_find? hd.nests hf
  exact h

theorem setKind (hd : d.Nested) {kind : Kind} (he : d.setKind id kind = .ok e)
    (hk : ∀ n, d.node? id = some n →
      kind.inside = n.kind.inside ∧ ∀ site, n.kind.fits site = true → kind.fits site = true) :
    e.Nested := by
  refine .of_edited (hd.toWhole.setKind he).1 (Inherits.setKind hd.nests hd.nodup he ?_)
  intro n hn site hp
  exact ⟨(hk n hn).2 site hp, (hk n hn).1⟩

theorem setValue (hd : d.Nested) {value : String} (he : d.setValue id value = .ok e) :
    e.Nested := by
  unfold Document.setValue at he
  split at he
  case h_1 => cases he
  case h_2 property old important hk =>
    obtain ⟨n, hn, hk⟩ := node?_of_kind hk
    refine hd.setKind he fun m hm => ?_
    obtain rfl : n = m := Option.some.inj (hn.symm.trans hm)
    rw [hk]
    exact ⟨rfl, fun _ h => h⟩
  case h_3 => cases he; exact hd

theorem insertNewAfter (hd : d.Nested) (he : d.insertNewAfter anchor new = .ok e)
    (hn : ∀ n, d.node? anchor = some n → ∀ site, n.kind.fits site = true → new.Nests site) :
    e.Nested :=
  .of_edited (hd.toWhole.insertNewAfter he).1 (Inherits.insertNewAfter hd.nests hd.nodup he hn)

theorem insertNewBefore (hd : d.Nested) (he : d.insertNewBefore anchor new = .ok e)
    (hn : ∀ n, d.node? anchor = some n → ∀ site, n.kind.fits site = true → new.Nests site) :
    e.Nested :=
  .of_edited (hd.toWhole.insertNewBefore he).1 (Inherits.insertNewBefore hd.nests hd.nodup he hn)

theorem remove (hd : d.Nested) (he : d.remove id = .ok e) : e.Nested :=
  .of_edited (hd.toWhole.remove he).1 (Inherits.remove hd.nests he)

theorem replaceWithNew (hd : d.Nested) (he : d.replaceWithNew id n = .ok e)
    (hn : ∀ m, d.node? id = some m → ∀ site, m.kind.fits site = true →
      n.kind.fits site = true) : e.Nested :=
  .of_edited (hd.toWhole.replaceWithNew he).1 (Inherits.replaceWithNew hd.nests hd.nodup he hn)

end Nested

end Document

end ModularScale
