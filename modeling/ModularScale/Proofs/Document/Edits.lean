import ModularScale.Proofs.Document.Moving

/-! # Sequences of edits

Whatever edits are made one after the other, on nodes that are there or not, the nodes of a document
make up an ordered forest, and a removed node is never found again.
-/

namespace ModularScale

namespace Forest

open Document

variable {α : Type u} {f : Forest (NodeId × Node)} {id parent : NodeId}

theorem tops_sublist (f : Forest α) : f.tops.Sublist f.toList := by
  induction f with
  | nil => exact .slnil
  | cons a children rest _ ih => exact (ih.trans (List.sublist_append_right _ _)).cons_cons a

theorem find?_sublist {p : α → Bool} {f below : Forest α} {a : α}
    (h : f.find? p = some (a, below)) : below.toList.Sublist f.toList := by
  induction f with
  | nil => cases h
  | cons b children rest ihc ihr =>
    unfold find? at h
    split at h
    · cases h
      exact (List.sublist_append_left _ _).cons _
    · rcases Option.or_eq_some_iff.mp h with h | ⟨-, h⟩
      · exact ((ihc h).trans (List.sublist_append_left _ _)).cons _
      · exact ((ihr h).trans (List.sublist_append_right _ _)).cons _

/-- The topmost nodes are those with none above them. -/
theorem mem_tops_iff (hn : f.numbers.Nodup) :
    id ∈ f.tops.map Prod.fst ↔ f.above? (isNode id) = some [] := by
  constructor
  · induction f with
    | nil => exact nofun
    | cons a children rest _ ih =>
      obtain ⟨-, -, -, hnr, -⟩ := nodup_cons hn
      rintro (_ | ⟨_, h⟩)
      · exact above?_cons_of_eq rfl
      · exact above?_cons_beside hn (ih hnr h)
  · intro h
    obtain ⟨before, node, below, after, rfl⟩ := exists_of_top h
    simp [single, tops]

/-- The nodes right below a node are those whose nearest node above is this one. -/
theorem mem_below_iff (hn : f.numbers.Nodup) :
    (∃ a below, f.find? (isNode parent) = some (a, below) ∧ id ∈ below.tops.map Prod.fst) ↔
      ∃ a as, f.above? (isNode id) = some (a :: as) ∧ a.1 = parent := by
  induction f with
  | nil => simp [find?, above?]
  | cons b children rest ihc ihr =>
    obtain ⟨-, -, hnc, hnr, -⟩ := nodup_cons hn
    constructor
    · rintro ⟨a, below, hf, hm⟩
      by_cases hp : b.1 = parent
      · -- the parent comes first, and the node is on top of what is below it
        rw [find?_cons_of_eq hp] at hf
        cases hf
        exact ⟨b, [], above?_cons_below hn ((mem_tops_iff hnc).mp hm), hp⟩
      · rw [find?_cons_of_ne hp] at hf
        rcases Option.or_eq_some_iff.mp hf with hf | ⟨-, hf⟩
        · obtain ⟨c, as, has, hc⟩ := (ihc hnc).mp ⟨a, below, hf, hm⟩
          exact ⟨c, as ++ [b], above?_cons_below hn has, hc⟩
        · obtain ⟨c, as, has, hc⟩ := (ihr hnr).mp ⟨a, below, hf, hm⟩
          exact ⟨c, as, above?_cons_beside hn has, hc⟩
    · rintro ⟨a, as, has, rfl⟩
      obtain ⟨-, hnil⟩ | ⟨-, bs, hbs, hcons⟩ | ⟨-, -, has⟩ := above?_cons_cases has
      · cases hnil
      · cases bs with
        | nil =>
          cases hcons
          exact ⟨b, children, find?_cons_of_eq rfl, (mem_tops_iff hnc).mpr hbs⟩
        | cons c bs =>
          cases hcons
          have hc : a.1 ∈ children.numbers :=
            List.mem_map_of_mem (above?_subset hbs List.mem_cons_self)
          obtain ⟨n, below, hf, hm⟩ := (ihc hnc).mpr ⟨a, bs, hbs, rfl⟩
          exact ⟨n, below, (find?_cons_below hn hc).trans hf, hm⟩
      · have hr : a.1 ∈ rest.numbers :=
          List.mem_map_of_mem (above?_subset has List.mem_cons_self)
        obtain ⟨n, below, hf, hm⟩ := (ihr hnr).mpr ⟨a, as, has, rfl⟩
        exact ⟨n, below, (find?_cons_beside hn hr).trans hf, hm⟩

end Forest

namespace Document

open Forest

variable {d e : Document} {id parent x : NodeId}

theorem mem_children_iff (hn : d.trees.numbers.Nodup) :
    id ∈ d.children parent ↔ d.parent? id = some parent := by
  have h : (∃ a below, d.trees.find? (isNode parent) = some (a, below) ∧
      id ∈ below.tops.map Prod.fst) ↔ ∃ a as, _ := mem_below_iff hn
  constructor
  · intro hm
    unfold children at hm
    split at hm
    case h_1 a below hf =>
      obtain ⟨b, as, has, rfl⟩ := h.mp ⟨a, below, hf, hm⟩
      rw [parent?, ancestors_eq has]
      rfl
    case h_2 => cases hm
  · intro hp
    obtain ⟨as, has⟩ := isLive_iff_above.mp (isLive_of_parent hp)
    rw [parent?, ancestors_eq has] at hp
    cases as with
    | nil => cases hp
    | cons a as =>
      obtain ⟨b, below, hf, hm⟩ := h.mpr ⟨a, as, has, by simpa using hp⟩
      simpa [children, Document.find?, hf] using hm

theorem nodup_children (hn : d.trees.numbers.Nodup) (id : NodeId) : (d.children id).Nodup := by
  unfold children
  split
  case h_1 a below hf =>
    exact (((tops_sublist below).trans (find?_sublist hf)).map _).nodup hn
  case h_2 => exact List.nodup_nil

theorem ancestors_of_parent_eq_none (h : d.parent? id = none) : d.ancestors id = [] :=
  List.head?_eq_none_iff.mp h

/-- The nodes make up an ordered forest. The lists of children and the parents tell the same, the
nodes above a node are those that its parents lead to, and the root is one of the topmost nodes. -/
structure IsForest (d : Document) : Prop where
  lt_next : ∀ id, d.isLive id = true → id < d.next
  nodup_children : ∀ id, (d.children id).Nodup
  isLive_children : ∀ id, ∀ child ∈ d.children id, d.isLive child = true
  mem_children_iff : ∀ id child, child ∈ d.children id ↔ d.parent? child = some id
  ancestors_eq : ∀ id, d.ancestors id =
    match d.parent? id with
    | some parent => parent :: d.ancestors parent
    | none => []
  notMem_ancestors : ∀ id, id ∉ d.ancestors id
  isLive_root : d.isLive root = true
  parent_root : d.parent? root = none

namespace Rooted

theorem isForest (hd : d.Rooted) : d.IsForest where
  lt_next id h := hd.lt_next id (isLive_iff.mp h)
  nodup_children := Document.nodup_children hd.nodup
  isLive_children id child h := isLive_of_parent ((Document.mem_children_iff hd.nodup).mp h)
  mem_children_iff id child := Document.mem_children_iff hd.nodup
  ancestors_eq id := by
    cases hp : d.parent? id with
    | none => exact ancestors_of_parent_eq_none hp
    | some parent => exact ancestors_of_parent hd.nodup hp
  notMem_ancestors id h := by
    obtain ⟨as, has⟩ := exists_above h
    rw [Document.ancestors_eq has] at h
    exact (above?_of_mem hd.nodup has).1 h
  isLive_root := isLive_iff.mpr hd.mem_root
  parent_root := by
    rw [parent?, Document.ancestors_eq hd.top]
    rfl

end Rooted

/-- One change of a document. -/
inductive Edit
  | create (node : Node)
  | setKind (id : NodeId) (kind : Kind)
  | append (parent child : NodeId)
  | insertBefore (anchor id : NodeId)
  | insertAfter (anchor id : NodeId)
  | remove (id : NodeId)
  | replace (old new : NodeId)
  | addChild (parent : NodeId) (kind : Kind)
deriving DecidableEq, Repr

namespace Edit

/-- The node that is moved to another place. -/
def moved? : Edit → Option NodeId
  | append _ child => some child
  | insertBefore _ id => some id
  | insertAfter _ id => some id
  | replace _ new => some new
  | create _ => none
  | setKind _ _ => none
  | remove _ => none
  | addChild _ _ => none

def result (d : Document) : Edit → Except TreeError Document
  | create node => .ok (d.create node).2
  | setKind id kind => d.setKind id kind
  | append parent child => d.append parent child
  | insertBefore anchor id => d.insertBefore anchor id
  | insertAfter anchor id => d.insertAfter anchor id
  | remove id => d.remove id
  | replace old new => d.replace old new
  | addChild parent kind => (d.addChild parent kind).map Prod.snd

/-- What an edit that fails leaves behind. A child that cannot be put in its place has been made all
the same. -/
def leftover (d : Document) : Edit → Document
  | addChild _ kind => (d.create (.made kind)).2
  | _ => d

/-- The document after an edit, which may fail. -/
def perform (d : Document) (edit : Edit) : Document :=
  match edit.result d with
  | .ok e => e
  | .error _ => edit.leftover d

theorem exists_addChild {parent : NodeId} {kind : Kind}
    (h : (addChild parent kind).result d = .ok e) : ∃ id, d.addChild parent kind = .ok (id, e) := by
  rw [result] at h
  cases hc : d.addChild parent kind with
  | error fault =>
    rw [hc] at h
    cases h
  | ok made =>
    rw [hc] at h
    cases h
    exact ⟨made.1, rfl⟩

end Edit

/-- No node is found in a later document that was gone in an earlier one. -/
structure Onward (d e : Document) : Prop where
  next_le : d.next ≤ e.next
  isLive : ∀ id < d.next, e.isLive id = true → d.isLive id = true

namespace Onward

theorem refl (d : Document) : Onward d d :=
  ⟨Nat.le_refl _, fun _ _ h => h⟩

theorem trans {e' : Document} (h : Onward d e) (h' : Onward e e') : Onward d e' where
  next_le := Nat.le_trans h.next_le h'.next_le
  isLive id hid hl := h.isLive id hid (h'.isLive id (Nat.lt_of_lt_of_le hid h.next_le) hl)

theorem of_subset {trees : Forest (NodeId × Node)} (h : trees.numbers ⊆ d.trees.numbers) :
    Onward d { d with trees := trees } where
  next_le := Nat.le_refl _
  isLive _ _ hl := isLive_iff.mpr (h (isLive_iff.mp hl))

theorem create (d : Document) (node : Node) : Onward d (d.create node).2 where
  next_le := Nat.le_succ _
  isLive id hid hl := by
    have hm : id ∈ (d.trees ++ Forest.single (d.next, node) .nil).numbers := isLive_iff.mp hl
    rw [numbers_append, List.mem_append] at hm
    rcases hm with hm | hm
    · exact isLive_iff.mpr hm
    · have he : id = d.next := by simpa [single] using hm
      exact absurd he (Nat.ne_of_lt hid)

/-- A node that is taken out and put back elsewhere brings no others along. -/
theorem move {anchor : NodeId} {grafted : Forest (NodeId × Node)} (hd : d.Rooted)
    (hg : anchor ∈ (d.without x).numbers → Grafted (d.subtree x) (d.without x) grafted)
    (hn : anchor ∉ (d.without x).numbers → grafted = d.without x) :
    Onward d { d with trees := grafted } := by
  apply of_subset
  by_cases h : anchor ∈ (d.without x).numbers
  · intro id hid
    exact (perm_subtree hd.nodup x).mem_iff.mpr ((hg h).perm.mem_iff.mp hid)
  · rw [hn h]
    exact (numbers_erase_sublist _ _).subset

theorem cut (d : Document) (x : NodeId) : Onward d { d with trees := d.without x } :=
  of_subset (numbers_erase_sublist _ _).subset

end Onward

namespace Rooted

variable {anchor : NodeId} {kind : Kind}

theorem nodup_without (hd : d.Rooted) (x : NodeId) : (d.without x).numbers.Nodup :=
  (numbers_erase_sublist _ _).nodup hd.nodup

theorem onward_append (hd : d.Rooted) (h : d.append parent id = .ok e) : Onward d e := by
  rw [append_ok h]
  exact .move hd (grafted_appendTo (hd.nodup_without id)) appendTo_of_notMem

theorem onward_insertBefore (hd : d.Rooted) (h : d.insertBefore anchor id = .ok e) :
    Onward d e := by
  rw [insertBefore_ok h]
  exact .move hd (grafted_insertBefore (hd.nodup_without id)) insertBefore_of_notMem

theorem onward_insertAfter (hd : d.Rooted) (h : d.insertAfter anchor id = .ok e) :
    Onward d e := by
  rw [insertAfter_ok h]
  exact .move hd (grafted_insertAfter (hd.nodup_without id)) insertAfter_of_notMem

theorem onward_setKind (h : d.setKind id kind = .ok e) : Onward d e := by
  obtain ⟨-, rfl⟩ := setKind_ok h
  apply Onward.of_subset
  rw [numbers_modify (isNode id) (g := fun a => (a.1, Node.mk kind a.2.line)) fun _ => rfl]
  exact List.Subset.refl _

/-- Each edit keeps the root a topmost node, and a node that is gone stays so. -/
theorem perform (hd : d.Rooted) {edit : Edit} (hm : edit.moved? ≠ some root) :
    (edit.perform d).Rooted ∧ Onward d (edit.perform d) := by
  unfold Edit.perform
  split
  case h_1 e h =>
    cases edit with
    | create node =>
      cases h
      exact ⟨hd.create node, .create d node⟩
    | setKind id kind => exact ⟨hd.setKind h, onward_setKind h⟩
    | append parent child =>
      have hx : child ≠ root := fun he => hm (congrArg some he)
      exact ⟨hd.append hx h, hd.onward_append h⟩
    | insertBefore anchor id =>
      have hx : id ≠ root := fun he => hm (congrArg some he)
      exact ⟨hd.insertBefore hx h, hd.onward_insertBefore h⟩
    | insertAfter anchor id =>
      have hx : id ≠ root := fun he => hm (congrArg some he)
      exact ⟨hd.insertAfter hx h, hd.onward_insertAfter h⟩
    | remove id =>
      refine ⟨hd.remove h, ?_⟩
      obtain ⟨-, -, rfl⟩ := remove_ok h
      exact .cut d id
    | replace old new =>
      have hx : new ≠ root := fun he => hm (congrArg some he)
      refine ⟨hd.replace hx h, ?_⟩
      obtain ⟨-, d', hd', rfl⟩ := replace_ok h
      exact (hd.onward_insertBefore hd').trans (.cut d' old)
    | addChild parent kind =>
      obtain ⟨id, hc⟩ := Edit.exists_addChild h
      refine ⟨hd.addChild hc, ?_⟩
      obtain ⟨-, ha⟩ := addChild_ok hc
      exact (Onward.create d _).trans ((hd.create _).onward_append ha)
  case h_2 e h =>
    cases edit with
    | addChild parent kind => exact ⟨hd.create _, .create d _⟩
    | _ => exact ⟨hd, .refl d⟩

theorem foldl_perform (hd : d.Rooted) {edits : List Edit}
    (hm : ∀ edit ∈ edits, edit.moved? ≠ some root) :
    (edits.foldl Edit.perform d).Rooted ∧ Onward d (edits.foldl Edit.perform d) := by
  induction edits generalizing d with
  | nil => exact ⟨hd, .refl d⟩
  | cons edit edits ih =>
    obtain ⟨hedit, hedits⟩ := List.forall_mem_cons.mp hm
    obtain ⟨h, o⟩ := hd.perform hedit
    obtain ⟨h', o'⟩ := ih h hedits
    exact ⟨h', o.trans o'⟩

end Rooted

namespace Built

theorem perform (h : Built d) {edit : Edit} (hm : edit.moved? ≠ some root) :
    Built (edit.perform d) := by
  unfold Edit.perform
  split
  case h_1 e he =>
    cases edit with
    | create node => cases he; exact h.create node
    | setKind id kind => exact h.setKind he
    | append parent child => exact h.append (fun hx => hm (congrArg some hx)) he
    | insertBefore anchor id => exact h.insertBefore (fun hx => hm (congrArg some hx)) he
    | insertAfter anchor id => exact h.insertAfter (fun hx => hm (congrArg some hx)) he
    | remove id => exact h.remove he
    | replace old new => exact h.replace (fun hx => hm (congrArg some hx)) he
    | addChild parent kind =>
      obtain ⟨id, hc⟩ := Edit.exists_addChild he
      exact h.addChild hc
  case h_2 =>
    cases edit with
    | addChild parent kind => exact h.create _
    | _ => exact h

/-- Edits that do not move the root build a document, whether they succeed or fail. -/
theorem foldl_perform (h : Built d) {edits : List Edit}
    (hm : ∀ edit ∈ edits, edit.moved? ≠ some root) : Built (edits.foldl Edit.perform d) := by
  induction edits generalizing d with
  | nil => exact h
  | cons edit edits ih =>
    obtain ⟨hedit, hedits⟩ := List.forall_mem_cons.mp hm
    exact ih (h.perform hedit) hedits

end Built

/-- After any edits that do not move the root the nodes of a document make up a forest, in which no
node is found that was gone after some of the edits. -/
theorem isForest_of_edits (edits : List Edit) (h : ∀ edit ∈ edits, edit.moved? ≠ some root) :
    (edits.foldl Edit.perform empty).IsForest ∧ ∀ earlier later, edits = earlier ++ later →
      ∀ id < (earlier.foldl Edit.perform empty).next,
        (earlier.foldl Edit.perform empty).isLive id = false →
          (edits.foldl Edit.perform empty).isLive id = false := by
  have hd : empty.Rooted := (ofForest_whole .nil).toRooted
  constructor
  · exact (hd.foldl_perform h).1.isForest
  · rintro earlier later rfl id hid hgone
    rw [List.forall_mem_append] at h
    obtain ⟨hr, -⟩ := hd.foldl_perform h.1
    obtain ⟨-, o⟩ := hr.foldl_perform h.2
    rw [List.foldl_append, Bool.eq_false_iff]
    intro hl
    rw [o.isLive id hid hl] at hgone
    cases hgone

/-- A rule takes the place of the one around it, which is gone from then on, also after it was to be
put below the other again. -/
theorem isForest_of_swap :
    let rule (selector : String) := Edit.create (.made (.rule selector))
    let edits := [rule ".x", rule "&:hover", .append root 1, .append 1 2, .append 2 1,
      .replace 1 2, .append 2 1, .addChild 2 (.comment "")]
    (∀ edit ∈ edits, edit.moved? ≠ some root) ∧ (edits.foldl Edit.perform empty).IsForest ∧
      (edits.foldl Edit.perform empty).isLive 1 = false ∧
      (edits.foldl Edit.perform empty).children root = [2] := by
  intro rule edits
  have hm : ∀ edit ∈ edits, edit.moved? ≠ some root := by decide
  obtain ⟨hf, hgone⟩ := isForest_of_edits edits hm
  have hcut : edits = edits.take 6 ++ edits.drop 6 := rfl
  exact ⟨hm, hf, hgone _ _ hcut 1 (by decide) (by decide), by decide⟩

end Document

end ModularScale
