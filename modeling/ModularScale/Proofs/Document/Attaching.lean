import ModularScale.Proofs.Css.CursorReading
import ModularScale.Proofs.Document.Amid
import ModularScale.Proofs.Document.Reach

/-! # Attaching what is read

A style sheet becomes a document node by node: each is made apart, put behind the children that its
parent has so far, and then gets its own children. No node fails to be put in its place.
-/

namespace ModularScale

open Document (isNode)

namespace Forest

variable {f g : Forest (NodeId × Node)} {id parent : NodeId}

theorem appendTo_nil (p : NodeId × Node → Bool) (f : Forest (NodeId × Node)) :
    appendTo p nil f = f := by
  induction f with
  | nil => rfl
  | cons a c r ihc ihr => simp [appendTo, ihc, ihr]

theorem appendTo_appendTo (p : NodeId × Node → Bool) (new later f : Forest (NodeId × Node)) :
    appendTo p later (appendTo p new f) = appendTo p (new ++ later) f := by
  induction f with
  | nil => rfl
  | cons a c r ihc ihr =>
    cases h : p a with
    | true => simp [appendTo, h, append_assoc]
    | false => simp [appendTo, h, ihc, ihr]

/-- Children are put below the last tree if its top is the node that gets them. -/
theorem appendTo_append_single (h : id ∉ f.numbers) (node : Node)
    (children : Forest (NodeId × Node)) :
    appendTo (isNode id) children (f ++ single (id, node) nil) =
      f ++ single (id, node) children := by
  induction f with
  | nil => simp [appendTo, isNode, single]
  | cons a c r ihc ihr =>
    rw [numbers_cons, List.mem_cons, List.mem_append, not_or, not_or] at h
    have ha : isNode id a = false := by simpa [isNode] using Ne.symm h.1
    rw [cons_append, appendTo, ha, ihr h.2.2, appendTo_of_notMem h.2.1]
    rfl

/-- Children that are put below a new node are put in place together with it. -/
theorem appendTo_single (h : id ∉ f.numbers) (node : Node) (children : Forest (NodeId × Node)) :
    appendTo (isNode id) children (appendTo (isNode parent) (single (id, node) nil) f) =
      appendTo (isNode parent) (single (id, node) children) f := by
  induction f with
  | nil => rfl
  | cons a c r ihc ihr =>
    rw [numbers_cons, List.mem_cons, List.mem_append, not_or, not_or] at h
    obtain ⟨hne, hc, hr⟩ := h
    have ha : isNode id a = false := by simpa [isNode] using Ne.symm hne
    rw [appendTo, appendTo]
    split
    case isTrue => rw [appendTo, ha, appendTo_append_single hc, appendTo_of_notMem hr]; rfl
    case isFalse => rw [appendTo, ha, ihc hc, ihr hr]; rfl

end Forest

namespace Document

open Forest

variable {d e : Document} {id parent : NodeId}

/-- Makes nodes behind the children of another, and fails at the first one that cannot be put in its
place. -/
def attach (d : Document) (parent : NodeId) : Forest Node → Except TreeError Document
  | .nil => .ok d
  | .cons node children rest => do
    let (id, d) := d.create node
    let d ← d.append parent id
    let d ← d.attach id children
    d.attach parent rest

/-- A new node can be put below any other. -/
theorem append_create (hd : d.Numbered) (hp : parent ∈ d.trees.numbers) (node : Node) :
    (d.create node).2.append parent d.next =
      .ok ⟨appendTo (isNode parent) (.single (d.next, node) .nil) d.trees, d.next + 1⟩ := by
  have hnext := hd.next_notMem
  have hself : isNode d.next (d.next, node) = true := by simp [isNode]
  have hfind : (d.create node).2.find? d.next = some ((d.next, node), .nil) := by
    rw [Document.find?, create, find?_append, find?_eq_none_of_notMem hnext, single, Forest.find?,
      hself]
    rfl
  have hwithout : (d.create node).2.without d.next = d.trees := by
    rw [without, create, erase_append, erase_of_notMem hnext, single, erase, hself]
    simp [erase]
  have hlive : (d.create node).2.isLive parent = true := by
    rw [isLive_iff, create, numbers_append]
    exact List.mem_append_left _ hp
  have habove : ((d.create node).2.ancestors parent).contains d.next = false := by
    obtain ⟨as, has⟩ := Option.isSome_iff_exists.mp (mem_numbers_iff_above.mp hp)
    have h : (d.create node).2.trees.above? (isNode parent) = some as := by
      rw [create, above?_append, has]
      rfl
    rw [ancestors_eq h, List.contains_eq_mem, decide_eq_false_iff_not]
    exact fun hm => hnext (List.map_subset _ (above?_subset has) hm)
  have hne : d.next ≠ parent := Nat.ne_of_gt (hd.lt_next _ hp)
  have hnew : (d.create node).2.isLive d.next = true := by rw [isLive, hfind]; rfl
  have hsub : (d.create node).2.subtree d.next = .single (d.next, node) .nil := by
    rw [subtree, hfind]
  simp only [append, checkMove, checkLive, hlive, hnew, hne, habove, hwithout, hsub]
  rfl

theorem mem_appendTo_iff (hd : d.Rooted) (hp : parent ∈ d.trees.numbers)
    (new : Forest (NodeId × Node)) : id ∈ (appendTo (isNode parent) new d.trees).numbers ↔
      id ∈ new.numbers ∨ id ∈ d.trees.numbers := by
  rw [(grafted_appendTo hd.nodup hp).perm.mem_iff, List.mem_append]

/-- New nodes can be put below any other, with all their children. -/
theorem attach_eq (hd : d.Rooted) (hp : parent ∈ d.trees.numbers) (new : Forest Node) :
    d.attach parent new =
      .ok ⟨appendTo (isNode parent) (new.number d.next).1 d.trees, (new.number d.next).2⟩ := by
  induction new generalizing d parent with
  | nil => rw [attach, number, appendTo_nil]
  | cons node children rest ihc ihr =>
    have hrooted : ∀ children, Rooted ⟨appendTo (isNode parent)
        (Forest.number d.next (.single node children)).1 d.trees, _⟩ := fun children =>
      hd.graft_new (grafted_appendTo hd.nodup hp)
    have hnext :
        d.next ∈ (appendTo (isNode parent) (.single (d.next, node) .nil) d.trees).numbers :=
      (mem_appendTo_iff hd hp _).mpr (.inl List.mem_cons_self)
    have hchildren := ihc (hrooted .nil) hnext
    have hrest := ihr (hrooted children) ((mem_appendTo_iff hd hp _).mpr (.inr hp))
    dsimp only [single, number] at hchildren hrest
    rw [← single, appendTo_single hd.numbered.next_notMem] at hchildren
    rw [appendTo_appendTo] at hrest
    calc d.attach parent (.cons node children rest)
        = (d.create node).2.append parent d.next >>= fun d' =>
            d'.attach d.next children >>= fun e => e.attach parent rest := rfl
      _ = attach ⟨appendTo (isNode parent) (.single (d.next, node) .nil) d.trees, d.next + 1⟩ d.next
            children >>= fun e => e.attach parent rest := by rw [append_create hd.numbered hp]; rfl
      _ = attach ⟨appendTo (isNode parent) (.single (d.next, node)
            (children.number (d.next + 1)).1) d.trees, (children.number (d.next + 1)).2⟩ parent
              rest := by rw [hchildren]; rfl
      _ = _ := hrest

/-- Attached to an empty document, the nodes make up a whole one. -/
theorem attach_empty (items : Forest Node) : empty.attach root items = .ok (ofForest items) :=
  attach_eq (ofForest_whole .nil).toRooted List.mem_cons_self items

open Css Css.Cursor in
/-- Reading a text ends, and nothing of it is left. The tokens make up the text, and each takes a
character at least. Each round ends, and is further on by a token at least unless its level ends
there, whether or not an item was read twice. A reader of a level goes on up to the end of all that
stands in it, which for the sheet is the end of the text. What was read of the text is put in its
place node by node, and never fails to be. -/
theorem attach_ofText (text : String) :
    ((Css.lexemes 1 text.toList).flatMap Lexeme.text = text.toList ∧
      ∀ l ∈ Css.lexemes 1 text.toList, l.text ≠ []) ∧
    (∀ ls, (takeComments ls).2 <:+ ls ∧
      ∀ l left, (takeComments ls).2 = l :: left → l.token.isGap = false) ∧
    (∀ level ls rounds, ls.length ≤ rounds →
      ∃ r, round (read rounds .block) level ls = some r ∧ r.MovesOn level ls) ∧
    (∀ level ls rounds, ls.length < rounds → read rounds level ls =
      some (level.read false (content level.bracket? ls), ending level.bracket? ls)) ∧
    (∀ (level : Level) ls, (content level.bracket? ls).lexemes ++ ending level.bracket? ls = ls ∧
      level.isEnd (ending level.bracket? ls) = true) ∧
    (∀ rounds, (Css.lexemes 1 text.toList).length < rounds →
      read rounds (.sheet true) (Css.lexemes 1 text.toList) = some (.ofText text, [])) ∧
    empty.attach root (Sheet.ofText text).items = .ok (ofSheet (.ofText text)) := by
  refine ⟨⟨flatMap_text_lexemes 1 _, fun l => text_ne_nil_of_mem_lexemes⟩,
    fun ls => ⟨takeComments_suffix ls, fun _ _ => isGap_takeComments⟩,
    fun level ls rounds => exists_round level, fun level ls rounds => read_eq,
    fun level ls => ⟨lexemes_content _ ls, isEnd_ending level ls⟩, fun rounds h => ?_,
    attach_empty _⟩
  rw [read_eq h, Level.bracket?, ending_none]
  rfl

end Document

end ModularScale
