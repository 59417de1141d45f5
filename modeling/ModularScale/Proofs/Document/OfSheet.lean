import ModularScale.Proofs.Css.Reading
import ModularScale.Proofs.Document.Nesting

/-! # Documents of style sheets

A document made of a style sheet is whole, and all nodes of a sheet that was read stand where they
can.
-/

namespace ModularScale

namespace Forest

/-- Only nodes with a block have children. -/
def InBlocks : Forest Node → Prop
  | nil => True
  | cons node children rest =>
    (node.kind.hasBlock = false → children = nil) ∧ children.InBlocks ∧ rest.InBlocks

theorem Nests.inBlocks {site : Site} {f : Forest Node} (h : f.Nests site) : f.InBlocks := by
  induction f generalizing site with
  | nil => trivial
  | cons node children rest ihc ihr =>
    obtain ⟨-, hc, hr⟩ := h
    refine ⟨fun hb => nests_leaf ?_, ihc hc, ihr hr⟩
    rwa [← Kind.inside_eq_leaf hb]

/-- The nearest node above another has a block. -/
theorem InBlocks.hasBlock_of_above? {f : Forest (NodeId × Node)} (hf : (f.map Prod.snd).InBlocks)
    {p : NodeId × Node → Bool} {a : NodeId × Node} {as : List (NodeId × Node)}
    (h : f.above? p = some (a :: as)) : a.2.kind.hasBlock = true := by
  induction f generalizing a as with
  | nil => cases h
  | cons b below rest ihb ihr =>
    obtain ⟨hb, hc, hr⟩ := hf
    unfold above? at h
    split at h
    · cases h
    · rcases Option.or_eq_some_iff.mp h with h | ⟨-, h⟩
      · obtain ⟨bs, ha, hs⟩ := Option.map_eq_some_iff.mp h
        cases bs with
        | cons => cases hs; exact ihb hc ha
        | nil =>
          cases hs
          rw [← Bool.not_eq_false]
          intro hn
          cases below with
          | nil => cases ha
          | cons => cases hb hn
      · exact ihr hr h

end Forest

namespace Css

open Components

variable {name : List Char} {line : Nat} {stop : Stop} {cs : Components}

/-- An item without a block has no content. -/
def Components.Item.Closed (item : Item) : Prop :=
  ∀ kind, item.kind = some kind → kind.hasBlock = false → item.content = nil

theorem atRuleItem_closed : (atRuleItem name cs).Closed := by
  rintro _ ⟨⟩ hk
  simp only [Kind.hasBlock, atRule, Option.isSome_eq_false_iff, Option.isNone_iff_eq_none] at hk
  simp [atRuleItem, hk]

theorem ruleItem_closed : (ruleItem stop cs).Closed := by
  intro kind hk hb
  obtain ⟨_, -, rfl⟩ := Option.map_eq_some_iff.mp hk
  cases hb

theorem bodyItem_closed : (bodyItem cs).Closed := by
  unfold bodyItem
  split
  · exact atRuleItem_closed
  · split
    · exact fun _ _ _ => rfl
    · exact ruleItem_closed
  · exact ruleItem_closed

theorem sheetItem_closed : (sheetItem cs).Closed := by
  unfold sheetItem
  split
  · exact atRuleItem_closed
  · split
    · exact fun _ _ _ => rfl
    · exact ruleItem_closed
  · exact ruleItem_closed

theorem bodyItem_fits {kind : Kind} (h : (bodyItem cs).kind = some kind) :
    kind.fits .block = true := by
  unfold bodyItem at h
  split at h
  · cases h; rfl
  · split at h
    · cases h; rfl
    · obtain ⟨_, -, rfl⟩ := Option.map_eq_some_iff.mp h; rfl
  · obtain ⟨_, -, rfl⟩ := Option.map_eq_some_iff.mp h; rfl

theorem sheetItem_fits {kind : Kind} (h : (sheetItem cs).kind = some kind) :
    kind.fits .sheet = true := by
  unfold sheetItem at h
  split at h
  · cases h; rfl
  · split at h
    · cases h
    · obtain ⟨_, -, rfl⟩ := Option.map_eq_some_iff.mp h; rfl
  · obtain ⟨_, -, rfl⟩ := Option.map_eq_some_iff.mp h; rfl

/-- An item that is not a root has its content in a block or has none. -/
theorem Sheet.consItem_nests {item : Item} {site : Site} {rest : Sheet} (hi : item.Closed)
    (hf : ∀ kind, item.kind = some kind → kind.fits site = true) (hp : site ≠ .outside)
    (hc : (readBody false item.content).items.Nests .block) (hr : rest.items.Nests site) :
    (consItem item.kind line (readBody false item.content) rest).items.Nests site := by
  cases hk : item.kind with
  | none => exact hr
  | some kind =>
    have hkind := hf kind hk
    refine ⟨hkind, ?_, hr⟩
    show (readBody false item.content).items.Nests kind.inside
    cases hb : kind.hasBlock with
    | false =>
      rw [hi kind hk hb, readBody_nil]
      trivial
    | true =>
      have hin : kind.inside = .block := by
        cases kind with
        | root => exact absurd (by simpa [Kind.fits] using hkind) hp
        | rule => rfl
        | atRule name params afterName hasBlock => exact if_pos hb
        | declaration => cases hb
        | comment => cases hb
      rwa [hin]

theorem readBody_nests (stray : Bool) (cs : Components) : (readBody stray cs).items.Nests .block := by
  fun_induction readBody stray cs with
  | case1 => trivial
  | case2 => assumption
  | case3 => assumption
  | case4 => assumption
  | case5 stray text _ line rest _ ih => exact ⟨rfl, trivial, ih⟩
  | case6 =>
    exact Sheet.consItem_nests bodyItem_closed (fun _ => bodyItem_fits) nofun ‹_› ‹_›
  | case7 =>
    exact Sheet.consItem_nests bodyItem_closed (fun _ => bodyItem_fits) nofun ‹_› ‹_›

theorem readSheet_nests (first stray : Bool) (cs : Components) :
    (readSheet first stray cs).items.Nests .sheet := by
  fun_induction readSheet first stray cs with
  | case1 => trivial
  | case2 => assumption
  | case3 => assumption
  | case4 => assumption
  | case5 => assumption
  | case6 first stray text _ line rest _ ih => exact ⟨rfl, trivial, ih⟩
  | case7 => assumption
  | case8 =>
    exact Sheet.consItem_nests sheetItem_closed (fun _ => sheetItem_fits) nofun
      (readBody_nests _ _) ‹_›
  | case9 =>
    exact Sheet.consItem_nests sheetItem_closed (fun _ => sheetItem_fits) nofun
      (readBody_nests _ _) ‹_›

theorem Sheet.ofText_nests (text : String) : (Sheet.ofText text).items.Nests .sheet :=
  readSheet_nests true false _

theorem Sheet.ofText_inBlocks (text : String) : (Sheet.ofText text).items.InBlocks :=
  (ofText_nests text).inBlocks

end Css

namespace Document

theorem ofForest_whole (items : Forest Node) : (ofForest items).Whole where
  rooted := ⟨.made .root, _, rfl⟩
  nodup := by
    show (Forest.number root _).1.numbers.Nodup
    rw [(numbers_number _ root).1]
    exact List.nodup_range'
  lt_next id h := by
    have hn := numbers_number (Forest.single (Node.made .root) items) root
    show id < (Forest.number root (Forest.single (Node.made .root) items)).2
    rw [hn.2]
    have h : id ∈ (Forest.number root (Forest.single (Node.made .root) items)).1.numbers := h
    rw [hn.1, List.mem_range'_1] at h
    exact h.2

/-- In a document of a style sheet the parent of a node has a block. -/
theorem hasBlock_of_parent {items : Forest Node} (hi : items.InBlocks) {id parent : NodeId}
    (h : (ofForest items).parent? id = some parent) :
    ∃ n, (ofForest items).node? parent = some n ∧ n.kind.hasBlock = true := by
  have hw := ofForest_whole items
  obtain ⟨as, ha⟩ := isLive_iff_above.mp (isLive_of_parent h)
  rw [parent?, ancestors_eq ha] at h
  cases as with
  | nil => cases h
  | cons a as =>
    cases h
    refine ⟨a.2, (node?_eq_some_iff hw.nodup).mpr (Forest.above?_subset ha List.mem_cons_self), ?_⟩
    refine Forest.InBlocks.hasBlock_of_above? ?_ ha
    rw [ofForest, Forest.map_snd_number]
    exact ⟨by rintro ⟨⟩, hi, trivial⟩

theorem ofSheet_nested (text : String) : (ofSheet (Css.Sheet.ofText text)).Nested where
  toWhole := ofForest_whole _
  nests := by
    rw [ofSheet, ofForest, Forest.map_snd_number]
    exact ⟨rfl, Css.Sheet.ofText_nests text, trivial⟩

theorem declaration_of_mem_declarations {d : Document} {id : NodeId} (hd : d.Whole)
    (h : id ∈ d.declarations) :
    ∃ n, d.node? id = some n ∧ n.kind.isDeclaration = true := by
  obtain ⟨a, ha, rfl⟩ := List.mem_map.mp h
  rw [List.mem_filter, hd.attached_eq] at ha
  exact ⟨a.2, (node?_eq_some_iff hd.nodup).mpr ha.1, ha.2⟩

theorem nodup_declarations {d : Document} (hd : d.Whole) : d.declarations.Nodup := by
  rw [declarations, hd.attached_eq]
  exact (List.filter_sublist.map _).nodup hd.nodup

end Document

end ModularScale
