import ModularScale.Proofs.Document.Place
import ModularScale.Proofs.Sizing.Frame

/-! # Passes item by item

What a pass makes of an item of a style sheet depends on this item alone. A pass over a document
whose items are those of two others makes of them what it makes of each of the two.
-/

namespace ModularScale

open Document Forest

variable {table : Breakpoints} {d d₁ d₂ e : Document} {before f after : Forest (NodeId × Node)}

namespace Document

/-- The nodes of the style sheet below its root, without their numbers. -/
def items (d : Document) : Forest Node :=
  match d.find? root with
  | some (_, below) => below.map Prod.snd
  | none => .nil

theorem items_eq {node : Node} {below : Forest (NodeId × Node)}
    (h : d.trees = .single (root, node) below) : d.items = below.map Prod.snd := by
  simp [items, find?, h, single, Forest.find?, isNode]

/-- A document, in whatever way it was built, whose style sheet has the given items. -/
structure Holds (d : Document) (items : Forest Node) : Prop where
  built : Built d
  attached : d.attached.map Prod.snd = .single (.made .root) items

theorem ofForest_holds (items : Forest Node) : (ofForest items).Holds items where
  built := .ofForest items
  attached := by rw [(ofForest_whole items).attached_eq, ofForest, map_snd_number]

theorem Holds.exists_amid {items : Forest Node} (h : d.Holds items) :
    ∃ before after w below, d = amid before after w ∧ w.Whole ∧ Aside before after w ∧
      w.trees = .single (root, .made .root) below ∧ below.map Prod.snd = items := by
  obtain ⟨before, after, w, rfl, hw, ha⟩ := h.built.rooted.exists_amid
  obtain ⟨node, below, ht⟩ := hw.rooted
  have hroot : Apart before after root := ha.apart root hw.toRooted.mem_root
  have hat := h.attached
  rw [Document.attached, hroot.find?, ← Document.attached, hw.attached_eq, ht] at hat
  injection hat with hnode hbelow
  exact ⟨before, after, w, below, rfl, hw, ha, by rw [ht, ← hnode], hbelow⟩

theorem eq_made_root {node : Node} (h : Node.Resized (.made .root) node) : node = .made .root := by
  cases h
  rfl

/-- The root stays what it is, as it has no size. -/
theorem Altered.exists_trees (h : Altered d e) {below : Forest (NodeId × Node)}
    (ht : d.trees = .single (root, .made .root) below) :
    ∃ below', e.trees = .single (root, .made .root) below' := by
  obtain ⟨node, below', ht'⟩ := h.whole.rooted
  have hn : d.node? root = some (.made .root) := by
    simp [node?, find?, ht, single, Forest.find?, isNode]
  have hn' : e.node? root = some node := by
    simp [node?, find?, ht', single, Forest.find?, isNode]
  exact ⟨below', by rw [ht', eq_made_root (h.node root _ _ hn hn')]⟩

end Document

namespace Pass

/-- One pass reports and notes down what a first one does and then what a second one does. -/
structure Joins (first second joined : Pass) : Prop where
  converted : joined.report.converted = first.report.converted + second.report.converted
  diagnostics : joined.report.diagnostics = first.report.diagnostics ++ second.report.diagnostics
  log : joined.log.map Sizing.Event.describe =
    first.log.map Sizing.Event.describe ++ second.log.map Sizing.Event.describe

theorem joins_pass (E : Embedding) (earlier p : Pass) : Joins earlier p (E.pass earlier p) where
  converted := rfl
  diagnostics := rfl
  log := by simp [Embedding.pass, E.describe_event, Function.comp_def]

/-- The visits of the declarations in a stretch of the items make of it what a pass makes of a
document with no other items. -/
theorem foldl_visit_stretch {p : Pass} (hp : p.document.Whole)
    (ht : p.document.trees = .single (root, .made .root) (before ++ f ++ after))
    (table : Breakpoints) :
    let part := run table (ofForest (f.map Prod.snd))
    let q := f.declarations.foldl (visit table) p
    Joins p part q ∧ ∃ f', part.document.items = f'.map Prod.snd ∧
      q.document.trees = .single (root, .made .root) (before ++ f' ++ after) := by
  let P := Place.ofItems hp ht
  let part := run table (ofForest (f.map Prod.snd))
  have hstart : P.embedding.pass p (start (ofForest (f.map Prod.snd))) = p := by
    simp [P, Embedding.pass, start, Place.embedding, Place.document_ofItems hp ht]
  have hfold : f.declarations.foldl (visit table) p = P.embedding.pass p part := by
    have h := Embedding.foldl_visit_declarations (E := P.embedding) (Place.suits_ofItems hp ht) p
      table
    rw [hstart] at h
    rw [Place.declarations_ofItems hp ht]
    exact h
  obtain ⟨below, hbelow⟩ : ∃ below, part.document.trees = .single (root, .made .root) below :=
    (foldl_visit_altered (p := start _) (ofForest_whole (f.map Prod.snd)) table _).exists_trees
      (trees_ofForest _)
  rw [hfold]
  refine ⟨joins_pass P.embedding p part, below.rename P.number, ?_, ?_⟩
  · rw [items_eq hbelow, map_snd_rename]
  · simp only [Embedding.pass, Place.embedding, Place.document, hbelow, single, rename, map, flank,
      P.number_root]
    rfl

/-- A pass depends on the items of a document only, not on how it was built. -/
theorem run_holds {items : Forest Node} (h : d.Holds items) (table : Breakpoints) :
    (run table d).document.items = (run table (ofForest items)).document.items ∧
      Joins (start d) (run table (ofForest items)) (run table d) := by
  obtain ⟨before, after, w, below, rfl, hw, ha, ht, rfl⟩ := h.exists_amid
  have ht' : w.trees = .single (root, .made .root) (.nil ++ below ++ .nil) := by simp [ht]
  obtain ⟨hj, f', hf', hq⟩ := foldl_visit_stretch (p := start w) hw ht' table
  rw [← hw.declarations_eq ht rfl] at hj hq
  have hroot : Apart before after root := ha.apart root hw.toRooted.mem_root
  rw [run_amid hw ha]
  refine ⟨?_, hj.converted, hj.diagnostics, hj.log⟩
  rw [hf', Pass.amid, Document.items, hroot.find?, ← Document.items]
  rw [append_nil, nil_append] at hq
  exact items_eq hq

theorem run_ofForest_append (f g : Forest Node) (table : Breakpoints) :
    (run table (ofForest (f ++ g))).document.items =
        (run table (ofForest f)).document.items ++ (run table (ofForest g)).document.items ∧
      Joins (run table (ofForest f)) (run table (ofForest g)) (run table (ofForest (f ++ g))) := by
  have hw := ofForest_whole (f ++ g)
  have ht : (ofForest (f ++ g)).trees = .single (root, .made .root)
      (.nil ++ (f.number 1).1 ++ (g.number (f.number 1).2).1) := by
    rw [trees_ofForest, number_append, nil_append]
  -- the declarations of the first items come first
  have hrun : run table (ofForest (f ++ g)) = (g.number (f.number 1).2).1.declarations.foldl
      (visit table) ((f.number 1).1.declarations.foldl (visit table) (start (ofForest (f ++ g)))) := by
    rw [run, hw.declarations_eq ht rfl, nil_append, declarations_append, List.foldl_append]
  obtain ⟨hj₁, f', hf', hq₁⟩ := foldl_visit_stretch (p := start (ofForest (f ++ g))) hw ht table
  rw [map_snd_number] at hj₁ hf'
  have hw₁ := (foldl_visit_altered (p := start (ofForest (f ++ g))) hw table
    (f.number 1).1.declarations).whole
  rw [← append_nil (nil ++ f' ++ (g.number (f.number 1).2).1)] at hq₁
  obtain ⟨hj₂, g', hg', hq₂⟩ := foldl_visit_stretch hw₁ hq₁ table
  rw [map_snd_number] at hj₂ hg'
  rw [hrun]
  refine ⟨?_, ?_, ?_, ?_⟩
  · rw [items_eq hq₂, hf', hg', append_nil, nil_append, map_append]
  · rw [hj₂.converted, hj₁.converted, start, Nat.zero_add]
  · rw [hj₂.diagnostics, hj₁.diagnostics, start, List.nil_append]
  · rw [hj₂.log, hj₁.log, start, List.map_nil, List.nil_append]

/-- A pass over a document whose items are those of two others turns them into what it makes of
each, and reports what it reports of the first and then what it reports of the second. -/
theorem run_items_append {f g : Forest Node} (h₁ : d₁.Holds f) (h₂ : d₂.Holds g)
    (h : d.Holds (f ++ g)) (table : Breakpoints) :
    (run table d).document.items =
        (run table d₁).document.items ++ (run table d₂).document.items ∧
      Joins (run table d₁) (run table d₂) (run table d) := by
  obtain ⟨hi₁, hj₁⟩ := run_holds h₁ table
  obtain ⟨hi₂, hj₂⟩ := run_holds h₂ table
  obtain ⟨hi, hj⟩ := run_holds h table
  obtain ⟨hia, hja⟩ := run_ofForest_append f g table
  refine ⟨by rw [hi, hia, hi₁, hi₂], ?_, ?_, ?_⟩
  · simp [hj.converted, hja.converted, hj₁.converted, hj₂.converted, start]
  · simp [hj.diagnostics, hja.diagnostics, hj₁.diagnostics, hj₂.diagnostics, start]
  · simp [hj.log, hja.log, hj₁.log, hj₂.log, start]

/-- The same for a size that is converted and one that is rejected, with a comment that stands apart
from the style sheet. -/
theorem run_items_append_created :
    let f : Forest Node := .single ⟨.rule "p", some 1⟩
      (.single ⟨.declaration "font-size" "0ms" false, some 1⟩ .nil)
    let g : Forest Node := .single ⟨.atRule "media" "print" " " true, some 2⟩
      (.single ⟨.declaration "font-size" "1ms" false, some 3⟩ .nil)
    let d := ((ofForest (f ++ g)).create (.made (.comment "apart"))).2
    ((ofForest f).Holds f ∧ (ofForest g).Holds g ∧ d.Holds (f ++ g)) ∧
      ((run .standard d).document.items =
          (run .standard (ofForest f)).document.items ++
            (run .standard (ofForest g)).document.items ∧
        Joins (run .standard (ofForest f)) (run .standard (ofForest g)) (run .standard d)) ∧
      (run .standard d).document.items = .single ⟨.rule "p", some 1⟩
        (.single ⟨.declaration "font-size" "1rem" false, some 1⟩ .nil) ∧
      (run .standard d).report.converted = 1 ∧
      (run .standard d).report.diagnostics.map Diagnostic.line = [some 3] := by
  intro f g d
  have hd : d.Holds (f ++ g) := ⟨.create _ (.ofForest _), by decide +kernel⟩
  exact ⟨⟨ofForest_holds f, ofForest_holds g, hd⟩,
    run_items_append (ofForest_holds f) (ofForest_holds g) hd .standard,
    by decide +kernel, by decide +kernel, by decide +kernel⟩

end Pass

end ModularScale
