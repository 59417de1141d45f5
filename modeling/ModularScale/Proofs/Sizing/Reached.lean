import ModularScale.Proofs.Document.Reach
import ModularScale.Proofs.Sizing.Frame

/-! # What a pass reaches

A pass offers each declaration that the root leads to unless it is gone by then, as long as the root
itself has no parent. Otherwise it offers none.
-/

namespace ModularScale

open Document

variable {table : Breakpoints} {d : Document} {x : NodeId}

namespace Pass

/-- Visits to declarations of a style sheet amid other trees are visits to those of it alone. -/
theorem foldl_visit_amid {before after : Forest (NodeId × Node)} {w : Document} (hw : w.Whole)
    (ha : Aside before after w) {ids : List NodeId} (h : ids ⊆ w.declarations) :
    (ids.foldl (visit table) (start (w.amid before after))).document =
      (ids.foldl (visit table) (start w)).document.amid before after := by
  have hknown : ∀ id ∈ ids, (Embedding.amid before after).Known id := by
    intro id hid
    obtain ⟨n, hn, -⟩ := declaration_of_mem_declarations hw (h hid)
    exact ha.of_isLive (isLive_iff_node.mpr ⟨n, hn⟩)
  have hfits : (Embedding.amid before after).Fits (start w).document := ⟨hw, ha⟩
  have hvisits := @Embedding.foldl_visit (start w) (start w) _ hfits table ids hknown
  have hnumber : ids.map (Embedding.amid before after).number = ids := List.map_id' _
  rw [pass_start_amid, pass_start_amid, hnumber] at hvisits
  exact congrArg Pass.document hvisits

/-- A declaration is only passed over if it is gone. -/
theorem isAttached_foldl_visit (hd : d.Rooted) {ids : List NodeId} (h : ids ⊆ d.declarations)
    (hx : x ∈ d.declarations) :
    (ids.foldl (visit table) (start d)).document.isAttached x =
      (ids.foldl (visit table) (start d)).document.isLive x := by
  obtain ⟨before, after, w, rfl, hw, ha⟩ := hd.exists_amid
  rw [ha.declarations hw] at h hx
  obtain ⟨n, hn, -⟩ := declaration_of_mem_declarations hw hx
  have hapart := ha.of_isLive (isLive_iff_node.mpr ⟨n, hn⟩)
  have haltered := foldl_visit_altered (p := start w) hw table ids
  obtain ⟨_, k⟩ := haltered.keeps
  rw [foldl_visit_amid hw ha h, (ha.of_keeps k).isAttached_amid haltered.whole,
    hapart.isLive]

/-- Where no node is attached, none is offered. -/
theorem foldl_visit_of_unattached (h : ∀ x, d.isAttached x = false) (ids : List NodeId) :
    ids.foldl (visit table) (start d) = start d := by
  induction ids with
  | nil => rfl
  | cons id ids ih =>
    rw [List.foldl_cons, visit, if_neg (by rw [start, h id]; decide)]
    exact ih

end Pass

/-- After any edits that leave the root there, a node is attached if and only if the root leads to
it and has no parent. Then a pass offers each declaration that is not gone when its turn comes, and
otherwise it does nothing. -/
theorem Document.isAttached_of_edits (edits : List Edit) (table : Breakpoints)
    (h : (edits.foldl Edit.perform empty).isLive root = true) :
    let d := edits.foldl Edit.perform empty
    (∀ x, d.isLive x = true → (d.isAttached x = true ↔ d.Reaches root x ∧ d.parent? root = none)) ∧
      (∀ x ∈ d.declarations, d.Reaches root x) ∧
      (d.parent? root = none → ∀ earlier x later, d.declarations = earlier ++ x :: later →
        d.isAttached x = true ∧
        let p := earlier.foldl (Pass.visit table) (Pass.start d)
        p.document.isAttached x = p.document.isLive x) ∧
      (d.parent? root ≠ none → Pass.run table d = Pass.start d) := by
  have hd : Numbered (edits.foldl Edit.perform empty) :=
    (ofForest_whole .nil).toRooted.numbered.foldl_perform edits
  intro d
  have hreach : ∀ x ∈ d.declarations, d.Reaches root x := by
    intro x hx
    have hnodes : d.declarations ⊆ d.nodes := (List.filter_sublist.map _).subset
    exact (mem_nodes_iff hd.nodup h).mp (hnodes hx)
  have hlive : ∀ x, d.Reaches root x → d.isLive x = true := by
    intro x hx
    rcases (reaches_iff hd.nodup).mp hx with rfl | hx
    · exact h
    · exact isLive_of_ancestor hx
  refine ⟨fun x hx => isAttached_iff hd.nodup hx, hreach, ?_, ?_⟩
  · intro hroot earlier x later hdecl
    have hx : x ∈ d.declarations := by simp [hdecl]
    refine ⟨(isAttached_iff hd.nodup (hlive x (hreach x hx))).mpr ⟨hreach x hx, hroot⟩, ?_⟩
    refine Pass.isAttached_foldl_visit (hd.rooted h hroot) (fun y hy => ?_) hx
    rw [hdecl]
    exact List.mem_append_left _ hy
  · intro hroot
    refine Pass.foldl_visit_of_unattached (fun x => ?_) _
    rw [Bool.eq_false_iff]
    intro hx
    have hl : d.isLive x = true := (Bool.and_eq_true_iff.mp hx).1
    exact hroot ((isAttached_iff hd.nodup hl).mp hx).2

/-- A pass reaches both declarations below the root, of which the second is gone with its rule when
its turn comes, but not the one that stands apart. -/
theorem Document.isAttached_of_edits_apart :
    let size (value : String) := Kind.declaration "font-size" value false
    let edits := [.create (.made (.rule ".x")), .append root 1, .addChild 1 (size "t-ms(a)"),
      .addChild 1 (size "2ms"), .create (.made (size "3ms"))]
    let d := edits.foldl Edit.perform empty
    d.isLive root = true ∧ d.parent? root = none ∧ d.declarations = [2, 3] ∧
      d.isAttached 3 = true ∧ d.isAttached 4 = false ∧
      (Pass.visit .standard (Pass.start d) 2).document.isAttached 3 = false := by
  intro size edits d
  have hl : d.isLive root = true := by decide
  have hr : d.parent? root = none := by decide
  have hdecl : d.declarations = [2] ++ 3 :: [] := by decide
  obtain ⟨hiff, -, hvisit, -⟩ := isAttached_of_edits edits .standard hl
  obtain ⟨h3, hagree⟩ := hvisit hr [2] 3 [] hdecl
  have hgone : (Pass.visit .standard (Pass.start d) 2).document.isLive 3 = false := by
    decide +kernel
  rw [List.foldl_cons, List.foldl_nil] at hagree
  exact ⟨hl, hr, hdecl, h3, by decide, hagree.trans hgone⟩

/-- A root that is put below a rule is there with its declaration, but neither is attached, and a
pass offers nothing. -/
theorem Document.exists_unattached :
    let d := [.create (.made (.rule ".x")), .addChild root (.declaration "font-size" "2ms" false),
      .append 1 root].foldl Edit.perform empty
    d.isLive root = true ∧ d.Reaches root root ∧ d.declarations = [2] ∧ d.Reaches root 2 ∧
      d.isAttached root = false ∧ d.isAttached 2 = false ∧
      Pass.run .standard d = Pass.start d := by
  intro d
  exact ⟨by decide, .refl, by decide, .single (by decide), by decide, by decide, rfl⟩

end ModularScale
