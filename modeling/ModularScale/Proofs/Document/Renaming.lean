import ModularScale.Proofs.Document.Grafting

/-! # Nodes under other numbers

Nodes that keep apart under other numbers are found, cut, changed and grafted under them as under
their own. New nodes get the numbers that they should have where these are consecutive.
-/

namespace ModularScale

namespace Forest

section

variable {α : Type u} {β : Type v}

theorem number_append (next : Nat) (f g : Forest α) : ((f ++ g).number next).1 =
    (f.number next).1 ++ (g.number (f.number next).2).1 := by
  induction f generalizing next with
  | nil => rfl
  | cons a c r _ ih => simp only [cons_append, number, ih]

theorem find?_map (h : α → β) (p : β → Bool) (f : Forest α) :
    (f.map h).find? p = (f.find? (p ∘ h)).map (Prod.map h (map h)) := by
  induction f with
  | nil => rfl
  | cons a c r ihc ihr =>
    simp only [map, find?, ihc, ihr, Function.comp_apply]
    split
    · rfl
    · rw [Option.map_or]

theorem above?_map (h : α → β) (p : β → Bool) (f : Forest α) :
    (f.map h).above? p = (f.above? (p ∘ h)).map (List.map h) := by
  induction f with
  | nil => rfl
  | cons a c r ihc ihr =>
    simp only [map, above?, ihc, ihr, Function.comp_apply]
    split
    · rfl
    · cases c.above? (p ∘ h) <;> simp

theorem erase_map (h : α → β) (p : β → Bool) (f : Forest α) :
    (f.map h).erase p = (f.erase (p ∘ h)).map h := by
  induction f with
  | nil => rfl
  | cons a c r ihc ihr =>
    simp only [map, erase, ihc, ihr, Function.comp_apply]
    split <;> rfl

theorem modify_map (h : α → β) (p : β → Bool) (k : α → α) (l : β → β)
    (hl : ∀ a, l (h a) = h (k a)) (f : Forest α) :
    (f.map h).modify p l = (f.modify (p ∘ h) k).map h := by
  induction f with
  | nil => rfl
  | cons a c r ihc ihr => simp only [map, modify, ihc, ihr, Function.comp_apply, hl, apply_ite h]

theorem graft_map {put : α → Forest α → Forest α → Forest α}
    {put' : β → Forest β → Forest β → Forest β} (h : α → β) (p : β → Bool)
    (hput : ∀ a c r, put' (h a) (c.map h) (r.map h) = (put a c r).map h) (f : Forest α) :
    graft p put' (f.map h) = (graft (p ∘ h) put f).map h := by
  induction f with
  | nil => rfl
  | cons a c r ihc ihr =>
    simp only [map, graft, ihc, ihr, hput, Function.comp_apply]
    split <;> rfl

theorem insertAfter_map (h : α → β) (p : β → Bool) (new f : Forest α) :
    insertAfter p (new.map h) (f.map h) = (insertAfter (p ∘ h) new f).map h := by
  rw [insertAfter_eq_graft, insertAfter_eq_graft]
  exact graft_map h p (fun a c r => by rw [map, map_append]) f

theorem insertBefore_map (h : α → β) (p : β → Bool) (new f : Forest α) :
    insertBefore p (new.map h) (f.map h) = (insertBefore (p ∘ h) new f).map h := by
  rw [insertBefore_eq_graft, insertBefore_eq_graft]
  exact graft_map h p (fun a c r => by rw [map_append, map]) f

end

open Document

variable {f : Forest (NodeId × Node)} {id : NodeId} {ρ : NodeId → NodeId}

/-- The nodes of a forest under other numbers. -/
def rename (ρ : NodeId → NodeId) (f : Forest (NodeId × Node)) : Forest (NodeId × Node) :=
  f.map fun a => (ρ a.1, a.2)

section

variable (hρ : Function.Injective ρ)
include hρ

theorem isNode_comp_rename (id : NodeId) :
    (isNode (ρ id) ∘ fun a : NodeId × Node => (ρ a.1, a.2)) = isNode id := by
  funext a
  simp [isNode, hρ.eq_iff]

theorem find?_rename (f : Forest (NodeId × Node)) : (f.rename ρ).find? (isNode (ρ id)) =
    (f.find? (isNode id)).map (Prod.map (fun a => (ρ a.1, a.2)) (rename ρ)) := by
  rw [rename, find?_map, isNode_comp_rename hρ]
  rfl

theorem above?_rename (f : Forest (NodeId × Node)) : (f.rename ρ).above? (isNode (ρ id)) =
    (f.above? (isNode id)).map (List.map fun a => (ρ a.1, a.2)) := by
  rw [rename, above?_map, isNode_comp_rename hρ]

theorem erase_rename (f : Forest (NodeId × Node)) :
    (f.rename ρ).erase (isNode (ρ id)) = (f.erase (isNode id)).rename ρ := by
  rw [rename, erase_map, isNode_comp_rename hρ, rename]

theorem modify_rename (k : Node → Node) (f : Forest (NodeId × Node)) :
    (f.rename ρ).modify (isNode (ρ id)) (fun (id, node) => (id, k node)) =
      (f.modify (isNode id) fun (id, node) => (id, k node)).rename ρ := by
  rw [← isNode_comp_rename hρ id]
  exact modify_map (fun a => (ρ a.1, a.2)) _ (fun (id, node) => (id, k node))
    (fun (id, node) => (id, k node)) (fun _ => rfl) f

theorem insertAfter_rename (new f : Forest (NodeId × Node)) :
    insertAfter (isNode (ρ id)) (new.rename ρ) (f.rename ρ) =
      (insertAfter (isNode id) new f).rename ρ := by
  rw [rename, rename, insertAfter_map, isNode_comp_rename hρ, rename]

theorem insertBefore_rename (new f : Forest (NodeId × Node)) :
    insertBefore (isNode (ρ id)) (new.rename ρ) (f.rename ρ) =
      (insertBefore (isNode id) new f).rename ρ := by
  rw [rename, rename, insertBefore_map, isNode_comp_rename hρ, rename]

end

/-- Where numbers stay consecutive, new nodes get the new numbers of what they would get. -/
theorem number_rename {first next : Nat} (hρ : ∀ i, first ≤ i → ρ (i + 1) = ρ i + 1)
    (hn : first ≤ next) (f : Forest Node) :
    f.number (ρ next) = ((f.number next).1.rename ρ, ρ (f.number next).2) := by
  induction f generalizing next with
  | nil => rfl
  | cons a c r ihc ihr =>
    have hc : first ≤ (c.number (next + 1)).2 := by
      rw [(toList_number (next + 1) c).2]
      omega
    simp only [number, rename, map]
    rw [← hρ next hn, ihc (by omega), ihr hc]
    rfl

theorem map_snd_rename (ρ : NodeId → NodeId) (f : Forest (NodeId × Node)) :
    (f.rename ρ).map Prod.snd = f.map Prod.snd := by
  induction f with
  | nil => rfl
  | cons a c r ihc ihr =>
    simp only [rename, map] at ihc ihr ⊢
    rw [ihc, ihr]

/-- Nodes that are numbered anew get their old numbers back. -/
theorem rename_number {next : Nat} (h : f.numbers = (List.range' next f.toList.length).map ρ) :
    ((f.map Prod.snd).number next).1.rename ρ = f := by
  induction f generalizing next with
  | nil => rfl
  | cons a c r ihc ihr =>
    have hlen : ((c.map Prod.snd).number (next + 1)).2 = next + 1 + c.toList.length := by
      rw [(toList_number _ _).2, toList_map, List.length_map]
    rw [numbers_cons, toList, List.length_cons, List.length_append, List.range'_succ,
      ← List.range'_append_1, List.map_cons, List.map_append, List.cons.injEq] at h
    obtain ⟨ha, h⟩ := h
    obtain ⟨hc, hr⟩ := List.append_inj h (by simp [numbers])
    have ihr := ihr hr
    rw [← hlen] at ihr
    rw [map, number, rename, map, ← rename, ← rename, ihc hc, ihr, ← ha]

/-- All declarations, in document order. -/
def declarations (f : Forest (NodeId × Node)) : List NodeId :=
  (f.toList.filter fun entry => entry.2.kind.isDeclaration).map Prod.fst

theorem declarations_append (f g : Forest (NodeId × Node)) :
    (f ++ g).declarations = f.declarations ++ g.declarations := by
  simp [declarations]

theorem declarations_rename (ρ : NodeId → NodeId) (f : Forest (NodeId × Node)) :
    (f.rename ρ).declarations = f.declarations.map ρ := by
  simp [declarations, rename, toList_map, List.filter_map, Function.comp_def]

end Forest

end ModularScale
