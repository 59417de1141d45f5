import ModularScale.Proofs.Document.Keeping

/-! # Inherited conditions

A condition on each node of a forest that depends on the nodes above it. These leave a state to the
nodes below them, and each edit keeps such a condition if what it puts in place fulfils it there.
-/

namespace ModularScale

namespace Forest

section Along

variable {α : Type u} {β : Type v} {σ : Type w} {next : σ → α → σ} {P : σ → α → Prop} {s : σ}
  {p : α → Bool} {f g new : Forest α}

/-- Every node fulfils a condition in the state that the nodes above it leave. -/
def Along (next : σ → α → σ) (P : σ → α → Prop) (s : σ) : Forest α → Prop
  | nil => True
  | cons a children rest => P s a ∧ children.Along next P (next s a) ∧ rest.Along next P s

theorem along_append : (f ++ g).Along next P s ↔ f.Along next P s ∧ g.Along next P s := by
  induction f with
  | nil => simp [Along]
  | cons a children rest _ ih => simp only [cons_append, Along, ih, and_assoc]

theorem along_map (h : β → α) (f : Forest β) :
    (f.map h).Along next P s ↔ f.Along (fun s b => next s (h b)) (fun s b => P s (h b)) s := by
  induction f generalizing s with
  | nil => rfl
  | cons a children rest ihc ihr => simp only [map, Along, ihc, ihr]

theorem Along.erase (h : f.Along next P s) : (f.erase p).Along next P s := by
  induction f generalizing s with
  | nil => trivial
  | cons a children rest ihc ihr =>
    obtain ⟨ha, hc, hr⟩ := h
    unfold Forest.erase
    split
    · exact ihr hr
    · exact ⟨ha, ihc hc, ihr hr⟩

/-- Trees that are put together anew fulfil the condition if they do so in each place where this
happens. -/
theorem Along.graft {put : α → Forest α → Forest α → Forest α} (h : f.Along next P s)
    (hput : ∀ a c r s, a ∈ f.toList → p a = true → (cons a c r).Along next P s →
      (put a c r).Along next P s) :
    (Forest.graft p put f).Along next P s := by
  induction f generalizing s with
  | nil => trivial
  | cons a children rest ihc ihr =>
    unfold Forest.graft
    split
    case isTrue hp => exact hput a children rest s List.mem_cons_self hp h
    case isFalse =>
      obtain ⟨ha, hc, hr⟩ := h
      refine ⟨ha, ihc hc fun b c r s hb => hput b c r s ?_, ihr hr fun b c r s hb => hput b c r s ?_⟩
      · exact List.mem_cons_of_mem a (List.mem_append_left _ hb)
      · exact List.mem_cons_of_mem a (List.mem_append_right _ hb)

theorem Along.insertAfter (h : f.Along next P s)
    (hn : ∀ a ∈ f.toList, p a = true → ∀ s, P s a → new.Along next P s) :
    (Forest.insertAfter p new f).Along next P s := by
  rw [insertAfter_eq_graft]
  refine h.graft fun a c r s hm hp ⟨ha, hc, hr⟩ => ?_
  exact ⟨ha, hc, along_append.mpr ⟨hn a hm hp s ha, hr⟩⟩

theorem Along.insertBefore (h : f.Along next P s)
    (hn : ∀ a ∈ f.toList, p a = true → ∀ s, P s a → new.Along next P s) :
    (Forest.insertBefore p new f).Along next P s := by
  rw [insertBefore_eq_graft]
  refine h.graft fun a c r s hm hp ⟨ha, hc, hr⟩ => ?_
  exact along_append.mpr ⟨hn a hm hp s ha, ha, hc, hr⟩

/-- A changed node has to fulfil the condition where it stands, and those below it in the state
that it leaves now. -/
theorem Along.modify {change : α → α} (h : f.Along next P s)
    (hc : ∀ a ∈ f.toList, p a = true → ∀ s, P s a → P s (change a) ∧ next s (change a) = next s a) :
    (f.modify p change).Along next P s := by
  induction f generalizing s with
  | nil => trivial
  | cons a children rest ihc ihr =>
    obtain ⟨ha, hbelow, hr⟩ := h
    have hbelow' := ihc hbelow fun b hb =>
      hc b (List.mem_cons_of_mem a (List.mem_append_left _ hb))
    have hr' := ihr hr fun b hb => hc b (List.mem_cons_of_mem a (List.mem_append_right _ hb))
    unfold Forest.modify
    split
    case isTrue hp =>
      obtain ⟨ha', hs⟩ := hc a List.mem_cons_self hp s ha
      exact ⟨ha', hs ▸ hbelow', hr'⟩
    case isFalse => exact ⟨ha, hbelow', hr'⟩

theorem Along.find? (h : f.Along next P s) {a : α} {below : Forest α}
    (hf : f.find? p = some (a, below)) : ∃ s, P s a ∧ below.Along next P (next s a) := by
  induction f generalizing s with
  | nil => cases hf
  | cons b children rest ihc ihr =>
    obtain ⟨hb, hc, hr⟩ := h
    unfold Forest.find? at hf
    split at hf
    · cases hf
      exact ⟨s, hb, hc⟩
    · rcases Option.or_eq_some_iff.mp hf with hf | ⟨-, hf⟩
      · exact ihc hc hf
      · exact ihr hr hf

end Along

section Numbered

variable {σ : Type w} {next : σ → NodeId × Node → σ} {P : σ → NodeId × Node → Prop} {s : σ}
  {f : Forest (NodeId × Node)}

/-- In a forest whose numbers are all different a condition is fulfilled by each node below the
nodes that are above it. -/
theorem along_iff (hn : f.numbers.Nodup) : f.Along next P s ↔ ∀ a ∈ f.toList, ∀ as,
    f.above? (Document.isNode a.1) = some as → P (as.foldr (fun b s => next s b) s) a := by
  induction f generalizing s with
  | nil => simp [Along, toList]
  | cons b children rest ihc ihr =>
    obtain ⟨-, -, hnc, hnr, -⟩ := nodup_cons hn
    rw [Along, ihc hnc, ihr hnr]
    constructor
    · rintro ⟨hb, hc, hr⟩ a ha as has
      rcases List.mem_cons.mp ha with rfl | ha
      · rw [above?_cons_of_eq rfl] at has
        cases has
        exact hb
      · rcases List.mem_append.mp ha with ha | ha
        · obtain ⟨bs, hbs⟩ :=
            Option.isSome_iff_exists.mp (mem_numbers_iff_above.mp (List.mem_map_of_mem ha))
          rw [above?_cons_below hn hbs] at has
          cases has
          rw [List.foldr_append]
          exact hc a ha bs hbs
        · obtain ⟨bs, hbs⟩ :=
            Option.isSome_iff_exists.mp (mem_numbers_iff_above.mp (List.mem_map_of_mem ha))
          rw [above?_cons_beside hn hbs] at has
          cases has
          exact hr a ha as hbs
    · intro h
      refine ⟨h b List.mem_cons_self [] (above?_cons_of_eq rfl), fun a ha as has => ?_,
        fun a ha as has => h a (List.mem_cons_of_mem b (List.mem_append_right _ ha)) as
          (above?_cons_beside hn has)⟩
      have hb := h a (List.mem_cons_of_mem b (List.mem_append_left _ ha)) _ (above?_cons_below hn has)
      rwa [List.foldr_append] at hb

end Numbered

end Forest

namespace Document

open Forest

section Inherits

variable {σ : Type w} {next : σ → Node → σ} {P : σ → Node → Prop} {s : σ} {d e : Document}
  {id anchor : NodeId} {new : Forest Node} {n : Node}

/-- Every node of a document fulfils a condition in the state that those above it leave. -/
def Inherits (next : σ → Node → σ) (P : σ → Node → Prop) (s : σ) (d : Document) : Prop :=
  (d.trees.map Prod.snd).Along next P s

theorem inherits_iff_along : d.Inherits next P s ↔
    d.trees.Along (fun s a => next s a.2) (fun s a => P s a.2) s :=
  along_map Prod.snd d.trees

/-- The nodes above a node, the nearest first. -/
def around (d : Document) (id : NodeId) : List Node :=
  (d.ancestors id).filterMap d.node?

theorem around_eq {as : List (NodeId × Node)} (hd : d.trees.numbers.Nodup)
    (h : d.trees.above? (isNode id) = some as) : d.around id = as.map Prod.snd := by
  rw [around, ancestors_eq h, List.filterMap_map, ← List.filterMap_eq_map]
  refine List.filterMap_congr fun a ha => ?_
  exact (node?_eq_some_iff hd).mpr (above?_subset h ha)

theorem inherits_iff (hd : d.trees.numbers.Nodup) : d.Inherits next P s ↔
    ∀ id n, d.node? id = some n → P ((d.around id).foldr (fun b s => next s b) s) n := by
  rw [inherits_iff_along, along_iff hd]
  constructor
  · intro h id n hn
    obtain ⟨as, has⟩ := isLive_iff_above.mp (isLive_iff_node.mpr ⟨n, hn⟩)
    rw [around_eq hd has, List.foldr_map]
    exact h (id, n) ((node?_eq_some_iff hd).mp hn) as has
  · intro h a ha as has
    have := h a.1 a.2 ((node?_eq_some_iff hd).mpr ha)
    rwa [around_eq hd has, List.foldr_map] at this

theorem Inherits.of_find? (h : d.Inherits next P s) {a : NodeId × Node}
    {below : Forest (NodeId × Node)} (hf : d.find? id = some (a, below)) :
    ∃ s, P s a.2 ∧ (below.map Prod.snd).Along next P (next s a.2) := by
  obtain ⟨s, ha, hb⟩ := Along.find? (inherits_iff_along.mp h) hf
  exact ⟨s, ha, (along_map Prod.snd below).mpr hb⟩

theorem Inherits.insertNewAfter (h : d.Inherits next P s) (hd : d.trees.numbers.Nodup)
    (he : d.insertNewAfter anchor new = .ok e)
    (hn : ∀ n, d.node? anchor = some n → ∀ s, P s n → new.Along next P s) :
    e.Inherits next P s := by
  rcases insertNewAfter_ok he with ⟨-, rfl⟩ | ⟨-, rfl⟩
  · exact h
  · rw [inherits_iff_along] at h ⊢
    refine h.insertAfter fun a ha hi s hs => ?_
    rw [← along_map, map_snd_number]
    exact hn a.2 ((node?_eq_some_iff hd).mpr (isNode_iff.mp hi ▸ ha)) s hs

theorem Inherits.insertNewBefore (h : d.Inherits next P s) (hd : d.trees.numbers.Nodup)
    (he : d.insertNewBefore anchor new = .ok e)
    (hn : ∀ n, d.node? anchor = some n → ∀ s, P s n → new.Along next P s) :
    e.Inherits next P s := by
  rcases insertNewBefore_ok he with ⟨-, rfl⟩ | ⟨-, rfl⟩
  · exact h
  · rw [inherits_iff_along] at h ⊢
    refine h.insertBefore fun a ha hi s hs => ?_
    rw [← along_map, map_snd_number]
    exact hn a.2 ((node?_eq_some_iff hd).mpr (isNode_iff.mp hi ▸ ha)) s hs

theorem Inherits.without (h : d.Inherits next P s) (id : NodeId) :
    Inherits next P s { d with trees := d.without id } := by
  rw [inherits_iff_along] at h ⊢
  exact h.erase

theorem Inherits.remove (h : d.Inherits next P s) (he : d.remove id = .ok e) :
    e.Inherits next P s := by
  obtain ⟨-, -, rfl⟩ := remove_ok he
  exact h.without id

theorem Inherits.replaceWithNew (h : d.Inherits next P s) (hd : d.trees.numbers.Nodup)
    (he : d.replaceWithNew id n = .ok e)
    (hn : ∀ m, d.node? id = some m → ∀ s, P s m → P s n) : e.Inherits next P s := by
  obtain ⟨-, d₁, h₁, rfl⟩ := replaceWithNew_ok he
  refine Inherits.without (h.insertNewBefore hd h₁ fun m hm s hs => ?_) id
  exact ⟨hn m hm s hs, trivial, trivial⟩

theorem Inherits.setKind (h : d.Inherits next P s) (hd : d.trees.numbers.Nodup) {kind : Kind}
    (he : d.setKind id kind = .ok e)
    (hn : ∀ n, d.node? id = some n → ∀ s, P s n →
      P s { n with kind } ∧ next s { n with kind } = next s n) : e.Inherits next P s := by
  obtain ⟨-, rfl⟩ := setKind_ok he
  rw [inherits_iff_along] at h ⊢
  refine h.modify fun a ha hi s hs => ?_
  exact hn a.2 ((node?_eq_some_iff hd).mpr (isNode_iff.mp hi ▸ ha)) s hs

end Inherits

end Document

end ModularScale
