import ModularScale.Proofs.Document.Edits
import ModularScale.Sizing.Scope

/-! # Nearest scopes

The walk from a node to its parent and on upwards comes to an end on every document that edits have
built. It ends at the nearest at-rule or root, and where there is none at the topmost node.
-/

namespace ModularScale

open Document

namespace Scope

variable {d : Document} {id a : NodeId} {as : List NodeId} {r : Except TreeError Scope}

/-- The scope that a node stands for if it is an at-rule or a root. -/
def ofKind? (a : NodeId) : Kind → Option Scope
  | .root => some root
  | .atRule name params _ _ => some (atRule a name params)
  | _ => none

def at? (d : Document) (a : NodeId) : Option Scope :=
  match d.kind a with
  | .ok kind => ofKind? a kind
  | .error _ => none

/-- The walk upwards from a node, this one included, and what it comes to. -/
inductive Climbs (d : Document) : NodeId → Except TreeError Scope → Prop
  | gone {a : NodeId} {e : TreeError} : d.kind a = .error e → Climbs d a (.error e)
  | found {a : NodeId} {kind : Kind} {scope : Scope} : d.kind a = .ok kind →
    ofKind? a kind = some scope → Climbs d a (.ok scope)
  | top {a : NodeId} {kind : Kind} : d.kind a = .ok kind → ofKind? a kind = none →
    d.parent? a = none → Climbs d a (.error (.noParent a))
  | up {a parent : NodeId} {kind : Kind} {r : Except TreeError Scope} : d.kind a = .ok kind →
    ofKind? a kind = none → d.parent? a = some parent → Climbs d parent r → Climbs d a r

/-- The walk that resolves a node starts at its parent. -/
inductive Walks (d : Document) (id : NodeId) : Except TreeError Scope → Prop
  | alone : d.parent? id = none → Walks d id (.error (.noParent id))
  | climb {parent : NodeId} {r : Except TreeError Scope} : d.parent? id = some parent →
    Climbs d parent r → Walks d id r

theorem search_cons {kind : Kind} (h : d.kind a = .ok kind) : search d id (a :: as) =
    match ofKind? a kind with
    | some scope => .ok scope
    | none => search d a as := by
  rw [search, h]
  cases kind <;> rfl

/-- Among nodes that are there the first that is a scope ends the search. -/
theorem search_eq (h : ∀ a ∈ as, d.isLive a = true) : search d id as =
    match as.findSome? (at? d) with
    | some scope => .ok scope
    | none => .error (.noParent (as.getLast?.getD id)) := by
  induction as generalizing id with
  | nil => rfl
  | cons a as ih =>
    obtain ⟨ha, has⟩ := List.forall_mem_cons.mp h
    obtain ⟨n, hn⟩ := isLive_iff_node.mp ha
    have hk := kind_of_node? hn
    have hat : at? d a = ofKind? a n.kind := by rw [at?, hk]
    have hlast : (a :: as).getLast?.getD id = as.getLast?.getD a := by
      rw [List.getLast?_cons]
      rfl
    rw [search_cons hk, List.findSome?_cons, hat, hlast]
    cases ofKind? a n.kind with
    | some scope => rfl
    | none => exact ih has

/-- The walk from parent to parent meets the nodes above a node in their order. -/
theorem climbs_iff (hd : d.trees.numbers.Nodup) (hl : d.isLive a = true) :
    Climbs d a r ↔ r = search d id (a :: d.ancestors a) := by
  generalize has : d.ancestors a = as
  induction as generalizing a id r with
  | nil =>
    obtain ⟨n, hn⟩ := isLive_iff_node.mp hl
    have hk := kind_of_node? hn
    have hp : d.parent? a = none := by rw [parent?, has]; rfl
    rw [search_cons hk]
    constructor
    · intro h
      cases h with
      | gone h => cases h.symm.trans hk
      | found h hs => cases h.symm.trans hk; rw [hs]
      | top h hs _ => cases h.symm.trans hk; rw [hs]; rfl
      | up _ _ h _ => cases h.symm.trans hp
    · rintro rfl
      cases hs : ofKind? a n.kind with
      | some scope => exact .found hk hs
      | none => exact .top hk hs hp
  | cons p as ih =>
    obtain ⟨n, hn⟩ := isLive_iff_node.mp hl
    have hk := kind_of_node? hn
    have hp : d.parent? a = some p := by rw [parent?, has]; rfl
    have hlp : d.isLive p = true := isLive_of_mem_ancestors (mem_ancestors_of_parent hp)
    rw [ancestors_of_parent hd hp, List.cons.injEq] at has
    rw [search_cons hk]
    constructor
    · intro h
      cases h with
      | gone h => cases h.symm.trans hk
      | found h hs => cases h.symm.trans hk; rw [hs]
      | top _ _ h => cases h.symm.trans hp
      | up h hs hq hr =>
        cases h.symm.trans hk
        obtain rfl := Option.some.inj (hq.symm.trans hp)
        rw [hs]
        exact (ih hlp has.2).mp hr
    · rintro rfl
      cases hs : ofKind? a n.kind with
      | some scope => exact .found hk hs
      | none =>
        have hr : Climbs d p (search d a (p :: as)) := (ih hlp has.2).mpr rfl
        exact .up hk hs hp hr

theorem walks_iff (hd : d.trees.numbers.Nodup) : Walks d id r ↔ r = resolve d id := by
  rw [resolve]
  cases hp : d.parent? id with
  | none =>
    rw [ancestors_of_parent_eq_none hp]
    constructor
    · rintro (_ | ⟨h, -⟩)
      · rfl
      · cases h.symm.trans hp
    · rintro rfl
      exact .alone hp
  | some parent =>
    have hl : d.isLive parent = true := isLive_of_mem_ancestors (mem_ancestors_of_parent hp)
    rw [ancestors_of_parent hd hp]
    constructor
    · rintro (h | ⟨h, hr⟩)
      · cases h.symm.trans hp
      · obtain rfl := Option.some.inj (h.symm.trans hp)
        exact (climbs_iff hd hl).mp hr
    · rintro rfl
      exact .climb hp ((climbs_iff hd hl).mpr rfl)

/-- On every document that edits have built the walk ends, and only in one way: at the first of the
nodes above that is an at-rule or a root, or at the topmost of them if there is none. Below a root
there always is one. -/
theorem resolve_of_built (h : d.Built) (id : NodeId) :
    (∀ r, Walks d id r ↔ r = resolve d id) ∧
    (resolve d id = match (d.ancestors id).findSome? (at? d) with
      | some scope => .ok scope
      | none => .error (.noParent ((d.ancestors id).getLast?.getD id))) ∧
    (d.isLive id = false ∨ d.parent? id = none → resolve d id = .error (.noParent id)) ∧
    ((∃ a ∈ d.ancestors id, d.kind a = .ok .root) → ∃ scope, resolve d id = .ok scope) := by
  have heq := @search_eq d id (d.ancestors id) fun a => isLive_of_mem_ancestors
  refine ⟨fun r => walks_iff h.rooted.nodup, heq, fun hgone => ?_, ?_⟩
  · have hp : d.parent? id = none := hgone.elim (fun hl => ?_) fun hp => hp
    · rw [resolve, ancestors_of_parent_eq_none hp]
      rfl
    · rw [Option.eq_none_iff_forall_ne_some]
      intro parent hp
      rw [isLive_of_parent hp] at hl
      cases hl
  · rintro ⟨a, ha, hk⟩
    have hs : ((d.ancestors id).findSome? (at? d)).isSome = true := by
      rw [List.findSome?_isSome_iff]
      exact ⟨a, ha, by rw [at?, hk]; rfl⟩
    obtain ⟨scope, hscope⟩ := Option.isSome_iff_exists.mp hs
    exact ⟨scope, by rw [resolve, heq, hscope]⟩

/-- The inner one of two at-rules is the scope of what is in it, and the outer one is that of the
inner one. A node of its own has none, nor has what is in it. -/
theorem resolve_of_built_nested :
    let edits := [Edit.addChild Document.root (.atRule "media" "print" " " true),
      .addChild 1 (.atRule "t-above" "(tablet)" " " true), .addChild 2 (.rule ".x"),
      .addChild 3 (.declaration "font-size" "2ms" false), .create (.made (.rule ".y")),
      .addChild 5 (.declaration "font-size" "2ms" false)]
    let d := edits.foldl Edit.perform empty
    d.Built ∧ Walks d 4 (.ok (.atRule 2 "t-above" "(tablet)")) ∧
      Walks d 2 (.ok (.atRule 1 "media" "print")) ∧ Walks d 1 (.ok root) ∧
      Walks d 6 (.error (.noParent 5)) ∧ Walks d 5 (.error (.noParent 5)) := by
  intro edits d
  have hb : d.Built := (Built.ofForest .nil).foldl_perform (by decide)
  have hw : ∀ id r, Walks d id r ↔ r = resolve d id := fun id => (resolve_of_built hb id).1
  refine ⟨hb, ?_⟩
  simp only [hw]
  decide

end Scope

end ModularScale
