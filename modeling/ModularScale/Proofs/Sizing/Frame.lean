import ModularScale.Proofs.Document.Amid
import ModularScale.Proofs.Scale.Table
import ModularScale.Proofs.Sizing.Embedded

/-! # What a pass leaves alone

A pass over a document that any edits have built removes nodes with all below them, makes new nodes,
and changes the values of font sizes. All else stays as it was, above all the nodes that stand
apart from the style sheet.
-/

namespace ModularScale

open Document

variable {table : Breakpoints} {before after : Forest (NodeId × Node)} {d e : Document}
  {id : NodeId}

theorem Embedding.event_amid (e : Sizing.Event) : (Embedding.amid before after).event e = e := by
  have hid : (Embedding.amid before after).number = fun id => id := rfl
  cases e with
  | converted exponent rem scope => cases scope <;> rfl
  | excisionFailed e => rw [event, error, hid, e.rename_id]
  | _ => rfl

namespace Pass

/-- A pass with other trees beside its document. -/
def amid (before after : Forest (NodeId × Node)) (p : Pass) : Pass :=
  { p with document := p.document.amid before after }

theorem pass_start_amid (d : Document) (p : Pass) :
    (Embedding.amid before after).pass (start d) p = p.amid before after := by
  obtain ⟨document, ⟨converted, diagnostics⟩, log⟩ := p
  have hlog : log.map (Embedding.amid before after).event = log := by
    simp [funext Embedding.event_amid]
  simp only [Embedding.pass, start, amid, hlog, Nat.zero_add, List.nil_append]
  rfl

/-- A pass does the same to a style sheet with other trees beside it. -/
theorem run_amid (hd : d.Whole) (ha : Aside before after d) :
    run table (d.amid before after) = (run table d).amid before after := by
  have h := Embedding.foldl_visit_declarations (E := .amid before after) ⟨hd, ha⟩ (start d) table
  have hnumber : d.declarations.map (Embedding.amid before after).number = d.declarations :=
    List.map_id' _
  rwa [pass_start_amid, pass_start_amid, hnumber, ← ha.declarations hd] at h

end Pass

/-- The same node, but for the value of a font size. -/
inductive Node.Resized : Node → Node → Prop
  | refl (n : Node) : Resized n n
  | value {property old new : String} {important : Bool} {line : Option Nat} :
    Text.eqIgnoringCase property.toList "font-size".toList = true →
    Resized ⟨.declaration property old important, line⟩ ⟨.declaration property new important, line⟩

theorem Node.Resized.trans {n m k : Node} (h : n.Resized m) (h' : m.Resized k) : n.Resized k := by
  cases h with
  | refl => exact h'
  | value hp =>
    cases h' with
    | refl => exact .value hp
    | value _ => exact .value hp

namespace Document

/-- A whole document after changes to no more than its font sizes, its order and the nodes above
each node being kept. -/
structure Altered (d e : Document) : Prop where
  whole : e.Whole
  keeps : ∃ changed, Keeps changed d e
  node : ∀ id n m, d.node? id = some n → e.node? id = some m → n.Resized m

namespace Altered

variable {e' : Document} {lost : Option NodeId}

theorem of_edited (hd : d.Whole) (t : Edited [] lost d e) : Altered d e where
  whole := t.whole
  keeps := ⟨[], t.toKeeps⟩
  node id n m hn hm := by
    have hl := isLive_iff_node.mpr ⟨n, hn⟩
    rw [t.node id (hd.lt_of_isLive hl) List.not_mem_nil (isLive_iff_node.mpr ⟨m, hm⟩), hn] at hm
    cases hm
    exact .refl n

theorem refl (hd : d.Whole) : Altered d d :=
  of_edited hd (.refl hd)

theorem trans (hd : d.Whole) (h : Altered d e) (h' : Altered e e') : Altered d e' where
  whole := h'.whole
  keeps := by
    obtain ⟨changed, k⟩ := h.keeps
    obtain ⟨changed', k'⟩ := h'.keeps
    exact ⟨changed ++ changed', k.trans k'⟩
  node id n m hn hm := by
    obtain ⟨_, k⟩ := h.keeps
    obtain ⟨_, k'⟩ := h'.keeps
    have hlt := Nat.lt_of_lt_of_le (hd.lt_of_isLive (isLive_iff_node.mpr ⟨n, hn⟩)) k.next_le
    obtain ⟨o, ho⟩ := isLive_iff_node.mp (k'.isLive_of_isLive hlt (isLive_iff_node.mpr ⟨m, hm⟩))
    exact (h.node id n o hn ho).trans (h'.node id o m ho hm)

theorem setValue (hd : d.Whole) {old value : String} (hv : d.fontSize? id = some old)
    (he : d.setValue id value = .ok e) : Altered d e where
  whole := (hd.setValue he).1.whole
  keeps := ⟨[id], (hd.setValue he).1.toKeeps⟩
  node x n m hn hm := by
    have t := (hd.setValue he).1
    by_cases hx : x = id
    · subst hx
      obtain ⟨o, property, important, ho, hk, hp⟩ := exists_of_fontSize? hv
      obtain rfl := Option.some.inj (ho.symm.trans hn)
      rw [Document.setValue, kind_of_node? ho, hk] at he
      rw [node?_setKind he, ho] at hm
      cases hm
      obtain ⟨kind, line⟩ := o
      subst hk
      exact .value hp
    · have := t.node?_of_isLive hd hm (isLive_iff_node.mpr ⟨n, hn⟩) (by simpa using hx)
      rw [hn] at this
      cases this
      exact .refl n

theorem ofEdit {d₁ : Document} {log : List Sizing.Event} {edited : Except TreeError Document}
    (hd : d.Whole) (h : Altered d d₁) (he : ∀ e, edited = .ok e → Altered d₁ e) :
    Altered d (Sizing.Result.ofEdit d₁ log edited).document := by
  cases edited with
  | error _ => exact h
  | ok e => exact h.trans hd (he e rfl)

end Altered

end Document

namespace Sizing

theorem Measure.altered (hd : d.Whole) {value : String} (hv : d.fontSize? id = some value)
    (exponent : String) : Altered d (Measure.apply table d id exponent).document := by
  unfold Measure.apply
  split
  · exact .refl hd
  · split
    · exact .refl hd
    · split
      · exact .refl hd
      · exact .ofEdit hd (.refl hd) fun e he => .setValue hd hv he

theorem Step.altered (hd : d.Whole) {value : String} (hv : d.fontSize? id = some value)
    (exponent : String) : Altered d (Step.apply table d id exponent).document := by
  unfold Step.apply
  split
  · exact .refl hd
  · split
    · exact .refl hd
    · split
      · exact .refl hd
      · split
        · exact .refl hd
        · exact .refl hd
        · split
          · exact .refl hd
          case h_2 d₁ h₁ =>
            have t := (hd.insertNewAfter h₁).1
            have hl := (t.isLive id (isLive_of_fontSize? hv)).mpr (by simp)
            have hv₁ := fontSize?_of_edited hd t hl hv
            exact .ofEdit hd (.of_edited hd t) fun e he => .setValue t.whole hv₁ he

theorem Root.altered (hd : d.Whole) : Altered d (Root.apply table d id).document := by
  unfold Root.apply
  split
  · exact .refl hd
  · split
    · exact .refl hd
    · split
      case isFalse =>
        exact .ofEdit hd (.refl hd) fun e he => .of_edited hd (hd.remove he).1
      case isTrue =>
        unfold Root.expand
        split
        · exact .refl hd
        case h_2 d₁ h₁ =>
          have t₁ := (hd.insertNewAfter h₁).1
          split
          · exact .of_edited hd t₁
          case h_2 d₂ h₂ =>
            have t₂ := (t₁.whole.insertNewBefore h₂).1
            refine .ofEdit hd (.of_edited hd (t₁.trans hd t₂)) fun e he => ?_
            exact .of_edited t₂.whole (t₂.whole.replaceWithNew he).1

theorem run_altered (hd : d.Whole) (s : Sizing) : Altered d (s.run table d id).document := by
  cases s with
  | measure =>
    simp only [run, Measure.find]
    cases hv : d.fontSize? id with
    | none => exact .refl hd
    | some value =>
      split
      · exact Measure.altered hd hv _
      · exact .refl hd
  | step =>
    simp only [run, Step.find]
    cases hv : d.fontSize? id with
    | none => exact .refl hd
    | some value =>
      split
      · exact .refl hd
      · split
        · exact Step.altered hd hv _
        · exact .refl hd
  | root =>
    simp only [run, Root.find]
    split
    · exact Root.altered hd
    · exact .refl hd

end Sizing

namespace Pass

open Sizing

variable {p : Pass}

theorem reject_altered (hd : p.document.Whole) (line : Option Nat) (r : Rejection) :
    Altered p.document (p.reject line r).document := by
  rw [document_reject]
  split
  case h_1 x _ =>
    rw [document_excise]
    cases he : p.document.remove x with
    | error _ => exact .refl hd
    | ok e => exact .of_edited hd (hd.remove he).1
  case h_2 => exact .refl hd

theorem offer_altered (hd : p.document.Whole) (sizings : List Sizing) :
    Altered p.document (p.offer table id sizings).document := by
  induction sizings generalizing p with
  | nil => exact .refl hd
  | cons s rest ih =>
    have h : Altered p.document (s.run table p.document id).document := run_altered hd s
    unfold offer
    generalize s.run table p.document id = r at h
    cases ho : r.outcome with
    | notApplicable =>
      simp only [ho]
      exact h.trans hd (@ih ({ p with document := r.document }.note r.log) h.whole)
    | applied =>
      simp only [ho]
      exact h
    | rejected rejection =>
      simp only [ho]
      exact h.trans hd (reject_altered
        (p := ({ p with document := r.document }.note r.log).note [.rejected s]) h.whole _ rejection)

theorem visit_altered (hd : p.document.Whole) (table : Breakpoints) (id : NodeId) :
    Altered p.document (p.visit table id).document := by
  unfold visit
  split
  · exact offer_altered hd _
  · exact .refl hd

theorem foldl_visit_altered (hd : p.document.Whole) (table : Breakpoints)
    (visited : List NodeId) :
    Altered p.document (visited.foldl (visit table) p).document := by
  induction visited generalizing p with
  | nil => exact .refl hd
  | cons id visited ih =>
    have h := visit_altered hd table id
    exact h.trans hd (ih h.whole)

end Pass

/-- What a pass may do to a document. Nodes of the style sheet that stay in it keep their parents
and their order, and what they are but for the values of font sizes. A node that goes is removed
with all below it, and one that comes has a new number. Nodes apart from the style sheet stay as
they were. -/
structure Document.Reworked (d e : Document) : Prop where
  parent : ∀ id, d.isAttached id = true → e.isAttached id = true → e.parent? id = d.parent? id
  node : ∀ id, d.isAttached id = true → e.isAttached id = true →
    ∃ n m, d.node? id = some n ∧ e.node? id = some m ∧ n.Resized m
  order : e.nodes.filter (· ∈ d.nodes) = d.nodes.filter (· ∈ e.nodes)
  removed : ∀ id, d.isAttached id = true → e.isAttached id = false →
    ∀ x, x = id ∨ id ∈ d.ancestors x → e.isLive x = false
  added : ∀ id, e.isAttached id = true → d.isAttached id = false → d.next ≤ id
  detached : ∀ id, d.isLive id = true → d.isAttached id = false →
    e.isAttached id = false ∧ e.find? id = d.find? id ∧ e.ancestors id = d.ancestors id

namespace Document

/-- What other trees hold is found in them whatever the document is. -/
theorem find?_amid (h : id ∉ d.trees.numbers) :
    (d.amid before after).find? id = (before ++ after).find? (isNode id) := by
  rw [Document.find?, amid, Forest.find?_append, Forest.find?_append, Forest.find?_append,
    Forest.find?_eq_none_of_notMem h, Option.or_none]

theorem above?_amid (h : id ∉ d.trees.numbers) :
    (d.amid before after).trees.above? (isNode id) = (before ++ after).above? (isNode id) := by
  rw [amid, Forest.above?_append, Forest.above?_append, Forest.above?_append,
    Forest.above?_eq_none.mpr h, Option.or_none]

namespace Aside

theorem nodes_amid (ha : Aside before after d) (hd : d.Whole) :
    (d.amid before after).nodes = d.nodes := by
  have hr : Apart before after root := ha.apart root hd.toRooted.mem_root
  rw [nodes, attached, hr.find?, nodes, attached]

theorem notMem_of_not_apart (ha : Aside before after d) (h : ¬Apart before after id) :
    id ∉ d.trees.numbers :=
  fun hm => h (ha.apart id hm)

/-- The nodes above one of another tree are in the other trees too. -/
theorem not_apart_of_mem_ancestors (ha : Aside before after d) (h : ¬Apart before after id)
    {x : NodeId} (hx : x ∈ (d.amid before after).ancestors id) : ¬Apart before after x := by
  rw [ancestors, above?_amid (ha.notMem_of_not_apart h)] at hx
  cases has : (before ++ after).above? (isNode id) with
  | none => simp [has] at hx
  | some as =>
    rw [has, Option.getD_some] at hx
    have hm := List.map_subset Prod.fst (Forest.above?_subset has) hx
    rw [Forest.toList_append, List.map_append, List.mem_append] at hm
    exact fun hapart => hm.elim hapart.before hapart.after

/-- The nodes of a style sheet amid other trees are just its own. -/
theorem isAttached_amid (ha : Aside before after d) (hd : d.Whole) (id : NodeId) :
    (d.amid before after).isAttached id = d.isLive id := by
  by_cases h : Apart before after id
  · rw [h.isAttached, hd.isAttached_eq]
  · have hn : d.isLive id = false := by
      rw [Bool.eq_false_iff]
      exact fun hl => h (ha.of_isLive hl)
    rw [hn, Bool.eq_false_iff]
    intro hl
    rw [isAttached, Bool.and_eq_true, beq_iff_eq] at hl
    have hroot : Apart before after root := ha.apart root hd.toRooted.mem_root
    cases hlast : ((d.amid before after).ancestors id).getLast? with
    | none =>
      rw [hlast, Option.getD_none] at hl
      exact h (hl.2 ▸ hroot)
    | some x =>
      rw [hlast, Option.getD_some] at hl
      exact ha.not_apart_of_mem_ancestors h (List.mem_of_getLast? hlast) (hl.2 ▸ hroot)

end Aside

/-- Old nodes that are still there are in their old order. -/
theorem Altered.filter_nodes (h : Altered d e) (hd : d.Whole) :
    e.nodes.filter (· ∈ d.nodes) = d.nodes.filter (· ∈ e.nodes) := by
  obtain ⟨_, k⟩ := h.keeps
  rw [hd.nodes_eq, h.whole.nodes_eq]
  have hold : ∀ x ∈ e.trees.numbers, x ∈ d.trees.numbers ↔ x < d.next := by
    intro x hx
    refine ⟨hd.lt_next x, fun hlt => isLive_iff.mp (k.isLive_of_isLive hlt (isLive_iff.mpr hx))⟩
  have hf : e.trees.numbers.filter (· ∈ d.trees.numbers) = e.trees.numbers.filter (· < d.next) :=
    List.filter_congr fun x hx => by simpa using hold x hx
  rw [hf, ← filter_mem_of_sublist k.order hd.nodup]
  refine List.filter_congr fun x hx => ?_
  simpa using fun _ => hd.lt_next x hx

/-- What is done to a style sheet amid other trees is done to it alone. -/
theorem Altered.reworked (h : Altered d e) (hd : d.Whole) (ha : Aside before after d) :
    Reworked (d.amid before after) (e.amid before after) := by
  obtain ⟨_, k⟩ := h.keeps
  have ha' := ha.of_keeps k
  constructor
  case parent =>
    intro id hid hid'
    rw [ha.isAttached_amid hd] at hid
    rw [ha'.isAttached_amid h.whole] at hid'
    have hapart := ha.of_isLive hid
    rw [hapart.parent?, hapart.parent?, Document.parent?, k.ancestors id (hd.lt_of_isLive hid) hid',
      Document.parent?]
  case node =>
    intro id hid hid'
    rw [ha.isAttached_amid hd] at hid
    rw [ha'.isAttached_amid h.whole] at hid'
    have hapart := ha.of_isLive hid
    rw [hapart.node?, hapart.node?]
    obtain ⟨n, hn⟩ := isLive_iff_node.mp hid
    obtain ⟨m, hm⟩ := isLive_iff_node.mp hid'
    exact ⟨n, m, hn, hm, h.node id n m hn hm⟩
  case order =>
    rw [ha.nodes_amid hd, ha'.nodes_amid h.whole]
    exact h.filter_nodes hd
  case removed =>
    intro id hid hid' x hx
    rw [ha.isAttached_amid hd] at hid
    rw [ha'.isAttached_amid h.whole] at hid'
    have hapart := ha.of_isLive hid
    rcases hx with rfl | hx
    · rw [hapart.isLive]
      exact hid'
    · have hxapart : Apart before after x := by
        by_contra hn
        exact ha.not_apart_of_mem_ancestors hn hx hapart
      rw [hxapart.ancestors] at hx
      rw [hxapart.isLive, Bool.eq_false_iff]
      intro hl
      rw [← k.ancestors x (hd.lt_of_isLive (isLive_of_ancestor hx)) hl] at hx
      rw [isLive_of_mem_ancestors hx] at hid'
      cases hid'
  case added =>
    intro id hid hid'
    rw [ha'.isAttached_amid h.whole] at hid
    rw [ha.isAttached_amid hd] at hid'
    by_contra hlt
    rw [k.isLive_of_isLive (Nat.lt_of_not_le hlt) hid] at hid'
    cases hid'
  case detached =>
    intro id hid hid'
    rw [ha.isAttached_amid hd] at hid'
    have hapart : ¬Apart before after id := fun hn => by
      rw [hn.isLive, hid'] at hid
      cases hid
    have hold := ha.notMem_of_not_apart hapart
    have hnew := ha'.notMem_of_not_apart hapart
    refine ⟨?_, ?_, ?_⟩
    · rw [ha'.isAttached_amid h.whole, Bool.eq_false_iff, Ne, isLive_iff]
      exact hnew
    · rw [find?_amid hnew, find?_amid hold]
    · rw [Document.ancestors, Document.ancestors, above?_amid hnew, above?_amid hold]

end Document

/-- A pass over any document that edits have built leaves all else alone. -/
theorem Pass.run_reworked (h : Built d) (table : Breakpoints) :
    Reworked d (run table d).document := by
  obtain ⟨before, after, w, rfl, hw, ha⟩ := h.rooted.exists_amid
  rw [run_amid hw ha]
  exact (foldl_visit_altered (p := start w) hw table w.declarations).reworked hw ha

/-- The same for a style sheet with a declaration that stands apart from it. -/
theorem Pass.run_reworked_created :
    let d := ((ofForest (.single (.made (.rule "p"))
      (.single (.made (.declaration "font-size" "0ms" true)) .nil))).create
        (.made (.declaration "font-size" "0ms" false))).2
    Built d ∧ Reworked d (run .standard d).document ∧
      (run .standard d).document.node? 2 = some (.made (.declaration "font-size" "1rem" true)) ∧
      (run .standard d).document.node? 3 = some (.made (.declaration "font-size" "0ms" false)) := by
  have hb : Built ((ofForest (.single (.made (.rule "p"))
      (.single (.made (.declaration "font-size" "0ms" true)) .nil))).create
        (.made (.declaration "font-size" "0ms" false))).2 := .create _ (.ofForest _)
  exact ⟨hb, run_reworked hb .standard, by decide +kernel, by decide +kernel⟩

end ModularScale
