import Mathlib
import ModularScale.Proofs.Sizing.Settled

/-! # Repeated passes

A pass settles all font sizes of a style sheet that was read. Where none of them is that of the root
element, a second pass finds nothing to do.
-/

namespace ModularScale

open Document Sizing

variable {table : Breakpoints} {p : Pass} {d e : Document} {id : NodeId} {later : List NodeId}

/-- All font sizes are settled but those of some declarations. -/
def Document.SettledBut (later : List NodeId) (d : Document) : Prop :=
  ∀ id n, d.node? id = some n → id ∉ later → Settled n

namespace Document

theorem mem_declarations {n : Node} {value : String} (hd : d.Whole) (hn : d.node? id = some n)
    (hv : fontSizeOf? n.kind = some value) : id ∈ d.declarations := by
  have hk : n.kind.isDeclaration = true := by
    cases hk : n.kind with
    | declaration => rfl
    | _ => rw [hk] at hv; cases hv
  rw [declarations, hd.attached_eq, List.mem_map]
  exact ⟨(id, n), List.mem_filter.mpr ⟨mem_of_node? hn, hk⟩, rfl⟩

theorem settledBut_declarations (hd : d.Whole) : SettledBut d.declarations d :=
  fun _ _ hn hid _ hv => absurd (mem_declarations hd hn hv) hid

theorem isPlain_of_passes {value : String} (h : ∀ s : Sizing, s.Passes d id)
    (hv : d.fontSize? id = some value) : Root.isPlain value = true := by
  have hm : Measure.exponent? value = none := by simpa [Passes, hv] using h .measure
  have hs : Step.argument? value = none := by simpa [Passes, hv] using h .step
  simp [Root.isPlain, hm, hs]

end Document

namespace Pass

/-- A visit settles its declaration, unless it removes it. -/
theorem isPlain_of_visit {q : Pass} (hd : p.document.Nested) (h : Visit table id p q)
    {value : String} (hv : q.document.fontSize? id = some value) : Root.isPlain value = true := by
  cases h with
  | passed hp => exact isPlain_of_passes (hp (isLive_of_fontSize? hv)) hv
  | taken _ ht => exact ht.settled hd.toWhole hv
  | @refused s r hr =>
    obtain ⟨x, e, _, hx, he, -, hq⟩ :=
      reject_of_removes (p := p.note [.rejected s]) hr (p.document.line? id)
    rw [hq] at hv
    obtain ⟨y, hy, -, -, hyid⟩ := hr.excise
    obtain rfl : x = y := Option.some.inj (hx.symm.trans hy)
    obtain ⟨t, hback⟩ := hd.toWhole.remove he
    have hl := isLive_of_fontSize? hv
    obtain ⟨hne, hnot⟩ := (t.isLive id (hback id hl)).mp hl x rfl
    rcases hyid with rfl | hm
    · exact absurd rfl hne
    · exact absurd hm hnot

/-- The nodes that a visit makes are settled. -/
theorem settled_of_fresh {q : Pass} (hd : p.document.Nested) (h : Visit table id p q)
    {x : NodeId} {n : Node} (hn : q.document.node? x = some n)
    (hx : p.document.isLive x = false) : Settled n := by
  have hl := isLive_iff_node.mpr ⟨n, hn⟩
  cases h with
  | passed => rw [hl] at hx; cases hx
  | taken _ ht => exact ht.settled_of_fresh hd.toWhole hn hx
  | @refused s r hr =>
    obtain ⟨_, e, _, -, he, -, hq⟩ :=
      reject_of_removes (p := p.note [.rejected s]) hr (p.document.line? id)
    rw [hq] at hl
    rw [(hd.toWhole.remove he).2 x hl] at hx
    cases hx

theorem settledBut_visit (hd : p.document.Nested)
    (h : p.document.SettledBut (id :: later)) : (p.visit table id).document.SettledBut later := by
  have hv := visit_visit hd table id
  obtain ⟨lost, t, -⟩ := (visit_visited table id hd.toWhole).edited
  intro x n hn hx
  by_cases he : x = id
  · subst he
    intro value hvalue
    have hf : (p.visit table x).document.fontSize? x = some value := by
      rw [fontSize?, hn]
      exact hvalue
    exact isPlain_of_visit hd hv hf
  · cases hl : p.document.isLive x with
    | true =>
      have hold := t.node?_of_isLive hd.toWhole hn hl (by simpa using he)
      exact h x n hold (by simp [he, hx])
    | false => exact settled_of_fresh hd hv hn hl

theorem settledBut_foldl (hp : p.Orderly) (h : p.document.SettledBut later) :
    (later.foldl (visit table) p).document.SettledBut [] := by
  induction later generalizing p with
  | nil => exact h
  | cons id later ih => exact ih (hp.visit table id) (settledBut_visit hp.nested h)

/-- A visit leaves a declaration alone that no way of giving a font size is about. -/
theorem visit_eq_of_passes (h : ∀ s : Sizing, s.Passes p.document id) : p.visit table id = p := by
  have hrun : ∀ s : Sizing, s.run table p.document id = .unchanged p.document .notApplicable :=
    fun s => run_of_passes (h s)
  have hnote : ({ p with document := p.document }.note []) = p := note_nil p
  unfold visit
  split
  · simp only [Sizing.all, offer, hrun, Result.unchanged, hnote]
  · rfl

theorem run_eq_start (h : ∀ id, ∀ s : Sizing, s.Passes d id) (table : Breakpoints) :
    run table d = start d := by
  unfold run
  induction d.declarations with
  | nil => rfl
  | cons id ids ih =>
    have hv : visit table (start d) id = start d := visit_eq_of_passes (h id)
    rw [List.foldl_cons, hv, ih]

end Pass

/-! ### Font sizes of the root element -/

/-- The nearest rule around what is below a node, given that around the node. -/
def Sizing.ruleBelow (rule : Option Kind) (n : Node) : Option Kind :=
  if Root.isRule n.kind then some n.kind else rule

/-- A node has no font size if the nearest rule around it is that of the root element. -/
def Sizing.OffRoot (rule : Option Kind) (n : Node) : Prop :=
  (fontSizeOf? n.kind).isSome = true → rule.any Root.isRuleOfRoot = false

/-- No font size has the rule of the root element as the nearest around it. -/
def Document.OffRoot (d : Document) : Prop :=
  d.Inherits ruleBelow Sizing.OffRoot none

namespace Document

theorem enclosingRule?_eq (d : Document) (id : NodeId) :
    Root.enclosingRule? d id = (d.around id).foldr (fun n rule => ruleBelow rule n) none := by
  have hf : ∀ ns : List Node, ns.foldr (fun n rule => ruleBelow rule n) none =
      (ns.map Node.kind).find? Root.isRule := by
    intro ns
    induction ns with
    | nil => rfl
    | cons n ns ih =>
      rw [List.foldr_cons, List.map_cons, List.find?_cons, ih, ruleBelow]
      cases Root.isRule n.kind <;> rfl
  rw [hf, around, List.map_filterMap]
  rfl

theorem offRoot_iff (hd : d.trees.numbers.Nodup) : d.OffRoot ↔
    ∀ id, (d.fontSize? id).isSome = true →
      (Root.enclosingRule? d id).any Root.isRuleOfRoot = false := by
  rw [OffRoot, inherits_iff hd]
  constructor
  · intro h id hs
    obtain ⟨value, hv⟩ := Option.isSome_iff_exists.mp hs
    obtain ⟨n, hn, hk⟩ := Option.bind_eq_some_iff.mp hv
    rw [enclosingRule?_eq]
    exact h id n hn (by rw [hk]; rfl)
  · intro h id n hn hs
    rw [← enclosingRule?_eq]
    refine h id ?_
    rw [fontSize?, hn]
    exact hs

end Document

namespace Sizing

open Forest

theorem along_blocks {selector : String} (h : Root.selectsRoot selector = false)
    (sizes : List (Breakpoint × String)) (rule : Option Kind) :
    (Step.blocks selector sizes).Along ruleBelow Sizing.OffRoot rule := by
  induction sizes with
  | nil => trivial
  | cons size sizes ih =>
    have hblock : (Template.mediaBlock size.1.value selector
        (single (Template.fontSize size.2) nil)).Along ruleBelow Sizing.OffRoot rule :=
      ⟨nofun, ⟨nofun, ⟨fun _ => h, trivial, trivial⟩, trivial⟩, trivial⟩
    exact along_append.mpr ⟨hblock, ih⟩

theorem offRoot_setValue (hd : d.Whole) (h : d.OffRoot) {value : String}
    (he : d.setValue id value = .ok e) : e.OffRoot := by
  unfold Document.setValue at he
  split at he
  case h_1 => cases he
  case h_2 property old important hk =>
    obtain ⟨n, hn, hk⟩ := node?_of_kind hk
    refine Inherits.setKind h hd.nodup he fun m hm rule hs => ?_
    obtain rfl : n = m := Option.some.inj (hn.symm.trans hm)
    have hsome : (fontSizeOf? (.declaration property value important)).isSome =
        (fontSizeOf? n.kind).isSome := by
      rw [hk]
      simp only [fontSizeOf?]
      split <;> rfl
    refine ⟨fun hv => hs (hsome ▸ hv), ?_⟩
    rw [ruleBelow, ruleBelow, hk]
    rfl
  case h_3 => cases he; exact h

theorem Taken.offRoot {s : Sizing} {r : Result} (hd : d.Whole) (h : d.OffRoot)
    (ht : Taken table d id s r) : r.document.OffRoot := by
  have hiff := (offRoot_iff hd.nodup).mp h id
  have hparent : ∀ rule selector, (d.fontSize? id).isSome = true → d.parent? id = some rule →
      d.kind rule = .ok (.rule selector) → Root.selectsRoot selector = false := by
    intro rule selector hs hp hk
    obtain ⟨m, hm, hmk⟩ := node?_of_kind hk
    have hr := hiff hs
    rw [enclosingRule?_eq, around, hd.ancestors_of_parent hp, List.filterMap_cons_some hm,
      List.foldr_cons, ruleBelow, hmk] at hr
    exact hr
  cases ht with
  | measured _ _ _ _ he => exact offRoot_setValue hd h he
  | stepped hv hp hk _ _ h₁ he =>
    obtain ⟨old, hold, -⟩ := Option.bind_eq_some_iff.mp hv
    have hsel := hparent _ _ (by rw [hold]; rfl) hp hk
    have h' := Inherits.insertNewAfter h hd.nodup h₁ fun _ _ rule _ => along_blocks hsel _ rule
    exact offRoot_setValue (hd.insertNewAfter h₁).1.whole h' he
  | rooted hv hp hk hsel _ _ _ =>
    obtain ⟨old, hold, -⟩ := (Option.any_eq_true _ _).mp hv
    rw [hparent _ _ (by rw [hold]; rfl) hp hk] at hsel
    cases hsel
  | dropped hv hr _ =>
    obtain ⟨old, hold, -⟩ := (Option.any_eq_true _ _).mp hv
    rw [hiff (by rw [hold]; rfl)] at hr
    cases hr

end Sizing

namespace Pass

theorem offRoot_visit (hd : p.document.Nested) (h : p.document.OffRoot) (table : Breakpoints)
    (id : NodeId) : (p.visit table id).document.OffRoot := by
  have hv := visit_visit hd table id
  generalize p.visit table id = q at hv
  cases hv with
  | passed => exact h
  | taken _ ht => exact ht.offRoot hd.toWhole h
  | @refused s r hr =>
    obtain ⟨_, e, _, -, he, -, hq⟩ :=
      reject_of_removes (p := p.note [.rejected s]) hr (p.document.line? id)
    rw [hq]
    exact Inherits.remove h he

theorem offRoot_foldl (hp : p.Orderly) (h : p.document.OffRoot) (table : Breakpoints) :
    (later.foldl (visit table) p).document.OffRoot := by
  induction later generalizing p with
  | nil => exact h
  | cons id later ih => exact ih (hp.visit table id) (offRoot_visit hp.nested h table id)

theorem offRoot_run (hd : d.Nested) (h : d.OffRoot) (table : Breakpoints) :
    (run table d).document.OffRoot :=
  offRoot_foldl (start_orderly hd) h table

/-- A pass leaves no font size that is to be converted. -/
theorem isPlain_of_run (hd : d.Nested) {value : String}
    (hv : (run table d).document.fontSize? id = some value) : Root.isPlain value = true := by
  have hs : (run table d).document.SettledBut [] :=
    settledBut_foldl (start_orderly hd) (settledBut_declarations hd.toWhole)
  obtain ⟨n, hn, hk⟩ := Option.bind_eq_some_iff.mp hv
  exact hs id n hn List.not_mem_nil value hk

/-- Where all font sizes are plain and none is that of the root element there is nothing to do. -/
theorem passes_of_isPlain (hd : d.Whole) (ho : d.OffRoot)
    (hp : ∀ id value, d.fontSize? id = some value → Root.isPlain value = true) (id : NodeId)
    (s : Sizing) : s.Passes d id := by
  cases hv : d.fontSize? id with
  | none => cases s <;> simp [Passes, hv]
  | some value =>
    have hplain := hp id value hv
    simp only [Root.isPlain, Bool.and_eq_true, Option.isNone_iff_eq_none] at hplain
    cases s with
    | measure => simp [Passes, hv, hplain.1]
    | step => simp [Passes, hv, hplain.2]
    | root => simp [Passes, (offRoot_iff hd.nodup).mp ho id (by rw [hv]; rfl)]

/-- After a pass over a style sheet that was read no font size is left to be converted. If there
was none of the root element, another pass changes nothing and reports nothing. -/
theorem run_settled (text : String) (table : Breakpoints) :
    let d := Document.ofSheet (Css.Sheet.ofText text)
    (∀ id value, (run table d).document.isAttached id = true →
      (run table d).document.fontSize? id = some value →
      Measure.exponent? value = none ∧ Step.argument? value = none) ∧
    ((∀ id ∈ d.declarations, (d.fontSize? id).isSome = true →
        (Root.enclosingRule? d id).any Root.isRuleOfRoot = false) →
      ∀ table', run table' (run table d).document = start (run table d).document) := by
  have hd := Document.ofSheet_nested text
  generalize Document.ofSheet (Css.Sheet.ofText text) = d at hd
  have hplain : ∀ id value, (run table d).document.fontSize? id = some value →
      Root.isPlain value = true := fun _ _ => isPlain_of_run hd
  refine ⟨fun id value _ hv => ?_, fun hroot table' => ?_⟩
  · simpa [Root.isPlain] using hplain id value hv
  · have hoff : d.OffRoot := (offRoot_iff hd.nodup).mpr fun id hs => by
      obtain ⟨value, hv⟩ := Option.isSome_iff_exists.mp hs
      obtain ⟨n, hn, hk⟩ := Option.bind_eq_some_iff.mp hv
      exact hroot id (mem_declarations hd.toWhole hn hk) hs
    have hw := (run_orderly hd table).nested.toWhole
    exact run_eq_start (passes_of_isPlain hw (offRoot_run hd hoff table) hplain) table'

theorem sheet_of_steps : Css.Sheet.ofText "p { font-size: 0ms; color: red }" =
    ⟨.single ⟨.rule "p", some 1⟩
      (.cons ⟨.declaration "font-size" "0ms" false, some 1⟩ .nil
        (.single ⟨.declaration "color" "red" false, some 1⟩ .nil)), 0⟩ := by
  rw [Css.Sheet.ofText, Css.Components.ofText, Css.Components.ofLexemes_eq]
  cbv

theorem run_settled_steps :
    let d := Document.ofSheet (Css.Sheet.ofText "p { font-size: 0ms; color: red }")
    ((run .standard d).document.isAttached 2 = true ∧
      (run .standard d).document.fontSize? 2 = some "1rem" ∧
      Measure.exponent? "1rem" = none ∧ Step.argument? "1rem" = none) ∧
    (∀ id ∈ d.declarations, (d.fontSize? id).isSome = true →
      (Root.enclosingRule? d id).any Root.isRuleOfRoot = false) ∧
    run .standard (run .standard d).document = start (run .standard d).document := by
  have hset := run_settled "p { font-size: 0ms; color: red }" .standard
  have ha : (run .standard (Document.ofSheet (Css.Sheet.ofText
      "p { font-size: 0ms; color: red }"))).document.isAttached 2 = true := by
    rw [sheet_of_steps]
    decide +kernel
  have hv : (run .standard (Document.ofSheet (Css.Sheet.ofText
      "p { font-size: 0ms; color: red }"))).document.fontSize? 2 = some "1rem" := by
    rw [sheet_of_steps]
    decide +kernel
  have hroot : ∀ id ∈ (Document.ofSheet (Css.Sheet.ofText
        "p { font-size: 0ms; color: red }")).declarations,
      ((Document.ofSheet (Css.Sheet.ofText
        "p { font-size: 0ms; color: red }")).fontSize? id).isSome = true →
      (Root.enclosingRule? (Document.ofSheet (Css.Sheet.ofText
        "p { font-size: 0ms; color: red }")) id).any Root.isRuleOfRoot = false := by
    rw [sheet_of_steps]
    decide +kernel
  exact ⟨⟨ha, hv, hset.1 2 "1rem" ha hv⟩, hroot, hset.2 hroot .standard⟩

end Pass

end ModularScale
