import ModularScale.Proofs.Document.OfSheet
import ModularScale.Proofs.Sizing.Outcome

/-! # The shape of style sheets

Passes over a style sheet that was read keep all nodes where such nodes can stand. So they never
meet a failure of an edit, and all that a rejection asks to be removed is removed.
-/

namespace ModularScale

open Document

variable {table : Breakpoints} {d : Document} {id : NodeId}

namespace Forest

variable {site : Site} {f g : Forest Node}

theorem Nests.append (hf : f.Nests site) (hg : g.Nests site) : (f ++ g).Nests site :=
  along_append.mpr ⟨hf, hg⟩

/-- A block for some viewports can stand where a rule can. -/
theorem nests_mediaBlock {minWidth selector rule : String} (h : (Kind.rule rule).fits site = true)
    (hf : f.Nests .block) : (Template.mediaBlock minWidth selector f).Nests site :=
  ⟨h, ⟨rfl, hf, trivial⟩, trivial⟩

theorem nests_declaration {n : Node} (h : n.kind.isDeclaration = true) :
    (single n nil).Nests .block := by
  refine ⟨?_, trivial, trivial⟩
  cases hk : n.kind <;> simp_all [Kind.isDeclaration, Kind.fits]

end Forest

namespace Sizing

open Forest

theorem Step.nests_blocks {site : Site} {rule : String} (h : (Kind.rule rule).fits site = true)
    (selector : String) (sizes : List (Breakpoint × String)) :
    (Step.blocks selector sizes).Nests site := by
  induction sizes with
  | nil => trivial
  | cons size sizes ih => exact (nests_mediaBlock h (nests_declaration rfl)).append ih

theorem Root.nests_blocks {site : Site} {rule : String} (h : (Kind.rule rule).fits site = true)
    (scale : Scale) (bs : List Breakpoint) : (Root.blocks scale bs).Nests site := by
  induction bs with
  | nil => trivial
  | cons b bs ih =>
    refine (nests_mediaBlock h ?_).append ih
    exact ⟨rfl, trivial, nests_declaration rfl⟩

theorem Root.nests_widthProperties (bs : List Breakpoint) :
    (Root.widthProperties bs).Nests .block := by
  induction bs with
  | nil => trivial
  | cons b bs ih => exact ⟨rfl, trivial, ih⟩

theorem eq_block_of_fits {kind : Kind} {site : Site} (hk : kind.isDeclaration = true)
    (h : kind.fits site = true) : site = .block := by
  cases kind <;> simp_all [Kind.isDeclaration, Kind.fits]

/-- Whatever is made of a declaration, all nodes stand where they can. -/
theorem Taken.nested {s : Sizing} {r : Result} (hd : d.Nested) (h : Taken table d id s r) :
    r.document.Nested := by
  cases h with
  | measured _ _ _ _ he => exact hd.setValue he
  | stepped _ _ hk _ _ h₁ he =>
    refine (hd.insertNewAfter h₁ fun n hn site hs => ?_).setValue he
    rw [kind_of_node? hn, Except.ok.injEq] at hk
    exact Step.nests_blocks (hk ▸ hs) _ _
  | rooted hv hp hk _ h₁ h₂ he =>
    obtain ⟨value, hf, -⟩ := (Option.any_eq_true _ _).mp hv
    obtain ⟨n, property, important, hn, hkn, -⟩ := exists_of_fontSize? hf
    have hl := isLive_of_fontSize? hf
    have hdecl : n.kind.isDeclaration = true := by rw [hkn]; rfl
    have hd₁ := hd.insertNewAfter h₁ fun m hm site hs => by
      rw [kind_of_node? hm, Except.ok.injEq] at hk
      exact Root.nests_blocks (hk ▸ hs) _ _
    have t₁ := (hd.toWhole.insertNewAfter h₁).1
    have hl₁ := (t₁.isLive id hl).mpr (by simp)
    have hn₁ : d.node? id = some n → (_ : Document).node? id = some n :=
      (t₁.node id (hd.lt_of_isLive hl) (by simp) hl₁).trans
    have hd₂ := hd₁.insertNewBefore h₂ fun m hm site hs => by
      obtain rfl := Option.some.inj ((hn₁ hn).symm.trans hm)
      rw [eq_block_of_fits hdecl hs]
      exact Root.nests_widthProperties _
    have t₂ := (hd₁.toWhole.insertNewBefore h₂).1
    have hl₂ := (t₂.isLive id hl₁).mpr (by simp)
    have hn₂ := (t₂.node id (hd₁.lt_of_isLive hl₁) (by simp) hl₂).trans (hn₁ hn)
    refine hd₂.replaceWithNew he fun m hm site hs => ?_
    obtain rfl := Option.some.inj (hn₂.symm.trans hm)
    rw [eq_block_of_fits hdecl hs]
    rfl
  | dropped _ _ he => exact hd.remove he

theorem Taken.excisionFailed_notMem {s : Sizing} {r : Result} (h : Taken table d id s r)
    (e : TreeError) : .excisionFailed e ∉ r.log := by
  cases h <;> simp [Step.events]

end Sizing

namespace Pass

open Sizing

variable {p q : Pass}

/-- What the rejection of a declaration comes to. -/
theorem reject_of_removes {r : Rejection} (hr : r.Removes p.document id) (line : Option Nat) :
    ∃ x e diagnostic, r.excise = some x ∧ p.document.remove x = .ok e ∧
      diagnostic.message = r.cause.message ∧
      p.reject line r = ⟨e, ⟨p.report.converted, p.report.diagnostics ++ [diagnostic]⟩,
        p.log ++ [.reported diagnostic]⟩ := by
  obtain ⟨-, x, hx, hroot, hl, -⟩ := hr
  have he := remove_eq_ok hroot hl
  refine ⟨x, _, ⟨r.cause.message, line.or (p.document.line? x)⟩, hx, he, rfl, ?_⟩
  simp only [reject, hx, excise, he, note, Option.bind_some]

/-- A pass that has so far kept the shape of the style sheet and removed all that it should. -/
structure Orderly (p : Pass) : Prop where
  nested : p.document.Nested
  log : ∀ e, .excisionFailed e ∉ p.log
  diagnostics : ∀ diagnostic ∈ p.report.diagnostics,
    ∃ cause : SizingError, cause.isMisplaced = false ∧ diagnostic.message = cause.message

theorem Orderly.visit (h : p.Orderly) (table : Breakpoints) (id : NodeId) :
    (p.visit table id).Orderly := by
  have hv := visit_visit h.nested table id
  generalize p.visit table id = q at hv
  cases hv with
  | passed => exact h
  | taken _ ht =>
    refine ⟨ht.nested h.nested, fun e he => ?_, h.diagnostics⟩
    rcases List.mem_append.mp he with he | he
    · exact h.log e he
    · exact ht.excisionFailed_notMem e he
  | @refused s r hr =>
    obtain ⟨x, e, diagnostic, -, he, hm, hq⟩ :=
      reject_of_removes (p := p.note [.rejected s]) hr (p.document.line? id)
    rw [hq]
    refine ⟨h.nested.remove he, fun e he => ?_, fun d hd => ?_⟩
    · have := h.log e
      simp [note, this] at he
    · rcases List.mem_append.mp hd with hd | hd
      · exact h.diagnostics d hd
      · obtain rfl := List.mem_singleton.mp hd
        exact ⟨r.cause, hr.cause, hm⟩

theorem Orderly.foldl_visit (h : p.Orderly) (table : Breakpoints) (visited : List NodeId) :
    (visited.foldl (Pass.visit table) p).Orderly := by
  induction visited generalizing p with
  | nil => exact h
  | cons id visited ih => exact ih (h.visit table id)

theorem start_orderly (hd : d.Nested) : (start d).Orderly :=
  ⟨hd, fun _ => List.not_mem_nil, by simp [start]⟩

theorem run_orderly (hd : d.Nested) (table : Breakpoints) : (run table d).Orderly :=
  (start_orderly hd).foldl_visit table d.declarations

end Pass

/-- The shape of a style sheet. The root has no declarations right below it, and only rules and
at-rules with a block have others below them. -/
structure Document.WellFormed (d : Document) : Prop where
  kind_root : d.kind root = .ok .root
  eq_root : ∀ id, d.isAttached id = true → d.kind id = .ok .root → id = root
  top : ∀ id ∈ d.children root, (∃ selector, d.kind id = .ok (.rule selector)) ∨
    (∃ name params afterName hasBlock, d.kind id = .ok (.atRule name params afterName hasBlock)) ∨
    ∃ text, d.kind id = .ok (.comment text)
  leaf : ∀ id kind, d.isAttached id = true → d.kind id = .ok kind → kind.hasBlock = false →
    d.children id = []
  parent : ∀ id property value important, d.isAttached id = true →
    d.kind id = .ok (.declaration property value important) →
    ∃ parent, d.parent? id = some parent ∧ ((∃ selector, d.kind parent = .ok (.rule selector)) ∨
      ∃ name params afterName, d.kind parent = .ok (.atRule name params afterName true))

namespace Document.Nested

theorem children_eq {d : Document} {n : Node} (hd : d.Nested) (hn : d.node? id = some n) :
    ∃ below : Forest (NodeId × Node), (below.map Prod.snd).Nests n.kind.inside ∧
      d.children id = below.tops.map Prod.fst ∧ ∀ a ∈ below.toList, d.node? a.1 = some a.2 := by
  obtain ⟨⟨a, below⟩, hf, rfl⟩ := Option.map_eq_some_iff.mp hn
  refine ⟨below, hd.nests_below hf, by simp [children, hf], fun b hb => ?_⟩
  rw [node?_eq_some_iff hd.nodup]
  exact Forest.find?_subset hf hb

/-- In a document whose nodes stand where they can the tree has the shape of a style sheet. -/
theorem wellFormed {d : Document} (hd : d.Nested) : d.WellFormed where
  kind_root := hd.kind_root
  eq_root _ _ := hd.eq_root
  top id h := by
    obtain ⟨n, hn, hk⟩ := node?_of_kind hd.kind_root
    obtain ⟨below, hb, hc, hbelow⟩ := hd.children_eq hn
    rw [hc] at h
    obtain ⟨a, ha, rfl⟩ := List.mem_map.mp h
    have hf : a.2.kind.fits .sheet = true := by
      rw [hk] at hb
      refine hb.tops a.2 ?_
      rw [Forest.tops_map]
      exact List.mem_map_of_mem ha
    rw [kind_of_node? (hbelow a (Forest.tops_subset below ha))]
    cases hk : a.2.kind with
    | rule selector => exact .inl ⟨selector, rfl⟩
    | atRule name params afterName hasBlock => exact .inr (.inl ⟨_, _, _, _, rfl⟩)
    | comment text => exact .inr (.inr ⟨text, rfl⟩)
    | root => rw [hk] at hf; cases hf
    | declaration => rw [hk] at hf; cases hf
  leaf id kind _ hk hb := by
    obtain ⟨n, hn, rfl⟩ := node?_of_kind hk
    obtain ⟨below, hbelow, hc, -⟩ := hd.children_eq hn
    rw [Kind.inside_eq_leaf hb] at hbelow
    have he := Forest.nests_leaf hbelow
    cases below with
    | nil => exact hc
    | cons => cases he
  parent id property value important hl hk := by
    rw [hd.isAttached_eq] at hl
    obtain ⟨n, hn, hkn⟩ := node?_of_kind hk
    have hr : id ≠ root := hd.ne_root hk (by simp)
    obtain ⟨parent, hp⟩ := Option.isSome_iff_exists.mp (hd.parent_isSome hl hr)
    obtain ⟨m, hm⟩ := node_parent hp
    have hf := hd.fits hp hn hm
    rw [hkn, Kind.fits, decide_eq_true_eq] at hf
    refine ⟨parent, hp, ?_⟩
    rw [kind_of_node? hm]
    cases hk : m.kind with
    | rule selector => exact .inl ⟨selector, rfl⟩
    | atRule name params afterName hasBlock =>
      cases hasBlock with
      | true => exact .inr ⟨name, params, afterName, rfl⟩
      | false => rw [hk] at hf; cases hf
    | root => rw [hk] at hf; cases hf
    | declaration => rw [hk] at hf; cases hf
    | comment => rw [hk] at hf; cases hf

end Document.Nested

namespace Pass

/-- A pass that keeps the shape of the style sheet from visit to visit. No way of giving a font
size fails because of where a node stands, and each rejection removes what it asks for. -/
structure Sound (table : Breakpoints) (d : Document) : Prop where
  wellFormed : ∀ visited later, d.declarations = visited ++ later →
    (visited.foldl (visit table) (start d)).document.WellFormed
  rejected : ∀ visited id later, d.declarations = visited ++ id :: later →
    ∀ (s : Sizing) r, (s.run table (visited.foldl (visit table) (start d)).document id).outcome =
      .rejected r → r.cause.isMisplaced = false ∧ ∃ x e, r.excise = some x ∧
        (visited.foldl (visit table) (start d)).document.remove x = .ok e
  log : ∀ e, .excisionFailed e ∉ (run table d).log
  diagnostics : ∀ diagnostic ∈ (run table d).report.diagnostics,
    ∃ cause : SizingError, cause.isMisplaced = false ∧ diagnostic.message = cause.message

theorem sound_of_nested (hd : d.Nested) (table : Breakpoints) : Sound table d where
  wellFormed visited _ _ := ((start_orderly hd).foldl_visit table visited).nested.wellFormed
  rejected visited id _ _ s r hr := by
    have h := ((start_orderly hd).foldl_visit table visited).nested
    generalize (visited.foldl (visit table) (start d)).document = d' at h hr ⊢
    have ho : Sizing.Offered table d' id s (s.run table d' id) := Sizing.run_offered h s
    generalize s.run table d' id = result at ho hr
    cases ho with
    | passed => cases hr
    | taken ht => cases ht <;> cases hr
    | refused hrem =>
      cases hr
      obtain ⟨x, hx, hroot, hl, -⟩ := hrem.excise
      exact ⟨hrem.cause, x, _, hx, remove_eq_ok hroot hl⟩
  log := (run_orderly hd table).log
  diagnostics := (run_orderly hd table).diagnostics

/-- Any number of passes over a style sheet that was read keep its shape. -/
theorem sound_of_passes (text : String) (tables : List Breakpoints) (table : Breakpoints) :
    Sound table (tables.foldl (fun d t => (run t d).document)
      (Document.ofSheet (Css.Sheet.ofText text))) := by
  have hd := Document.ofSheet_nested text
  generalize Document.ofSheet (Css.Sheet.ofText text) = d at hd
  induction tables generalizing d with
  | nil => exact sound_of_nested hd table
  | cons t tables ih => exact ih _ (run_orderly hd t).nested

end Pass

namespace Document

/-- The documents at some point of some passes over a style sheet that was read. -/
inductive InPasses (text : String) : Document → Prop
  | read : InPasses text (ofSheet (Css.Sheet.ofText text))
  | visit {p : Pass} (table : Breakpoints) (id : NodeId) : InPasses text p.document →
    InPasses text (p.visit table id).document

namespace InPasses

variable {text : String} {p : Pass}

theorem foldl_visit (h : InPasses text p.document) (table : Breakpoints) (visited : List NodeId) :
    InPasses text (visited.foldl (Pass.visit table) p).document := by
  induction visited generalizing p with
  | nil => exact h
  | cons id visited ih => exact ih (.visit table id h)

/-- Each point of each of any number of passes is one of these. -/
theorem of_passes (text : String) (tables : List Breakpoints) (table : Breakpoints)
    (visited : List NodeId) :
    let d := tables.foldl (fun d t => (Pass.run t d).document) (ofSheet (Css.Sheet.ofText text))
    InPasses text (visited.foldl (Pass.visit table) (Pass.start d)).document := by
  refine foldl_visit (p := Pass.start _) ?_ table visited
  show InPasses text (tables.foldl _ _)
  generalize hd : ofSheet (Css.Sheet.ofText text) = d
  have h : InPasses text d := hd ▸ .read
  clear hd
  induction tables generalizing d with
  | nil => exact h
  | cons t tables ih => exact ih _ (foldl_visit (p := Pass.start d) h t d.declarations)

theorem nested {d : Document} (h : InPasses text d) : d.Nested := by
  induction h with
  | read => exact ofSheet_nested text
  | @visit p table id _ hd =>
    have hv := Pass.visit_visit hd table id
    generalize p.visit table id = q at hv
    cases hv with
    | passed => exact hd
    | taken _ ht => exact ht.nested hd
    | @refused s r hr =>
      obtain ⟨x, e, diagnostic, -, he, -, hq⟩ :=
        Pass.reject_of_removes (p := p.note [.rejected s]) hr (p.document.line? id)
      rw [hq]
      exact hd.remove he

end InPasses

end Document

end ModularScale
