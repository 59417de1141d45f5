import ModularScale.Proofs.Css.Lines
import ModularScale.Proofs.Sizing.Orphan
import ModularScale.Proofs.Sizing.Stable
import ModularScale.Proofs.Sizing.Turns

/-! # The report of a pass

Each font size that is still there when its turn comes is either counted or reported, and nothing
else is. With each report one node is removed, and the reports come in the order of the lines. Where
there are none, all nodes are still there but the font sizes of the root element.
-/

namespace ModularScale

open Document Sizing

variable {table : Breakpoints} {p q : Pass} {d : Document} {id x : NodeId} {ids : List NodeId}
  {o : Outcome}

/-! ### Lines of declarations -/

namespace Document

theorem map_line?_declarations (items : Forest Node) :
    (ofForest items).declarations.map (ofForest items).line? =
      (items.toList.filter (·.kind.isDeclaration)).map Node.line := by
  have hd := ofForest_whole items
  have hsnd : (ofForest items).trees.toList.map Prod.snd = .made .root :: items.toList := by
    rw [← Forest.toList_map, ofForest, Forest.map_snd_number, Forest.single, Forest.toList,
      Forest.toList, List.append_nil]
  have hline : ∀ a ∈ (ofForest items).trees.toList, (ofForest items).line? a.1 = a.2.line := by
    intro a ha
    rw [line?, (node?_eq_some_iff hd.nodup).mpr ha, Option.bind_some]
  calc (ofForest items).declarations.map (ofForest items).line?
      = ((ofForest items).trees.toList.filter (·.2.kind.isDeclaration)).map (·.2.line) := by
        rw [declarations, hd.attached_eq, List.map_map]
        exact List.map_congr_left fun a ha => hline a (List.mem_of_mem_filter ha)
    _ = (((ofForest items).trees.toList.map Prod.snd).filter (·.kind.isDeclaration)).map
          Node.line := by
        rw [List.filter_map, List.map_map]
        rfl
    _ = (items.toList.filter (·.kind.isDeclaration)).map Node.line := by
        rw [hsnd]
        rfl

/-- Each declaration of a style sheet has a line, and none has an earlier line than one before
it. -/
theorem lines_declarations (text : String) : ∃ lines : List Nat,
    (ofSheet (Css.Sheet.ofText text)).declarations.map (ofSheet (Css.Sheet.ofText text)).line? =
      lines.map some ∧ lines.Pairwise (· ≤ ·) := by
  obtain ⟨lines, hl, hp⟩ := Css.Sheet.lines_ofText text
  have hs : (((Css.Sheet.ofText text).items.toList.filter (·.kind.isDeclaration)).map
      Node.line).Sublist (lines.map some) := by
    rw [← hl]
    exact List.filter_sublist.map _
  obtain ⟨lines', hs, hl⟩ := List.sublist_map_iff.mp hs
  exact ⟨lines', (map_line?_declarations _).trans hl, hp.sublist hs⟩

end Document

/-! ### One visit -/

/-- How many declarations a pass has dealt with. -/
def Report.total (r : Report) : Nat :=
  r.converted + r.diagnostics.length

def Sizing.Outcome.rejection? : Outcome → Option Rejection
  | .rejected r => some r
  | _ => none

namespace Pass

/-- The node that is removed because a declaration is rejected when it is visited. -/
def excised? (table : Breakpoints) (p : Pass) (id : NodeId) : Option NodeId :=
  (p.outcome table id).rejection?.bind Rejection.excise

/-- What is reported of a declaration of a document if it is rejected when it is visited. -/
def diagnostic? (table : Breakpoints) (d : Document) (p : Pass) (id : NodeId) :
    Option Diagnostic :=
  (p.outcome table id).rejection?.map fun r => ⟨r.cause.message, d.line? id⟩

/-- What a pass over some document does when the turn of a declaration comes. It counts or reports
a font size that is still there, and with a report a node is removed that was still there too. -/
structure Booked (table : Breakpoints) (d : Document) (p : Pass) (id : NodeId) : Prop where
  total : (p.visit table id).report.total =
    p.report.total + if p.document.isAttached id && d.isSized id then 1 else 0
  diagnostics : (p.visit table id).report.diagnostics =
    p.report.diagnostics ++ (p.diagnostic? table d id).toList
  excised : ∀ r ∈ (p.outcome table id).rejection?, ∃ x ∈ r.excise,
    p.document.isAttached x = true ∧ p.document.remove x = .ok (p.visit table id).document

theorem report_reject (p : Pass) (line : Nat) (r : Rejection) :
    (p.reject (some line) r).report =
      ⟨p.report.converted, p.report.diagnostics ++ [⟨r.cause.message, some line⟩]⟩ := by
  have hreport : ∀ x, (p.excise x).report = p.report := by
    intro x
    unfold excise
    split <;> rfl
  unfold reject
  cases r.excise with
  | none => rfl
  | some x => simp [note, hreport]

theorem AtTurn.booked (h : AtTurn d p id) (hd : d.Whole) {line : Nat}
    (hline : d.line? id = some line) (table : Breakpoints) : Booked table d p id := by
  have hattached := h.nested.isAttached_eq
  have ht := visit_turned h.nested table id
  generalize ho : p.outcome table id = o at ht
  generalize hq : p.visit table id = q at ht
  cases ht with
  | passed hp =>
    refine ⟨?_, by simp [hq, ho, diagnostic?, Outcome.rejection?], by simp [ho, Outcome.rejection?]⟩
    rw [hq, hattached]
    cases hl : p.document.isLive id with
    | false => rfl
    | true =>
      rw [← h.isSized_eq hd hl, isSized_eq_false.mpr (hp hl)]
      rfl
  | taken hl hp =>
    have hs : d.isSized id = true := by
      rw [← h.isSized_eq hd hl, ← Bool.not_eq_false]
      exact fun hs => hp (isSized_eq_false.mp hs _)
    refine ⟨?_, by simp [hq, ho, diagnostic?, Outcome.rejection?, count, note],
      by simp [ho, Outcome.rejection?]⟩
    rw [hq, hattached, hl, hs]
    exact Nat.add_right_comm _ _ _
  | @refused s r hl hp hr =>
    have hs : d.isSized id = true := by
      rw [← h.isSized_eq hd hl, ← Bool.not_eq_false]
      exact fun hs => hp (isSized_eq_false.mp hs _)
    have hpl : p.document.line? id = some line := by
      rw [line?, h.node hl]
      exact hline
    have hreport := report_reject (p.note [.rejected s]) line r
    refine ⟨?_, ?_, ?_⟩
    · rw [hq, hattached, hl, hs, hpl, hreport]
      simp [Report.total, note, Nat.add_assoc]
    · rw [hq, diagnostic?, ho, hpl, hreport, hline]
      rfl
    · rw [hq, ho]
      rintro _ ⟨⟩
      obtain ⟨x, e, _, hx, he, -, hreject⟩ :=
        reject_of_removes (p := p.note [.rejected s]) hr (p.document.line? id)
      refine ⟨x, hx, ?_, ?_⟩
      · rw [hattached]
        exact (remove_ok he).2.1
      · rw [hreject]
        exact he

/-! ### All visits -/

/-- The nodes that are removed because declarations are rejected, in the order of the visits. -/
def excisions (table : Breakpoints) (p : Pass) (ids : List NodeId) : List NodeId :=
  (turns table p ids).filterMap fun turn => turn.1.excised? table turn.2

theorem excisions_cons (table : Breakpoints) (p : Pass) (id : NodeId) (ids : List NodeId) :
    excisions table p (id :: ids) =
      (p.excised? table id).toList ++ excisions table (p.visit table id) ids := by
  rw [excisions, turns, List.filterMap_cons]
  cases p.excised? table id <;> rfl

theorem total_foldl (h : ∀ turn ∈ turns table p ids, Booked table d turn.1 turn.2) :
    (ids.foldl (visit table) p).report.total = p.report.total +
      (turns table p ids).countP fun turn =>
        turn.1.document.isAttached turn.2 && d.isSized turn.2 := by
  induction ids generalizing p with
  | nil => rfl
  | cons id ids ih =>
    obtain ⟨hid, hids⟩ := List.forall_mem_cons.mp h
    have htotal := hid.total
    rw [List.foldl_cons, ih hids, htotal, turns, List.countP_cons, Nat.add_assoc]
    exact congrArg (p.report.total + ·) (Nat.add_comm _ _)

theorem diagnostics_foldl (h : ∀ turn ∈ turns table p ids, Booked table d turn.1 turn.2) :
    (ids.foldl (visit table) p).report.diagnostics = p.report.diagnostics ++
      (turns table p ids).filterMap fun turn => turn.1.diagnostic? table d turn.2 := by
  induction ids generalizing p with
  | nil => exact (List.append_nil _).symm
  | cons id ids ih =>
    obtain ⟨hid, hids⟩ := List.forall_mem_cons.mp h
    have hdiagnostics := hid.diagnostics
    rw [List.foldl_cons, ih hids, hdiagnostics, turns, List.filterMap_cons, List.append_assoc]
    cases p.diagnostic? table d id <;> rfl

/-- The lines of what is reported are those of some of the declarations, in their order. -/
theorem lines_sublist (table : Breakpoints) (d : Document) (turns : List (Pass × NodeId)) :
    ((turns.filterMap fun turn => turn.1.diagnostic? table d turn.2).map Diagnostic.line).Sublist
      ((turns.map Prod.snd).map d.line?) := by
  induction turns with
  | nil => exact .slnil
  | cons turn turns ih =>
    rw [List.filterMap_cons]
    cases hdiagnostic : turn.1.diagnostic? table d turn.2 with
    | none => exact ih.cons _
    | some diagnostic =>
      obtain ⟨r, -, rfl⟩ := Option.map_eq_some_iff.mp hdiagnostic
      exact ih.cons_cons _

theorem length_excisions (h : ∀ turn ∈ turns table p ids, Booked table d turn.1 turn.2) :
    (excisions table p ids).length =
      ((turns table p ids).filterMap fun turn => turn.1.diagnostic? table d turn.2).length := by
  rw [excisions, List.length_filterMap_eq_countP, List.length_filterMap_eq_countP]
  refine List.countP_congr fun turn ht => ?_
  unfold excised? diagnostic?
  cases hr : (turn.1.outcome table turn.2).rejection? with
  | none => exact Iff.rfl
  | some r =>
    obtain ⟨x, hx, -⟩ := (h turn ht).excised r hr
    simp [show r.excise = some x from hx]

/-- A node that is removed was there before, and is never removed again. -/
theorem nodup_excisions (ht : ∀ turn ∈ turns table p ids, AtTurn d turn.1 turn.2)
    (h : ∀ turn ∈ turns table p ids, Booked table d turn.1 turn.2) :
    (excisions table p ids).Nodup ∧
      ∀ x ∈ excisions table p ids, x < p.document.next → p.document.isLive x = true := by
  induction ids generalizing p with
  | nil => exact ⟨.nil, List.forall_mem_nil _⟩
  | cons id ids ih =>
    obtain ⟨hid, hids⟩ := List.forall_mem_cons.mp h
    obtain ⟨tid, tids⟩ := List.forall_mem_cons.mp ht
    obtain ⟨hn, hl⟩ := ih tids hids
    obtain ⟨lost, t, -⟩ := (visit_visited table id tid.nested.toWhole).edited
    have hold : ∀ x ∈ excisions table (p.visit table id) ids, x < p.document.next →
        (p.visit table id).document.isLive x = true := fun x hx hlt =>
      hl x hx (Nat.lt_of_lt_of_le hlt t.next_le)
    have hrest : ∀ x ∈ excisions table (p.visit table id) ids, x < p.document.next →
        p.document.isLive x = true := fun x hx hlt => t.isLive_of_isLive hlt (hold x hx hlt)
    rw [excisions_cons]
    cases he : p.excised? table id with
    | none => exact ⟨hn, hrest⟩
    | some x =>
      obtain ⟨r, hr, hx⟩ := Option.bind_eq_some_iff.mp he
      obtain ⟨y, hy, hya, hrem⟩ := hid.excised r hr
      obtain rfl : x = y := Option.some.inj (hx.symm.trans hy)
      have hlx := (remove_ok hrem).2.1
      have hgone : (p.visit table id).document.isLive x = false := by
        rw [Bool.eq_false_iff]
        intro hlive
        have := ((tid.nested.toWhole.remove hrem).1.isLive x hlx).mp hlive x rfl
        exact this.1 rfl
      constructor
      · refine List.nodup_cons.mpr ⟨fun hm => ?_, hn⟩
        rw [hold x hm (tid.nested.lt_of_isLive hlx)] at hgone
        cases hgone
      · exact List.forall_mem_cons.mpr ⟨fun _ => hlx, hrest⟩

/-! ### Passes without reports -/

/-- A visit without a report takes away no more than a plain font size of the root element. -/
theorem isLive_of_turned (hd : p.document.Nested) (h : Turned table id p o q)
    (ho : o.rejection? = none) (hx : p.document.isLive x = true) :
    q.document.isLive x = true ↔ ¬(x = id ∧ p.document.isRootSize id = true) := by
  cases h with
  | passed hp =>
    refine iff_of_true hx ?_
    rintro ⟨rfl, hr⟩
    rw [isRootSize, show _ = false from hp hx .root] at hr
    cases hr
  | refused => cases ho
  | @taken s r _ _ ht =>
    have t : Edited [id] _ p.document r.document := ht.edited hd.toWhole
    refine (t.isLive x hx).trans ?_
    cases hr : p.document.isRootSize id with
    | false => simp
    | true =>
      obtain ⟨value, hf, -⟩ := (Option.any_eq_true _ _).mp (Bool.and_eq_true_iff.mp hr).1
      simpa [hd.notMem_ancestors hf x] using not_congr eq_comm

/-- Visits without a report take away no more than plain font sizes of the root element. -/
theorem isLive_foldl (hd : d.Whole) (hp : p.Orderly)
    (ht : ∀ turn ∈ turns table p ids, AtTurn d turn.1 turn.2)
    (ho : ∀ turn ∈ turns table p ids, (turn.1.outcome table turn.2).rejection? = none)
    (hx : p.document.isLive x = true) :
    (ids.foldl (visit table) p).document.isLive x = true ↔
      ¬(x ∈ ids ∧ d.isRootSize x = true) := by
  induction ids generalizing p with
  | nil => exact iff_of_true hx fun h => absurd h.1 List.not_mem_nil
  | cons id ids ih =>
    obtain ⟨tid, tids⟩ := List.forall_mem_cons.mp ht
    obtain ⟨oid, oids⟩ := List.forall_mem_cons.mp ho
    have hv := isLive_of_turned hp.nested (visit_turned hp.nested table id) oid hx
    obtain ⟨lost, t, -⟩ := (visit_visited table id hp.nested.toWhole).edited
    rw [List.foldl_cons]
    by_cases hgone : x = id ∧ p.document.isRootSize id = true
    · obtain ⟨rfl, hr⟩ := hgone
      rw [tid.isRootSize_eq hd hx] at hr
      refine iff_of_false (fun hl => ?_) fun hn => hn ⟨List.mem_cons_self, hr⟩
      have hlt := Nat.lt_of_lt_of_le (hp.nested.lt_of_isLive hx) t.next_le
      have hl := (foldl_visit_keeps table t.whole ids).1.isLive_of_isLive hlt hl
      exact hv.mp hl ⟨rfl, by rwa [tid.isRootSize_eq hd hx]⟩
    · rw [ih (hp.visit table id) tids oids (hv.mpr hgone)]
      refine not_congr ⟨fun h => ⟨List.mem_cons_of_mem id h.1, h.2⟩, fun h => ⟨?_, h.2⟩⟩
      rcases List.mem_cons.mp h.1 with rfl | hm
      · exact absurd ⟨rfl, by rw [tid.isRootSize_eq hd hx]; exact h.2⟩ hgone
      · exact hm

/-! ### A whole pass -/

/-- The report of a pass tells of each font size that was still there when its turn came, and of
nothing else. -/
structure Accounted (table : Breakpoints) (d : Document) : Prop where
  booked : ∀ turn ∈ turns table (start d) d.declarations, Booked table d turn.1 turn.2
  total : (run table d).report.total = (turns table (start d) d.declarations).countP fun turn =>
    turn.1.document.isAttached turn.2 && d.isSized turn.2
  length_diagnostics : (run table d).report.diagnostics.length =
    (excisions table (start d) d.declarations).length
  nodup_excisions : (excisions table (start d) d.declarations).Nodup
  lines : ∃ lines : List Nat,
    (run table d).report.diagnostics.map Diagnostic.line = lines.map some ∧
      lines.Pairwise (· ≤ ·)
  isAttached : (run table d).report.isClean = true → ∀ id, d.isAttached id = true →
    (run table d).document.isAttached id = !d.isRootSize id

theorem mem_declarations_of_isRootSize (hd : d.Whole) (h : d.isRootSize id = true) :
    id ∈ d.declarations := by
  obtain ⟨value, hv, -⟩ := (Option.any_eq_true _ _).mp (Bool.and_eq_true_iff.mp h).1
  obtain ⟨n, hn, hk⟩ := Option.bind_eq_some_iff.mp hv
  exact mem_declarations hd hn hk

theorem accounted (text : String) (table : Breakpoints) :
    Accounted table (Document.ofSheet (Css.Sheet.ofText text)) := by
  have hd := Document.ofSheet_nested text
  obtain ⟨lines, hlines, hsorted⟩ := Document.lines_declarations text
  generalize Document.ofSheet (Css.Sheet.ofText text) = d at hd hlines ⊢
  have hw := hd.toWhole
  have ht : ∀ turn ∈ turns table (start d) d.declarations, AtTurn d turn.1 turn.2 :=
    atTurn_of_mem hd
  have hb : ∀ turn ∈ turns table (start d) d.declarations, Booked table d turn.1 turn.2 := by
    intro turn hm
    have hid : turn.2 ∈ d.declarations := by
      rw [← map_snd_turns table (start d) d.declarations]
      exact List.mem_map_of_mem hm
    have hline := List.mem_map_of_mem (f := d.line?) hid
    rw [hlines] at hline
    obtain ⟨line, -, hline⟩ := List.mem_map.mp hline
    exact (ht turn hm).booked hw hline.symm table
  have hdiag : (run table d).report.diagnostics = _ := diagnostics_foldl hb
  have hsome : ((start d).report.diagnostics : List Diagnostic) = [] := rfl
  rw [hsome, List.nil_append] at hdiag
  refine ⟨hb, (total_foldl hb).trans (Nat.zero_add _), ?_, (nodup_excisions ht hb).1, ?_, ?_⟩
  · rw [hdiag, length_excisions hb]
  · have hs : ((run table d).report.diagnostics.map Diagnostic.line).Sublist (lines.map some) := by
      have hl := lines_sublist table d (turns table (start d) d.declarations)
      rwa [map_snd_turns, hlines, ← hdiag] at hl
    obtain ⟨lines', hs, hl⟩ := List.sublist_map_iff.mp hs
    exact ⟨lines', hl, hsorted.sublist hs⟩
  · intro hclean id hid
    have hnone : ∀ turn ∈ turns table (start d) d.declarations,
        (turn.1.outcome table turn.2).rejection? = none := by
      intro turn hm
      rw [Report.isClean, List.isEmpty_iff, hdiag, List.filterMap_eq_nil_iff] at hclean
      exact Option.map_eq_none_iff.mp (hclean turn hm)
    rw [hw.isAttached_eq] at hid
    rw [(run_orderly hd table).nested.isAttached_eq, Bool.eq_iff_iff, Bool.not_eq_true',
      ← Bool.not_eq_true]
    refine (isLive_foldl (p := start d) hw (start_orderly hd) ht hnone hid).trans (not_congr ?_)
    exact and_iff_right_of_imp (mem_declarations_of_isRootSize hw)

end Pass

end ModularScale
