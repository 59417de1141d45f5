import ModularScale.Proofs.Scale.Table
import ModularScale.Proofs.Sizing.Outcome

/-! # Any order

A value alone decides in which way a font size is given, so a declaration is dealt with in one way
at most, and it does not matter in which order the ways are tried.
-/

namespace ModularScale

variable {table : Breakpoints} {d : Document} {id : NodeId} {value : String}

namespace Sizing

variable {α : Type} {s s' : Sizing} {order order' : List Sizing}

/-! ### The way that a value is written -/

def Match.isAbsent : Match α → Bool
  | .absent => true
  | _ => false

/-- Whether a declaration is of a kind that is dealt with in this way, be it malformed or not. -/
def answers (d : Document) (id : NodeId) : Sizing → Bool
  | measure => !(Measure.find d id).isAbsent
  | step => !(Step.find d id).isAbsent
  | root => !(Root.find d id).isAbsent

/-- The one way in which a value can be dealt with. -/
def wayOf (value : String) : Sizing :=
  if (Measure.exponent? value).isSome then measure
  else if (Step.argument? value).isSome then step
  else root

theorem eq_wayOf_of_answers (hf : d.fontSize? id = some value) (h : s.answers d id = true) :
    s = wayOf value := by
  cases s with
  | measure =>
    cases he : Measure.exponent? value with
    | none => simp [answers, Measure.find, hf, he, Match.isAbsent] at h
    | some exponent => simp [wayOf, he]
  | step =>
    cases ha : Step.argument? value with
    | none => simp [answers, Step.find, hf, ha, Match.isAbsent] at h
    | some argument => simp [wayOf, exponent_eq_none ha, ha]
  | root =>
    have hp : Root.isPlain value = true := by
      by_contra hp
      simp [answers, Root.find, hf, hp, Match.isAbsent] at h
    have hnone : Measure.exponent? value = none ∧ Step.argument? value = none := by
      simpa [Root.isPlain] using hp
    simp [wayOf, hnone.1, hnone.2]

theorem fontSize?_of_answers (h : s.answers d id = true) :
    ∃ value, d.fontSize? id = some value := by
  cases hf : d.fontSize? id with
  | none => cases s <;> simp [answers, Measure.find, Step.find, Root.find, hf, Match.isAbsent] at h
  | some value => exact ⟨value, rfl⟩

theorem answers_unique (h : s.answers d id = true) (h' : s'.answers d id = true) : s = s' := by
  obtain ⟨value, hf⟩ := fontSize?_of_answers h
  exact (eq_wayOf_of_answers hf h).trans (eq_wayOf_of_answers hf h').symm

/-! ### What a declaration is offered to -/

theorem passes_of_not_answers (h : s.answers d id = false) : s.Passes d id := by
  cases s with
  | measure =>
    cases hm : (d.fontSize? id).bind Measure.exponent? with
    | none => exact hm
    | some exponent => simp [answers, Measure.find, hm, Match.isAbsent] at h
  | step =>
    cases hm : (d.fontSize? id).bind Step.argument? with
    | none => exact hm
    | some argument =>
      simp only [answers, Step.find, hm] at h
      split at h <;> cases h
  | root =>
    cases hc : ((d.fontSize? id).any Root.isPlain &&
        (Root.enclosingRule? d id).any Root.isRuleOfRoot) with
    | false => exact hc
    | true => simp [answers, Root.find, hc, Match.isAbsent] at h

theorem outcome_ofEdit_ne (d : Document) (log : List Event) (edited : Except TreeError Document) :
    (Result.ofEdit d log edited).outcome ≠ .notApplicable := by
  cases edited <;> exact nofun

theorem Measure.outcome_apply_ne (table : Breakpoints) (d : Document) (id : NodeId)
    (exponent : String) : (apply table d id exponent).outcome ≠ .notApplicable := by
  fun_cases apply table d id exponent
  all_goals first | exact outcome_ofEdit_ne _ _ _ | exact nofun

theorem Step.outcome_apply_ne (table : Breakpoints) (d : Document) (id : NodeId)
    (exponent : String) : (apply table d id exponent).outcome ≠ .notApplicable := by
  fun_cases apply table d id exponent
  all_goals first | exact outcome_ofEdit_ne _ _ _ | exact nofun

theorem Root.outcome_apply_ne (table : Breakpoints) (d : Document) (id : NodeId) :
    (apply table d id).outcome ≠ .notApplicable := by
  fun_cases apply table d id
  case case3 parent _ _ _ _ =>
    fun_cases expand table d id parent
    all_goals first | exact outcome_ofEdit_ne _ _ _ | exact nofun
  all_goals first | exact outcome_ofEdit_ne _ _ _ | exact nofun

theorem Match.outcome_run_ne {m : Match α} {apply : α → Result} (hm : m.isAbsent = false)
    (ha : ∀ found, (apply found).outcome ≠ .notApplicable) :
    (m.run d apply).outcome ≠ .notApplicable := by
  cases m with
  | absent => cases hm
  | present found => exact ha found
  | invalid rejection => exact nofun

/-- What is of a kind that is dealt with is never passed over. -/
theorem outcome_ne_of_answers (table : Breakpoints) (h : s.answers d id = true) :
    (s.run table d id).outcome ≠ .notApplicable := by
  cases s with
  | measure =>
    refine Match.outcome_run_ne ?_ (Measure.outcome_apply_ne table d id)
    simpa [answers] using h
  | step =>
    refine Match.outcome_run_ne ?_ (Step.outcome_apply_ne table d id)
    simpa [answers] using h
  | root =>
    refine Match.outcome_run_ne ?_ fun _ => Root.outcome_apply_ne table d id
    simpa [answers] using h

/-- There is one way at most that is found, wherever it stands. -/
theorem find?_answers_of_perm (h : order.Perm order') :
    order.find? (·.answers d id) = order'.find? (·.answers d id) := by
  cases hf : order'.find? (·.answers d id) with
  | none =>
    rw [List.find?_eq_none] at hf ⊢
    exact fun s hs => hf s (h.mem_iff.mp hs)
  | some s =>
    have hs : s.answers d id = true := List.find?_some hf
    cases hg : order.find? (·.answers d id) with
    | none =>
      rw [List.find?_eq_none] at hg
      exact absurd hs (hg s (h.mem_iff.mpr (List.mem_of_find?_eq_some hf)))
    | some s' =>
      have hs' : s'.answers d id = true := List.find?_some hg
      rw [answers_unique hs' hs]

end Sizing

namespace Pass

open Sizing

variable {p : Pass} {order : List Sizing}

/-- A declaration is dealt with in the first way that it is written in. -/
theorem offer_eq_find? (table : Breakpoints) (id : NodeId) (p : Pass) (order : List Sizing) :
    p.offer table id order =
      match order.find? (·.answers p.document id) with
      | none => p
      | some s => p.offer table id [s] := by
  induction order with
  | nil => rfl
  | cons s rest ih =>
    cases hs : s.answers p.document id with
    | false =>
      rw [List.find?_cons_of_neg (by simp [hs]), ← ih]
      simp [offer, run_of_passes (passes_of_not_answers hs), Result.unchanged, note_nil]
    | true =>
      rw [List.find?_cons_of_pos hs]
      have hne := outcome_ne_of_answers table hs
      cases ho : (s.run table p.document id).outcome with
      | notApplicable => exact absurd ho hne
      | applied => simp only [offer, ho]
      | rejected rejection => simp only [offer, ho]

/-- Visits a declaration, which is offered to the ways of giving a font size in a given order. -/
def visitIn (order : List Sizing) (table : Breakpoints) (p : Pass) (id : NodeId) : Pass :=
  if p.document.isAttached id then p.offer table id order else p

/-- One pass in which the ways of giving a font size are tried in a given order. -/
def runIn (order : List Sizing) (table : Breakpoints) (d : Document) : Pass :=
  d.declarations.foldl (visitIn order table) (start d)

theorem visitIn_of_perm (h : order.Perm Sizing.all) (table : Breakpoints) (p : Pass)
    (id : NodeId) : visitIn order table p id = visit table p id := by
  unfold visitIn visit
  rw [offer_eq_find?, find?_answers_of_perm h, ← offer_eq_find?]

/-- No node answers to two of the ways in which a font size is given, so it makes no difference in
which order they are tried. -/
theorem runIn_of_perm : (∀ (d : Document) (id : NodeId) (s s' : Sizing),
      s.answers d id = true → s'.answers d id = true → s = s') ∧
    ∀ order : List Sizing, order.Perm Sizing.all → ∀ (table : Breakpoints) (d : Document),
      runIn order table d = run table d := by
  refine ⟨fun d id s s' => answers_unique, fun order h table d => ?_⟩
  have hvisit : visitIn order table = visit table :=
    funext fun p => funext fun id => visitIn_of_perm h table p id
  rw [runIn, run, hvisit]

/-- The other way round, with a declaration of each kind. -/
theorem runIn_reverse :
    let d := Document.ofSheet (Css.Sheet.ofText
      ":root \x7b font-size: 10px \x7d .x \x7b font-size: t-ms(0); font-size: 0ms \x7d")
    [Sizing.root, .step, .measure].Perm Sizing.all ∧ (run .standard d).report = ⟨3, []⟩ ∧
      Sizing.root.answers d 2 = true ∧ Sizing.step.answers d 4 = true ∧
      Sizing.measure.answers d 5 = true ∧
      runIn [.root, .step, .measure] .standard d = run .standard d := by
  intro d
  have hperm : [Sizing.root, .step, .measure].Perm Sizing.all := List.reverse_perm Sizing.all
  exact ⟨hperm, by decide +kernel, by decide +kernel, by decide +kernel, by decide +kernel,
    runIn_of_perm.2 _ hperm .standard d⟩

end Pass

end ModularScale
