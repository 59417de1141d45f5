import ModularScale.Proofs.Css.Calls
import ModularScale.Proofs.Sizing.AnyOrder

/-! # Calls of a step

A step is looked for among the characters of a value and not among its tokens. So a declaration is
taken for one if its value calls a function `t-ms`, and also if it only spells such a call: at the
end of a longer name, or in a comment, a string or an address.
-/

namespace ModularScale.Sizing

open Css

variable {cs : List Char}

theorem Step.isSome_afterCall? : (afterCall? cs).isSome = true ↔ HoldsCall cs := by
  induction cs with
  | nil =>
    refine iff_of_false nofun ?_
    rintro ⟨a, b, h, hb⟩
    obtain ⟨-, rfl⟩ := List.append_eq_nil_iff.mp h.symm
    cases hb
  | cons c cs ih =>
    unfold afterCall?
    split
    case isTrue h => exact iff_of_true rfl ⟨[], c :: cs, rfl, startsCall_iff.mp h⟩
    case isFalse h =>
      rw [ih]
      constructor
      · rintro ⟨a, b, rfl, hb⟩
        exact ⟨c :: a, b, rfl, hb⟩
      · rintro ⟨a, b, he, hb⟩
        cases a with
        | nil => exact absurd (startsCall_iff.mpr (he ▸ hb)) h
        | cons d a => exact ⟨a, b, (List.cons.inj he).2, hb⟩

theorem Step.isSome_argument? (value : String) : (argument? value).isSome = true ↔
    (∃ l ∈ lexemes 1 value.toList, l.IsCall) ∨ Lookalike (lexemes 1 value.toList) := by
  rw [argument?, Option.isSome_map, isSome_afterCall?, holdsCall_iff 1]

theorem step_answers_iff (d : Document) (id : NodeId) : step.answers d id = true ↔
    ((d.fontSize? id).bind Step.argument?).isSome = true := by
  cases ha : (d.fontSize? id).bind Step.argument? with
  | none => simp [answers, Step.find, ha, Match.isAbsent]
  | some argument =>
    refine iff_of_true ?_ rfl
    simp only [answers, Step.find, ha]
    split <;> rfl

/-- A declaration is taken for a step exactly if the tokens of its value call one or spell a call,
and is otherwise left alone. -/
theorem step_answers_iff_call (table : Breakpoints) (d : Document) (id : NodeId) :
    (step.answers d id = true ↔ ∃ value, d.fontSize? id = some value ∧
      ((∃ l ∈ lexemes 1 value.toList, l.IsCall) ∨ Lookalike (lexemes 1 value.toList))) ∧
    (step.answers d id = false ↔ step.run table d id = .unchanged d .notApplicable) := by
  constructor
  · rw [step_answers_iff]
    cases hf : d.fontSize? id with
    | none => simp
    | some value =>
      rw [Option.bind_some, Step.isSome_argument?]
      simp
  · constructor
    · exact fun h => run_of_passes (passes_of_not_answers h)
    · intro h
      by_contra ha
      refine outcome_ne_of_answers table ((Bool.not_eq_false _).mp ha) ?_
      rw [h]
      rfl

/-- The end of a longer name is taken for a call, and a comment is that takes its rule with it. -/
theorem exists_lookalike :
    let d := Document.ofSheet (Css.Sheet.ofText
      ".x \x7b font-size: not-ms(0) \x7d .y \x7b font-size: 1px /* t-ms(a) */ \x7d")
    (∀ value ∈ ["not-ms(0)", "1px /* t-ms(a) */"], ∀ l ∈ lexemes 1 value.toList, ∀ name,
      l.token = .function name → Text.eqIgnoringCase name "t-ms".toList = false) ∧
    d.fontSize? 2 = some "not-ms(0)" ∧ (step.run .standard d 2).outcome = .applied ∧
    d.fontSize? 4 = some "1px /* t-ms(a) */" ∧ d.node? 3 = some ⟨.rule ".y", some 1⟩ ∧
    (step.run .standard d 4).outcome = .rejected (.excising 3 (.invalidStep "a")) := by
  have hnames : ∀ value ∈ ["not-ms(0)", "1px /* t-ms(a) */"], ∀ l ∈ lexemes 1 value.toList,
      (match l.token with
        | .function name => Text.eqIgnoringCase name "t-ms".toList
        | _ => false) = false := by
    decide +kernel
  refine ⟨fun value hv l hl name ht => ?_, ?_⟩
  · have h := hnames value hv l hl
    rwa [ht] at h
  · decide +kernel

end ModularScale.Sizing
