import Mathlib
import ModularScale.Proofs.Css.Reading

/-! # Nested rules

Within a block, what stands before a block in curly brackets makes up a rule with it, unless it
starts like a declaration: then it becomes the value of one, together with the block and all that
follows up to the next `;`.
-/

namespace ModularScale.Css

namespace Components

variable {cs ds inner rest value : Components} {stop : Stop} {l : Lexeme} {bracket : Bracket}
  {closing : Option Lexeme} {name : List Char}

/-- Whether components start with neither a gap nor an at-keyword. -/
def startsPrelude : Components → Bool
  | leaf ⟨.atKeyword _, _, _⟩ _ => false
  | leaf l _ => !Level.block.passesOver l.token
  | _ => true

/-- Whether components can stand before the block of a nested rule: they hold no `;` and no block
in curly brackets, and they do not start something else. -/
def isPrelude (cs : Components) : Bool :=
  cs.passes nestedStop && cs.startsPrelude

/-- The name and the value of the declaration that components start. -/
def declares? : Components → Option (List Char × Components)
  | leaf ⟨.ident name, _, _⟩ rest => rest.afterColon?.map (name, ·)
  | _ => none

theorem passes_valueStop (h : cs.passes nestedStop = true) : cs.passes valueStop = true := by
  induction cs with
  | nil => rfl
  | leaf l rest ih =>
    simp only [passes, Bool.and_eq_true] at h ⊢
    exact ⟨h.1, ih h.2⟩
  | block l bracket inner closing rest _ ih =>
    simp only [passes, Bool.and_eq_true] at h ⊢
    exact ⟨rfl, ih h.2⟩

theorem passes_afterColon? (h : cs.passes stop = true) (hc : cs.afterColon? = some value) :
    value.passes stop = true := by
  induction cs with
  | nil => cases hc
  | leaf l rest ih =>
    simp only [passes, Bool.and_eq_true] at h
    unfold afterColon? at hc
    split at hc
    · exact ih h.2 hc
    · split at hc
      · cases hc; exact h.2
      · cases hc
  | block => cases hc

/-- The item at a nested rule, which is a declaration if its prelude starts one. -/
theorem bodyItem_prelude (h : cs.isPrelude = true) :
    (cs ++ block l .curly inner closing rest).bodyItem =
      match cs.declares? with
      | none => ⟨some (rule cs.text), inner, rest⟩
      | some (name, value) =>
        ⟨some (declaration name (value.text ++ l.text ++ inner.text ++
          (closing.map Lexeme.text).getD [] ++ (rest.run valueStop).text)), .nil,
          (rest.run valueStop).after⟩ := by
  rw [isPrelude, Bool.and_eq_true] at h
  obtain ⟨hp, hs⟩ := h
  have hrule : ruleItem nestedStop (cs ++ block l .curly inner closing rest) =
      ⟨some (rule cs.text), inner, rest⟩ := by
    simp only [ruleItem, run_append hp, run]
    simp [nestedStop, Run.cons]
  have hdecl : ∀ name value, value.passes nestedStop = true →
      declarationItem name (value ++ block l .curly inner closing rest) =
        ⟨some (declaration name (value.text ++ l.text ++ inner.text ++
          (closing.map Lexeme.text).getD [] ++ (rest.run valueStop).text)), .nil,
          (rest.run valueStop).after⟩ := by
    intro name value hv
    rw [declarationItem, run_append (passes_valueStop hv), run]
    simp [valueStop, Run.cons]
  cases cs with
  | nil => exact hrule
  | block => exact hrule
  | leaf m tail =>
    obtain ⟨token, text, line⟩ := m
    simp only [passes, Bool.and_eq_true] at hp
    cases token with
    | atKeyword => cases hs
    | ident name =>
      simp only [leaf_append, bodyItem, declares?] at hrule ⊢
      rw [afterColon?_append rfl]
      cases hc : tail.afterColon? with
      | none => exact hrule
      | some value => exact hdecl name value (passes_afterColon? hp.2 hc)
    | _ => exact hrule

theorem startsItem_prelude (h : cs.isPrelude = true) :
    Level.block.startsItem (cs ++ block l .curly inner closing rest) = true := by
  cases cs with
  | nil => rfl
  | block => rfl
  | leaf m tail =>
    obtain ⟨token, text, line⟩ := m
    have hs : (leaf ⟨token, text, line⟩ tail).startsPrelude = true := (Bool.and_eq_true_iff.mp h).2
    cases token with
    | atKeyword => cases hs
    | _ => exact hs

end Components

open Components

variable {prelude inner rest : Components} {l : Lexeme} {closing : Option Lexeme} {text : String}

/-- Wherever a block of a text holds a prelude with a block behind it, the sheet has the rule that
these make up, with what the block holds below it, just if the prelude does not start a
declaration. If it does, the block and all up to the next `;` are text of that declaration. -/
theorem read_nested_rule
    (hp : Place text .block (prelude ++ .block l .curly inner closing rest))
    (h : prelude.isPrelude = true) :
    ∃ sheet : Sheet, sheet.items.Within (Sheet.ofText text).items ∧
      (prelude.declares? = none → sheet =
        .cons (rule prelude.text) (prelude ++ .block l .curly inner closing rest).line
          (readBody false inner) (readBody false rest)) ∧
      ∀ name value, prelude.declares? = some (name, value) → sheet =
        .cons (declaration name (value.text ++ l.text ++ inner.text ++
            (closing.map Lexeme.text).getD [] ++ (rest.run valueStop).text))
          (prelude ++ .block l .curly inner closing rest).line .empty
          (readBody false (rest.run valueStop).after) := by
  obtain ⟨stray, hw⟩ := hp.within
  refine ⟨_, hw, fun hd => ?_, fun name value hd => ?_⟩
  · rw [Level.read, readBody_item stray (startsItem_prelude h), bodyItem_prelude h, hd]
    rfl
  · rw [Level.read, readBody_item stray (startsItem_prelude h), bodyItem_prelude h, hd]
    simp only [Sheet.consItem, readBody_nil]

theorem read_nested_rule_of_name :
    let block := Components.block ⟨.opening .curly, ['\x7b'], 1⟩ .curly .nil
      (some ⟨.closing .curly, ['\x7d'], 1⟩) .nil
    let prelude := Components.leaf ⟨.ident ['a'], ['a'], 1⟩ .nil
    Place ".x\x7ba\x7b\x7d\x7d" .block (prelude ++ block) ∧ prelude.isPrelude = true ∧
      ∃ sheet : Sheet, sheet.items.Within (Sheet.ofText ".x\x7ba\x7b\x7d\x7d").items ∧
        (prelude.declares? = none → sheet = .cons (rule ['a']) 1 .empty .empty) := by
  intro block prelude
  have ht : Components.ofText ".x\x7ba\x7b\x7d\x7d".toList =
      .leaf ⟨.delimiter '.', ['.'], 1⟩ (.leaf ⟨.ident ['x'], ['x'], 1⟩
        (.block ⟨.opening .curly, ['\x7b'], 1⟩ .curly (prelude ++ block)
          (some ⟨.closing .curly, ['\x7d'], 1⟩) .nil)) := by
    rw [Components.ofText, Components.ofLexemes_eq]
    cbv
  have hp : Place ".x\x7ba\x7b\x7d\x7d" .block (prelude ++ block) :=
    (Place.of_eq ht).inside rfl rfl rfl
  have hi : prelude.isPrelude = true := rfl
  obtain ⟨sheet, hw, hn, -⟩ := read_nested_rule hp hi
  refine ⟨hp, hi, sheet, hw, fun hd => ?_⟩
  rw [hn hd, readBody_nil]
  rfl

/-- A rule whose selector has a pseudo-class behind a type is lost when it is nested. -/
theorem exists_absorbed_rule : ∃ text prelude l inner closing rest,
    Place text .block (prelude ++ .block l .curly inner closing rest) ∧
      prelude.isPrelude = true ∧ prelude.text = "a:hover".toList ∧
      ∀ node ∈ (Sheet.ofText text).items.toList, node.kind ≠ rule prelude.text := by
  let block := Components.block ⟨.opening .curly, ['\x7b'], 1⟩ .curly .nil
    (some ⟨.closing .curly, ['\x7d'], 1⟩) .nil
  let prelude := Components.leaf ⟨.ident ['a'], ['a'], 1⟩ (.leaf ⟨.colon, [':'], 1⟩
    (.leaf ⟨.ident "hover".toList, "hover".toList, 1⟩ .nil))
  have ht : Components.ofText ".x\x7ba:hover\x7b\x7d\x7d".toList =
      .leaf ⟨.delimiter '.', ['.'], 1⟩ (.leaf ⟨.ident ['x'], ['x'], 1⟩
        (.block ⟨.opening .curly, ['\x7b'], 1⟩ .curly (prelude ++ block)
          (some ⟨.closing .curly, ['\x7d'], 1⟩) .nil)) := by
    rw [Components.ofText, Components.ofLexemes_eq]
    cbv
  refine ⟨_, prelude, _, _, _, _, (Place.of_eq ht).inside rfl rfl rfl, rfl, by decide, ?_⟩
  intro node hn hk
  have hk : rule prelude.text ∈ (Sheet.ofText ".x\x7ba:hover\x7b\x7d\x7d").items.toList.map Node.kind :=
    hk ▸ List.mem_map_of_mem hn
  have hl : (Sheet.ofText ".x\x7ba:hover\x7b\x7d\x7d").items.toList.map Node.kind =
      [.rule ".x", .declaration "a" "hover\x7b\x7d" false] := by
    rw [Sheet.ofText, ht]
    cbv
  rw [hl] at hk
  exact absurd hk (by decide)

end ModularScale.Css
