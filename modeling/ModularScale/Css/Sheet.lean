import ModularScale.Css.Component
import ModularScale.Document.Node

/-! # Style sheets

Rules, at-rules, declarations and comments, read from the components of a text. What is none of
them is skipped and counted.
-/

namespace ModularScale.Css

/-- The items of a style sheet or of a block, and how many malformed ones were skipped. -/
structure Sheet where
  items : Forest Node
  skipped : Nat
deriving DecidableEq, Repr

namespace Sheet

def empty : Sheet :=
  ⟨.nil, 0⟩

/-- Puts an item with the content of its block in front. -/
def cons (kind : Kind) (line : Nat) (content rest : Sheet) : Sheet :=
  ⟨.cons ⟨kind, some line⟩ content.items rest.items, content.skipped + rest.skipped⟩

def skip (rest : Sheet) : Sheet :=
  { rest with skipped := rest.skipped + 1 }

end Sheet

/-- The texts before and after the last `mark`. -/
def splitLast? (mark : Char) : List Char → Option (List Char × List Char)
  | [] => none
  | c :: cs =>
    match splitLast? mark cs with
    | some (before, after) => some (c :: before, after)
    | none => if c = mark then some ([], cs) else none

/-- A value without `!important` at its end, and whether it had that. -/
def splitImportant (value : List Char) : List Char × Bool :=
  let value := Text.trim value
  match splitLast? '!' value with
  | some (before, after) =>
    if Text.eqIgnoringCase (Text.trimStart after) "important".toList then
      (Text.trimEnd before, true)
    else (value, false)
  | none => (value, false)

/-- Whether a name is that of a custom property. -/
def isCustom (name : List Char) : Bool :=
  name.take 2 = ['-', '-']

/-- The name of a property, in lower case unless it is a custom one. -/
def propertyName (name : List Char) : List Char :=
  if isCustom name then name else Text.asciiLower name

def declaration (name value : List Char) : Kind :=
  let (value, important) := splitImportant value
  .declaration (String.ofList (propertyName name)) (String.ofList value) important

def rule (prelude : List Char) : Kind :=
  .rule (String.ofList (Text.trim prelude))

def atRule (name prelude : List Char) (hasBlock : Bool) : Kind :=
  .atRule (String.ofList (Text.asciiLower name)) (String.ofList (Text.trim prelude))
    (String.ofList (prelude.takeWhile Text.isBlank)) hasBlock

namespace Components

/-- What follows the colon, if white space and comments alone come before one. -/
def afterColon? : Components → Option Components
  | leaf l rest =>
    if l.token.isGap then rest.afterColon?
    else if l.token = .colon then some rest
    else none
  | _ => none

theorem size_afterColon? {cs rest : Components} (h : cs.afterColon? = some rest) :
    rest.size < cs.size := by
  induction cs with
  | nil => simp [afterColon?] at h
  | leaf l tail ih =>
    unfold afterColon? at h
    split at h
    · exact Nat.lt_succ_of_lt (ih h)
    · split at h
      · cases h; exact Nat.lt_succ_self _
      · simp at h
  | block => simp [afterColon?] at h

def ruleStop : Stop := ⟨false, true⟩

def nestedStop : Stop := ⟨true, true⟩

def valueStop : Stop := ⟨true, false⟩

theorem size_run_after (stop : Stop) (cs : Components) :
    (cs.run stop).after.size ≤ cs.size - 1 :=
  Nat.le_trans (Nat.le_add_right _ _) (size_run stop cs)

theorem size_run_block {stop : Stop} {cs inner : Components}
    (h : (cs.run stop).block = some inner) : inner.size ≤ cs.size - 1 := by
  have := size_run stop cs
  simp only [h, Option.map_some, Option.getD_some] at this
  omega

/-- The first item of a style sheet or a block: its kind unless it is malformed, what its block
holds, and what follows it. -/
structure Item where
  kind : Option Kind
  content : Components
  after : Components

/-- An at-rule behind its name, up to a `;` or the end of its block. -/
def atRuleItem (name : List Char) (cs : Components) : Item :=
  let head := cs.run nestedStop
  { kind := atRule name head.text head.block.isSome
    content := head.block.getD .nil
    after := head.after }

/-- A rule, which is malformed if it has no block. -/
def ruleItem (stop : Stop) (cs : Components) : Item :=
  let head := cs.run stop
  { kind := head.block.map fun _ => rule head.text
    content := head.block.getD .nil
    after := head.after }

/-- What would be a rule but starts like the declaration of a custom property, which makes it
malformed. -/
def customItem (cs : Components) : Item :=
  { kind := none, content := .nil, after := (cs.run ruleStop).after }

/-- A declaration behind its colon, up to a `;`. -/
def declarationItem (name : List Char) (cs : Components) : Item :=
  let value := cs.run valueStop
  { kind := some (declaration name value.text), content := .nil, after := value.after }

/-- The first item of a style sheet. -/
def sheetItem : Components → Item
  | leaf ⟨.atKeyword name, _, _⟩ rest => atRuleItem name rest
  | leaf ⟨.ident name, text, line⟩ rest =>
    if isCustom name && rest.afterColon?.isSome then customItem (leaf ⟨.ident name, text, line⟩ rest)
    else ruleItem ruleStop (leaf ⟨.ident name, text, line⟩ rest)
  | cs => ruleItem ruleStop cs

/-- The first item of a block, where a name before a colon starts a declaration. -/
def bodyItem : Components → Item
  | leaf ⟨.atKeyword name, _, _⟩ rest => atRuleItem name rest
  | leaf ⟨.ident name, text, line⟩ rest =>
    match rest.afterColon? with
    | some value => declarationItem name value
    | none => ruleItem nestedStop (leaf ⟨.ident name, text, line⟩ rest)
  | cs => ruleItem nestedStop cs

theorem size_ruleItem (stop : Stop) (cs : Components) :
    (ruleItem stop cs).content.size ≤ cs.size - 1 ∧
      (ruleItem stop cs).after.size ≤ cs.size - 1 := by
  refine ⟨?_, size_run_after stop cs⟩
  show ((cs.run stop).block.getD nil).size ≤ cs.size - 1
  cases h : (cs.run stop).block with
  | none => exact Nat.zero_le _
  | some inner => exact size_run_block h

theorem size_atRuleItem (name : List Char) (cs : Components) :
    (atRuleItem name cs).content.size ≤ cs.size ∧ (atRuleItem name cs).after.size ≤ cs.size := by
  obtain ⟨hc, ha⟩ := size_ruleItem nestedStop cs
  exact ⟨Nat.le_trans hc (Nat.sub_le _ _), Nat.le_trans ha (Nat.sub_le _ _)⟩

theorem size_declarationItem (name : List Char) (cs : Components) :
    (declarationItem name cs).content.size ≤ cs.size ∧
      (declarationItem name cs).after.size ≤ cs.size :=
  ⟨Nat.zero_le _, Nat.le_trans (size_run_after valueStop cs) (Nat.sub_le _ _)⟩

theorem size_sheetItem (cs : Components) :
    (sheetItem cs).content.size ≤ cs.size - 1 ∧ (sheetItem cs).after.size ≤ cs.size - 1 := by
  unfold sheetItem
  split
  · exact size_atRuleItem _ _
  · split
    · exact ⟨Nat.zero_le _, size_run_after ruleStop _⟩
    · exact size_ruleItem _ _
  · exact size_ruleItem _ _

theorem size_bodyItem (cs : Components) :
    (bodyItem cs).content.size ≤ cs.size - 1 ∧ (bodyItem cs).after.size ≤ cs.size - 1 := by
  unfold bodyItem
  split
  · exact size_atRuleItem _ _
  · split
    · next h =>
      have hv := Nat.le_of_lt (size_afterColon? h)
      exact ⟨Nat.le_trans (size_declarationItem _ _).1 hv,
        Nat.le_trans (size_declarationItem _ _).2 hv⟩
    · exact size_ruleItem _ _
  · exact size_ruleItem _ _

end Components

def isCharset : Token → Bool
  | .atKeyword name => Text.eqIgnoringCase name "charset".toList
  | _ => false

/-- Puts an item in front, given what its block holds. -/
def Sheet.consItem (kind : Option Kind) (line : Nat) (content rest : Sheet) : Sheet :=
  match kind with
  | some kind => .cons kind line content rest
  | none => rest.skip

open Components in
/-- The items of a block. Comments behind a `;` that ends no item are passed over up to the next
item, which `stray` remembers. -/
def readBody (stray : Bool) (cs : Components) : Sheet :=
  match cs with
  | .nil => .empty
  | .leaf ⟨.whiteSpace, _, _⟩ rest => readBody stray rest
  | .leaf ⟨.semicolon, _, _⟩ rest => readBody true rest
  | .leaf ⟨.comment text, _, line⟩ rest =>
    if stray then readBody true rest
    else .cons (.comment (String.ofList text)) line .empty (readBody false rest)
  | .leaf l rest =>
    let item := bodyItem (.leaf l rest)
    .consItem item.kind l.line (readBody false item.content) (readBody false item.after)
  | .block l bracket inner closing rest =>
    let item := bodyItem (.block l bracket inner closing rest)
    .consItem item.kind l.line (readBody false item.content) (readBody false item.after)
termination_by cs.size
decreasing_by
  all_goals first
    | exact Nat.lt_succ_self _
    | exact Nat.lt_succ_of_le (size_bodyItem _).1
    | exact Nat.lt_succ_of_le (size_bodyItem _).2

open Components in
/-- The items of a style sheet. A `@charset` that comes first is passed over, and so are the
comments behind it, or behind a mark, up to the next item: `first` and `stray` remember this. -/
def readSheet (first stray : Bool) (cs : Components) : Sheet :=
  match cs with
  | .nil => .empty
  | .leaf ⟨.whiteSpace, _, _⟩ rest => readSheet first stray rest
  | .leaf ⟨.markOpening, _, _⟩ rest => readSheet first true rest
  | .leaf ⟨.markClosing, _, _⟩ rest => readSheet first true rest
  | .leaf ⟨.comment text, _, line⟩ rest =>
    if stray then readSheet first true rest
    else .cons (.comment (String.ofList text)) line .empty (readSheet first false rest)
  | .leaf l rest =>
    let item := sheetItem (.leaf l rest)
    if first && isCharset l.token then readSheet false true item.after
    else .consItem item.kind l.line (readBody false item.content) (readSheet false false item.after)
  | .block l bracket inner closing rest =>
    let item := sheetItem (.block l bracket inner closing rest)
    .consItem item.kind l.line (readBody false item.content) (readSheet false false item.after)
termination_by cs.size
decreasing_by
  all_goals first
    | exact Nat.lt_succ_self _
    | exact Nat.lt_succ_of_le (size_sheetItem _).2

namespace Sheet

def ofText (text : String) : Sheet :=
  readSheet true false (Components.ofText text.toList)

end Sheet

end ModularScale.Css
