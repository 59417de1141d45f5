import Mathlib
import ModularScale.Proofs.Css.Items

/-! # Comments between items

A text is laid out in parts: comments, marks that stand for nothing, malformed items and items with
the parts of their blocks. A comment becomes a node of its own, at its place among the items, unless
a mark or a `@charset` at the start comes before it and no item in between: then it is lost.
-/

namespace ModularScale.Css

/-- What a style sheet or a block is made up of, apart from white space. -/
inductive Part
  | comment (text : String) (line : Nat)
  /-- A `;`, `<!--` or `-->` between items. -/
  | mark
  /-- A `@charset` at the start of a style sheet, with all it holds. -/
  | charset
  | malformed
  | item (kind : Kind) (line : Nat)
deriving DecidableEq, Repr

namespace Part

/-- The node that a part stands for, if it stands for one. -/
def node? : Part → Option Node
  | comment text line => some ⟨.comment text, some line⟩
  | item kind line => some ⟨kind, some line⟩
  | _ => none

/-- Whether a part stands for nothing and a comment behind it is stray. -/
def hides : Part → Bool
  | mark => true
  | charset => true
  | _ => false

def isComment : Part → Bool
  | comment .. => true
  | _ => false

/-- Whether a part stands between items. -/
def isBetween (part : Part) : Bool :=
  part.isComment || part = mark

/-- The nodes that parts stand for. There are no parts below one that stands for nothing. -/
def nodes : Forest Part → Forest Node
  | .nil => .nil
  | .cons part children rest =>
    match part.node? with
    | some node => .cons node (nodes children) (nodes rest)
    | none => nodes children ++ nodes rest

/-- Some comment has a part before it that hides it, with no item in between. -/
def HasStray (f : Forest Part) : Prop :=
  ∃ part children rest, (Forest.cons part children rest).Within f ∧ part.hides = true ∧
    ∃ comment ∈ rest.tops.takeWhile isBetween, comment.isComment = true

/-- The parts without the stray comments, where `stray` tells whether one before them hides those
that come first. -/
def settled (stray : Bool) : Forest Part → Forest Part
  | .nil => .nil
  | .cons part children rest =>
    if stray && part.isComment then settled true rest
    else .cons part (settled false children) (settled part.hides rest)

end Part

namespace Level

/-- The part that an item is. -/
def part (level : Level) (cs : Components) : Part :=
  if level.drops cs then .charset
  else match (level.item cs).kind with
    | some kind => .item kind cs.line
    | none => .malformed

/-- The parts of components. -/
def outline (level : Level) (cs : Components) : Forest Part :=
  match cs with
  | .nil => .nil
  | .leaf l rest =>
    if level.passesOver l.token then
      match l.token with
      | .whiteSpace => outline level rest
      | .comment text => .cons (.comment (String.ofList text) l.line) .nil (outline level rest)
      | _ => .cons .mark .nil (outline level rest)
    else
      .cons (level.part (.leaf l rest))
        (if level.drops (.leaf l rest) then .nil
          else outline .block (level.item (.leaf l rest)).content)
        (outline level.next (level.item (.leaf l rest)).after)
  | .block l bracket inner closing rest =>
    .cons (level.part (.block l bracket inner closing rest))
      (outline .block (level.item (.block l bracket inner closing rest)).content)
      (outline level.next (level.item (.block l bracket inner closing rest)).after)
termination_by cs.size
decreasing_by
  all_goals first
    | exact Nat.lt_succ_self _
    | exact Nat.lt_succ_of_le (size_item level _).1
    | exact Nat.lt_succ_of_le (size_item level _).2

end Level

/-- The parts of a style sheet. -/
def Sheet.outline (text : String) : Forest Part :=
  (Level.sheet true).outline (Components.ofText text.toList)

variable {level : Level} {cs rest : Components} {stray : Bool} {l : Lexeme} {f : Forest Part}
  {part : Part}

theorem outline_space (text : List Char) (line : Nat) (rest : Components) :
    level.outline (.leaf ⟨.whiteSpace, text, line⟩ rest) = level.outline rest := by
  cases level <;> rw [Level.outline] <;> rfl

theorem outline_comment (comment text : List Char) (line : Nat) (rest : Components) :
    level.outline (.leaf ⟨.comment comment, text, line⟩ rest) =
      .cons (.comment (String.ofList comment) line) .nil (level.outline rest) := by
  cases level <;> rw [Level.outline] <;> rfl

theorem outline_mark (h : level.passesOver l.token = true) (hg : l.token.isGap = false) :
    level.outline (.leaf l rest) = .cons .mark .nil (level.outline rest) := by
  obtain ⟨token, text, line⟩ := l
  rw [Level.outline, if_pos h]
  cases token <;> first | rfl | cases hg

theorem outline_item (h : level.startsItem cs = true) :
    level.outline cs = .cons (level.part cs)
      (if level.drops cs then .nil else Level.block.outline (level.item cs).content)
      (level.next.outline (level.item cs).after) := by
  cases cs with
  | nil => cases h
  | leaf l rest =>
    rw [Level.startsItem, Bool.not_eq_true'] at h
    rw [Level.outline, h, if_neg Bool.false_ne_true]
  | block l bracket inner closing rest =>
    have hd : level.drops (.block l bracket inner closing rest) = false := by
      rcases level with first | _
      · cases first <;> rfl
      · rfl
    rw [Level.outline, hd, if_neg Bool.false_ne_true]

/-- A malformed item has no block that is read. -/
theorem content_of_malformed (h : level.startsItem cs = true) (hk : (level.item cs).kind = none) :
    (level.item cs).content = .nil := by
  rcases item_cases h with ⟨name, text, line, rest, -, hi⟩ | ⟨name, _, _, _, value, -, -, -, hi⟩ |
    hi | hr
  · rw [hi] at hk
    cases hk
  · rw [hi] at hk
    cases hk
  · rw [hi]
    rfl
  · rw [item_of_startsRule hr] at hk ⊢
    have hb : (cs.run level.stop).block = none := by simpa [Components.ruleItem] using hk
    simp only [Components.ruleItem, hb, Option.getD_none]

/-- The nodes that are read stand for the parts that are left without the stray comments. -/
theorem read_eq_nodes (level : Level) (stray : Bool) (cs : Components) :
    (level.read stray cs).items = Part.nodes (Part.settled stray (level.outline cs)) := by
  induction level, cs using Level.induction generalizing stray with
  | nil level =>
    cases level <;> simp [Level.read, readBody, readSheet, Level.outline, Part.settled, Part.nodes,
      Sheet.empty]
  | gap level l rest hp ih =>
    obtain ⟨token, text, line⟩ := l
    rcases token_cases token with rfl | ⟨comment, rfl⟩ | ht
    · rw [read_space, outline_space, ih]
    · rw [read_comment, outline_comment, Part.settled]
      cases stray with
      | true => exact ih true
      | false =>
        show Forest.cons _ _ _ = Forest.cons _ _ _
        rw [ih]
        rfl
    · rw [read_mark stray hp ht, outline_mark hp ht, ih, Part.settled]
      cases stray <;> rfl
  | item level cs hs ihc iha =>
    rw [outline_item hs, Part.settled]
    cases hd : level.drops cs with
    | true =>
      rw [read_dropped hs hd, iha]
      simp [Level.part, hd, Part.isComment, Part.hides, Part.settled, Part.nodes, Part.node?]
    | false =>
      rw [read_item hs hd]
      cases hk : (level.item cs).kind with
      | none =>
        rw [content_of_malformed hs hk]
        simp [Level.part, hd, hk, Part.isComment, Part.hides, Part.settled, Part.nodes, Part.node?,
          Level.outline, Sheet.consItem, Sheet.skip, iha]
      | some kind =>
        simp [Level.part, hd, hk, Part.isComment, Part.hides, Part.nodes, Part.node?,
          Sheet.consItem, Sheet.cons, iha]
        exact ihc false

namespace Part

theorem toList_nodes (f : Forest Part) : (nodes f).toList = f.toList.filterMap node? := by
  induction f with
  | nil => rfl
  | cons part children rest ihc ihr =>
    rw [nodes, Forest.toList, List.filterMap_cons, List.filterMap_append, ← ihc, ← ihr]
    cases part.node? with
    | none => exact Forest.toList_append _ _
    | some node => rfl

/-- Either nothing is lost or there are less nodes. -/
theorem settled_eq_or_lt (stray : Bool) (f : Forest Part) : settled stray f = f ∨
    (nodes (settled stray f)).toList.length < (nodes f).toList.length := by
  simp only [toList_nodes, List.length_filterMap_eq_countP]
  induction f generalizing stray with
  | nil => exact .inl rfl
  | cons part children rest ihc ihr =>
    rw [settled]
    split
    case isTrue h =>
      right
      obtain ⟨-, hp⟩ := Bool.and_eq_true_iff.mp h
      have hn : part.node?.isSome = true := by
        cases part <;> first | rfl | cases hp
      have hle : (settled true rest).toList.countP (·.node?.isSome) ≤
          rest.toList.countP (·.node?.isSome) := by
        rcases ihr true with he | hlt
        · exact Nat.le_of_eq (by rw [he])
        · exact Nat.le_of_lt hlt
      rw [Forest.toList, List.countP_cons, List.countP_append, if_pos hn]
      omega
    case isFalse h =>
      simp only [Forest.toList, List.countP_cons, List.countP_append, Forest.cons.injEq, true_and]
      rcases ihc false with hc | hc
      · rcases ihr part.hides with hr | hr
        · exact .inl ⟨hc, hr⟩
        · rw [hc]
          exact .inr (by omega)
      · rcases ihr part.hides with hr | hr
        · rw [hr]
          exact .inr (by omega)
        · exact .inr (by omega)

theorem nodes_settled_iff (f : Forest Part) :
    nodes (settled false f) = nodes f ↔ settled false f = f := by
  refine ⟨fun h => ?_, fun h => by rw [h]⟩
  rcases settled_eq_or_lt false f with he | hlt
  · exact he
  · rw [h] at hlt
    exact absurd hlt (Nat.lt_irrefl _)

theorem hasStray_cons {children : Forest Part} {rest : Forest Part} :
    HasStray (.cons part children rest) ↔
      (part.hides = true ∧ ∃ comment ∈ rest.tops.takeWhile isBetween, comment.isComment = true) ∨
      HasStray children ∨ HasStray rest := by
  constructor
  · rintro ⟨p, c, r, hw, hp, hc⟩
    cases hw with
    | refl => exact .inl ⟨hp, hc⟩
    | child hw => exact .inr (.inl ⟨p, c, r, hw, hp, hc⟩)
    | sibling hw => exact .inr (.inr ⟨p, c, r, hw, hp, hc⟩)
  · rintro (⟨hp, hc⟩ | ⟨p, c, r, hw, hp, hc⟩ | ⟨p, c, r, hw, hp, hc⟩)
    · exact ⟨part, children, rest, .refl, hp, hc⟩
    · exact ⟨p, c, r, .child hw, hp, hc⟩
    · exact ⟨p, c, r, .sibling hw, hp, hc⟩

theorem settled_ne {children rest : Forest Part} (hp : part.isComment = true) :
    settled true rest ≠ .cons part children rest := by
  intro h
  have hn : part.node?.isSome = true := by
    cases part <;> first | rfl | cases hp
  have hl := settled_eq_or_lt true rest
  have hc := congrArg (fun f => (nodes f).toList.length) h
  simp only [toList_nodes, List.length_filterMap_eq_countP, Forest.toList, List.countP_cons,
    List.countP_append, if_pos hn] at hc hl
  rcases hl with hl | hl
  · rw [hl] at hc
    omega
  · omega

/-- Nothing is lost just if no comment is hidden by a part before it, be it one of these parts or
one that makes the first of them stray. -/
theorem settled_eq_iff (stray : Bool) (f : Forest Part) :
    settled stray f = f ↔ ¬HasStray f ∧
      (stray = true → ∀ part ∈ f.tops.takeWhile isBetween, part.isComment = false) := by
  induction f generalizing stray with
  | nil =>
    refine ⟨fun _ => ⟨?_, fun _ => List.forall_mem_nil _⟩, fun _ => rfl⟩
    rintro ⟨part, children, rest, hw, -⟩
    cases hw
  | cons part children rest ihc ihr =>
    rw [settled, hasStray_cons]
    split
    case isTrue h =>
      obtain ⟨rfl, hp⟩ := Bool.and_eq_true_iff.mp h
      refine iff_of_false (settled_ne hp) fun ⟨_, hn⟩ => ?_
      have hm : part ∈ (Forest.cons part children rest).tops.takeWhile isBetween := by
        rw [Forest.tops, List.takeWhile_cons, isBetween, hp]
        exact List.mem_cons_self
      rw [hn rfl part hm] at hp
      cases hp
    case isFalse h =>
      have htops : (stray = true → ∀ p ∈ (Forest.cons part children rest).tops.takeWhile isBetween,
          p.isComment = false) ↔ (stray = true → part = mark →
            ∀ p ∈ rest.tops.takeWhile isBetween, p.isComment = false) := by
        refine forall_congr' fun hs => ?_
        rw [hs, Bool.true_and, Bool.not_eq_true] at h
        rw [Forest.tops, List.takeWhile_cons, isBetween, h, Bool.false_or]
        by_cases hm : part = mark
        · simp [hm, isComment]
        · simp [hm]
      rw [htops]
      have hmark : part = mark → part.hides = true := by
        rintro rfl
        rfl
      have hex : (∃ p ∈ rest.tops.takeWhile isBetween, p.isComment = true) ↔
          ¬∀ p ∈ rest.tops.takeWhile isBetween, p.isComment = false := by simp
      simp only [Forest.cons.injEq, true_and, ihc false, ihr part.hides, hex]
      grind

end Part

/-- The items of a text are the nodes that its parts stand for without the stray comments, and all
comments become nodes just if none is stray. -/
theorem ofText_items_eq_nodes (text : String) :
    (Sheet.ofText text).items = Part.nodes (Part.settled false (Sheet.outline text)) ∧
    ((Sheet.ofText text).items = Part.nodes (Sheet.outline text) ↔
      ¬Part.HasStray (Sheet.outline text)) := by
  have h : (Sheet.ofText text).items = Part.nodes (Part.settled false (Sheet.outline text)) :=
    read_eq_nodes (.sheet true) false _
  refine ⟨h, ?_⟩
  rw [h, Part.nodes_settled_iff, Part.settled_eq_iff]
  simp

/-- A comment behind a `;` that ends no declaration is lost. -/
theorem exists_lost_comment : ∃ text,
    Sheet.outline text = .single (.item (.rule ".x") 1) (.cons .mark .nil
      (.cons (.comment " c " 1) .nil (.single (.item (.declaration "color" "red" false) 1) .nil))) ∧
    (Sheet.ofText text).items ≠ Part.nodes (Sheet.outline text) := by
  have ho : Sheet.outline ".x { ; /* c */ color: red; }" =
      .single (.item (.rule ".x") 1) (.cons .mark .nil (.cons (.comment " c " 1) .nil
        (.single (.item (.declaration "color" "red" false) 1) .nil))) := by
    rw [Sheet.outline, Components.ofText, Components.ofLexemes_eq]
    cbv
  have hi : (Sheet.ofText ".x { ; /* c */ color: red; }").items =
      .single ⟨.rule ".x", some 1⟩ (.single ⟨.declaration "color" "red" false, some 1⟩ .nil) := by
    rw [Sheet.ofText, Components.ofText, Components.ofLexemes_eq]
    cbv
  refine ⟨_, ho, ?_⟩
  rw [hi, ho]
  decide

end ModularScale.Css
