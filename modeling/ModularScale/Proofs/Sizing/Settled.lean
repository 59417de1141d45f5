import ModularScale.Proofs.Scale.Conversion
import ModularScale.Proofs.Sizing.Shape

/-! # Settled documents

A pass leaves no font size that is still to be converted. All sizes that it writes end in a unit of
their own and call nothing, and each declaration that it cannot convert is removed. Without font
sizes of the root element there is nothing left to do for a second pass.
-/

namespace ModularScale

open Document

variable {table : Breakpoints} {d e : Document} {id : NodeId}

/-! ### Plain sizes -/

namespace Decimal

/-- A finite number is written in plain digits. -/
theorem exists_isPlainDecimal_write {x : Float} {b : BinaryFraction}
    (h : BinaryFraction.ofFloat? x = some b) :
    ∃ places, IsPlainDecimal places (write plain x).toList := by
  generalize hsign : (if b.negative then ['-'] else []) = sign
  have hs : sign = [] ∨ sign = ['-'] := by
    rw [← hsign]
    cases b.negative
    · exact .inl rfl
    · exact .inr rfl
  unfold write writeMagnitude
  simp only [h, hsign, plain, if_true, String.toList_ofList]
  by_cases hz : b.significand = 0
  · rw [if_pos hz]
    exact ⟨0, sign, ['0'], [], by simp, hs, by simp, List.forall_mem_singleton.mpr rfl, .inl rfl⟩
  · rw [if_neg hz]
    refine ⟨(-(shortest .up b).exponent).toNat, isPlainDecimal_positional hs Nat.toDigits_ne_nil
      (fun c hc => Nat.isDigit_of_mem_toDigits (by decide) (by decide) hc) ?_⟩
    omega

/-- Floats are written with letters, digits, dashes and points. -/
theorem mem_write {x : Float} {c : Char} (hc : c ∈ (write plain x).toList) :
    c.isAlphanum = true ∨ c = '-' ∨ c = '.' := by
  have hword : ∀ {s : String}, s.toList.all (fun c => c.isAlphanum || c == '-') = true →
      c ∈ s.toList → c.isAlphanum = true ∨ c = '-' ∨ c = '.' := by
    intro s hs hm
    have hp := List.all_eq_true.mp hs c hm
    rw [Bool.or_eq_true, beq_iff_eq] at hp
    exact hp.imp_right .inl
  cases h : BinaryFraction.ofFloat? x with
  | some b =>
    obtain ⟨places, hp⟩ := exists_isPlainDecimal_write h
    rcases hp.mem hc with hc | hc | hc
    · exact .inr (.inl hc)
    · exact .inr (.inr hc)
    · exact .inl (by simp [Char.isAlphanum, hc])
  | none =>
    simp only [write, h, plain] at hc
    split at hc
    · exact hword (by decide) hc
    · split at hc
      · exact hword (by decide) hc
      · exact hword (by decide) hc

theorem paren_notMem_write (x : Float) : '(' ∉ (write plain x).toList := fun hm =>
  absurd (mem_write hm) (by decide)

end Decimal

namespace Sizing

/-- Only a value that ends in an `s` is a number of steps. -/
theorem exponent_eq_none_of_getLast? {value : String} {c : Char}
    (hl : value.toList.getLast? = some c) (hb : Text.isBlank c = false) (hc : c.toLower ≠ 's') :
    Measure.exponent? value = none := by
  have htrim : (Text.trim value.toList).getLast? = some c := by
    obtain ⟨cs, hcs⟩ := List.getLast?_eq_some_iff.mp hl
    have hs : Text.trimStart value.toList = Text.trimStart cs ++ [c] := by
      rw [hcs, Text.trimStart, Text.trimStart, List.dropWhile_append]
      split
      case isTrue he => rw [List.isEmpty_iff.mp he, List.dropWhile_cons_of_neg (by simp [hb])]; rfl
      case isFalse => rfl
    rw [Text.trim, hs, Text.trimEnd_of_last (by simp [hb])]
    simp
  unfold Measure.exponent?
  generalize Text.trim value.toList = trimmed at htrim ⊢
  refine if_neg fun h => hc ?_
  have hms := (Bool.and_eq_true_iff.mp h).1
  obtain ⟨cs, rfl⟩ := List.getLast?_eq_some_iff.mp htrim
  have hlen : (cs ++ [c]).dropLast.dropLast.length ≤ cs.length := by simp
  rw [Text.eqIgnoringCase, beq_iff_eq, List.drop_append_of_le_length hlen, Text.asciiLower,
    List.map_append] at hms
  have hlast := congrArg List.getLast? hms
  rw [List.map_singleton, List.getLast?_concat] at hlast
  exact Option.some.inj hlast

theorem argument_eq_none {value : String} (h : '(' ∉ value.toList) :
    Step.argument? value = none := by
  rw [Step.argument?, Option.map_eq_none_iff, Option.eq_none_iff_forall_not_mem]
  exact fun _ ha => h (paren_mem_of_afterCall? ha)

theorem isPlain_append {value unit : String} {c : Char} (hv : '(' ∉ value.toList)
    (hu : '(' ∉ unit.toList) (hl : unit.toList.getLast? = some c) (hb : Text.isBlank c = false)
    (hc : c.toLower ≠ 's') : Root.isPlain (value ++ unit) = true := by
  rw [Root.isPlain, exponent_eq_none_of_getLast? (c := c) ?_ hb hc, argument_eq_none]
  · rfl
  · rw [String.toList_append, List.mem_append, not_or]
    exact ⟨hv, hu⟩
  · rw [String.toList_append, List.getLast?_append, hl]
    rfl

theorem isPlain_rem {exponent rem : String} {name : Option String}
    (h : table.rem exponent name = .ok rem) : Root.isPlain rem = true := by
  obtain ⟨size, hs⟩ := Breakpoints.exists_size?_of_rem_eq_ok h
  rw [Breakpoints.rem_of_size? hs] at h
  split at h
  · cases h
    exact isPlain_append (c := 'm') (Decimal.paren_notMem_write _) (by decide) (by decide)
      (by decide) (by decide)
  · cases h

theorem isPlain_percentage (scale : Scale) (root : Float) :
    Root.isPlain (scale.percentage root) = true :=
  isPlain_append (c := '%') (Decimal.paren_notMem_write _) (by decide) (by decide) (by decide)
    (by decide)

/-! ### Font sizes in new nodes -/

theorem fontSizeOf?_variableOf (b : Breakpoint) :
    fontSizeOf? (Template.variableOf b).kind = none := by
  have hp : Text.eqIgnoringCase b.customProperty.toList "font-size".toList = false := by
    rw [Text.eqIgnoringCase, beq_eq_false_iff_ne, Breakpoint.customProperty, String.toList_append]
    intro h
    exact absurd (congrArg List.head? h) (by simp [Text.asciiLower])
  simp only [Template.variableOf, Template.declaration, Node.made, fontSizeOf?, hp,
    Bool.false_eq_true, if_false]

/-- Of a block, only what it holds may be a font size. -/
theorem mem_of_mem_mediaBlock {minWidth selector value : String} {f : Forest Node} {n : Node}
    (hn : n ∈ (Template.mediaBlock minWidth selector f).toList)
    (hv : fontSizeOf? n.kind = some value) : n ∈ f.toList := by
  simp only [Template.mediaBlock, Forest.single, Forest.toList, List.append_nil, List.mem_cons] at hn
  rcases hn with rfl | rfl | hn
  · cases hv
  · cases hv
  · exact hn

theorem Step.exists_of_mem_blocks {selector value : String} {sizes : List (Breakpoint × String)}
    {n : Node} (hn : n ∈ (Step.blocks selector sizes).toList)
    (hv : fontSizeOf? n.kind = some value) : ∃ size ∈ sizes, value = size.2 := by
  induction sizes with
  | nil => cases hn
  | cons size sizes ih =>
    rcases List.mem_append.mp (Forest.toList_append _ _ ▸ hn) with hn | hn
    · obtain rfl := List.mem_singleton.mp (mem_of_mem_mediaBlock hn hv)
      cases hv
      exact ⟨size, List.mem_cons_self, rfl⟩
    · obtain ⟨size, hm, hs⟩ := ih hn
      exact ⟨size, List.mem_cons_of_mem _ hm, hs⟩

theorem Root.exists_of_mem_blocks {scale : Scale} {bs : List Breakpoint} {value : String} {n : Node}
    (hn : n ∈ (Root.blocks scale bs).toList) (hv : fontSizeOf? n.kind = some value) :
    ∃ b ∈ bs, value = scale.percentage b.root := by
  induction bs with
  | nil => cases hn
  | cons b bs ih =>
    rcases List.mem_append.mp (Forest.toList_append _ _ ▸ hn) with hn | hn
    · rcases List.mem_cons.mp (mem_of_mem_mediaBlock hn hv) with rfl | hn
      · rw [fontSizeOf?_variableOf] at hv
        cases hv
      · obtain rfl := List.mem_singleton.mp hn
        cases hv
        exact ⟨b, List.mem_cons_self, rfl⟩
    · obtain ⟨b, hm, hb⟩ := ih hn
      exact ⟨b, List.mem_cons_of_mem _ hm, hb⟩

theorem Root.fontSizeOf?_widthProperties {bs : List Breakpoint} :
    ∀ n ∈ (Root.widthProperties bs).toList, fontSizeOf? n.kind = none := by
  induction bs with
  | nil => exact List.forall_mem_nil _
  | cons b bs ih => exact List.forall_mem_cons.mpr ⟨fontSizeOf?_variableOf b, ih⟩

/-! ### Nodes that are settled -/

/-- A node whose font size needs no conversion, if it has one. -/
def Settled (n : Node) : Prop :=
  ∀ value, fontSizeOf? n.kind = some value → Root.isPlain value = true

/-- What is made of a declaration that is taken is settled. -/
theorem Taken.settled {s : Sizing} {r : Result} (hd : d.Whole) (h : Taken table d id s r)
    {value : String} (hv : r.document.fontSize? id = some value) : Root.isPlain value = true := by
  cases h with
  | measured hm _ _ hr he =>
    obtain ⟨old, hold, -⟩ := Option.bind_eq_some_iff.mp hm
    rw [fontSize?_setValue hold he] at hv
    cases hv
    exact isPlain_rem hr
  | stepped ha _ _ hr _ h₁ he =>
    obtain ⟨old, hold, -⟩ := Option.bind_eq_some_iff.mp ha
    have t := (hd.insertNewAfter h₁).1
    have hl := (t.isLive id (isLive_of_fontSize? hold)).mpr (by simp)
    rw [fontSize?_setValue (fontSize?_of_edited hd t hl hold) he] at hv
    cases hv
    exact isPlain_rem hr
  | rooted ha _ _ _ h₁ h₂ he =>
    obtain ⟨old, hold, -⟩ := (Option.any_eq_true _ _).mp ha
    have t₁ := (hd.insertNewAfter h₁).1
    have hl₁ := (t₁.isLive id (isLive_of_fontSize? hold)).mpr (by simp)
    have t₂ := (t₁.whole.insertNewBefore h₂).1
    have hl₂ := (t₂.isLive id hl₁).mpr (by simp)
    have t := (t₂.whole.replaceWithNew he).1
    exact absurd rfl ((t.isLive id hl₂).mp (isLive_of_fontSize? hv) id rfl).1
  | dropped ha _ he =>
    obtain ⟨old, hold, -⟩ := (Option.any_eq_true _ _).mp ha
    have t := (hd.remove he).1
    exact absurd rfl ((t.isLive id (isLive_of_fontSize? hold)).mp (isLive_of_fontSize? hv) id rfl).1

/-- The nodes that are made when a declaration is taken are settled. -/
theorem Taken.settled_of_fresh {s : Sizing} {r : Result} (hd : d.Whole)
    (h : Taken table d id s r) {x : NodeId} {n : Node} (hn : r.document.node? x = some n)
    (hx : d.isLive x = false) : Settled n := by
  have hlive := isLive_iff_node.mpr ⟨n, hn⟩
  cases h with
  | measured _ _ _ _ he =>
    rw [(hd.setValue he).2 x hlive] at hx
    cases hx
  | stepped ha _ _ _ hs h₁ he =>
    obtain ⟨old, hold, -⟩ := Option.bind_eq_some_iff.mp ha
    have hne : x ≠ id := by
      rintro rfl
      rw [isLive_of_fontSize? hold] at hx
      cases hx
    have hw₁ := (hd.insertNewAfter h₁).1.whole
    obtain ⟨t, hback⟩ := hw₁.setValue he
    have hn₁ := t.node?_of_isLive hw₁ hn (hback x hlive) (by simpa using hne)
    intro value hv
    obtain ⟨size, hsize, rfl⟩ :=
      Step.exists_of_mem_blocks (mem_of_insertNewAfter h₁ (mem_of_node? hn₁) hx) hv
    exact isPlain_rem ((sizes_ok hs).2 size hsize)
  | rooted _ _ _ _ h₁ h₂ he =>
    intro value hv
    have hw₁ := (hd.insertNewAfter h₁).1.whole
    have t₂ := (hw₁.insertNewBefore h₂).1
    have t₃ := (t₂.whole.replaceWithNew he).1
    cases hx₂ : Document.isLive _ x with
    | false =>
      obtain rfl : n = _ := eq_of_replaceWithNew he (mem_of_node? hn) hx₂
      cases hv
      exact isPlain_percentage _ _
    | true =>
      have hn₂ := t₃.node?_of_isLive t₂.whole hn hx₂ List.not_mem_nil
      cases hx₁ : Document.isLive _ x with
      | false =>
        rw [Root.fontSizeOf?_widthProperties n (mem_of_insertNewBefore h₂ (mem_of_node? hn₂) hx₁)]
          at hv
        cases hv
      | true =>
        have hn₁ := t₂.node?_of_isLive hw₁ hn₂ hx₁ List.not_mem_nil
        obtain ⟨b, -, rfl⟩ :=
          Root.exists_of_mem_blocks (mem_of_insertNewAfter h₁ (mem_of_node? hn₁) hx) hv
        exact isPlain_percentage _ _
  | dropped _ _ he =>
    rw [(hd.remove he).2 x hlive] at hx
    cases hx

end Sizing

end ModularScale
