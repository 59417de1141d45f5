import ModularScale.Proofs.Css.Joined
import ModularScale.Proofs.Css.LengthQuery
import ModularScale.Proofs.Css.PlainValue
import ModularScale.Proofs.Scale.Spelling
import ModularScale.Proofs.Sizing.Settled

/-! # Blocks of breakpoints

The width of a breakpoint is written into the query of its block and into its custom property as
the author wrote it. The block is read back among other items if all comments of the width are
closed, and only then, and so are all blocks of a table one after the other.
-/

namespace ModularScale

open Css

variable {settings : Settings} {table : Breakpoints} {b : Breakpoint} {size x y : String}
  {f : Forest Node}

namespace Template

/-- The block that sets the root font size from the width of a breakpoint on. -/
def rootBlock (b : Breakpoint) (size : String) : Forest Node :=
  mediaBlock b.value rootSelector (.cons (variableOf b) .nil (.single (fontSize size) .nil))

end Template

namespace Breakpoint

/-- What a name is made of can stand in a custom property. -/
theorem isNameChar_of_isNameChar {c : Char} (h : isNameChar c = true) :
    (Css.isNameChar c && c != '\x00') = true := by
  rw [isNameChar, Char.isAlphanum, Bool.or_eq_true, Bool.or_eq_true, Bool.or_eq_true, beq_iff_eq,
    beq_iff_eq] at h
  rw [Bool.and_eq_true, bne_iff_ne]
  constructor
  · rcases h with ((h | h) | rfl) | rfl
    · simp [Css.isNameChar, isNameStart, h]
    · simp [Css.isNameChar, h]
    · rfl
    · rfl
  · rintro rfl
    revert h
    decide

/-- A breakpoint as settings can give it, with the name of a custom property and a trimmed length. -/
structure Writable (b : Breakpoint) : Prop where
  isName : IsName b.customProperty.toList
  isLength : IsLength b.value.toList
  trimmed : Text.Trimmed b.value.toList

end Breakpoint

open Breakpoint Template

theorem writable_of_ofSettings (h : Breakpoints.ofSettings settings = .ok table)
    (hb : b ∈ table.items) : b.Writable := by
  obtain ⟨entry, -, hr⟩ := Breakpoints.exists_resolves_of_mem h hb
  have hn := Breakpoints.named_of_ofSettings h
  have hkebab : (Text.kebabCase b.name.toList).all Breakpoint.isNameChar = true :=
    Spells.all_isNameChar (hn.all_isNameChar hb) (.dashed rfl)
  obtain ⟨length, hl, -⟩ := hr.width
  constructor
  · have hproperty : b.customProperty.toList = '-' :: '-' :: Text.kebabCase b.name.toList := by
      simp [customProperty]
    rw [hproperty]
    refine isName_of_all rfl ?_
    rw [List.all_cons, List.all_cons]
    exact List.all_eq_true.mpr fun c hc =>
      isNameChar_of_isNameChar (List.all_eq_true.mp hkebab c hc)
  · rw [hr.value]
    exact isLength_of_ofText hl
  · rw [hr.value, String.toList_ofList]
    exact Text.trimmed_trim _

/-! ### Reading the block back -/

theorem tokens_rootSelector {r : List Char} (hr : Stops r) :
    tokens (rootSelector.toList ++ r) =
      ⟨.colon, [':'], 0⟩ :: ⟨.ident "root".toList, "root".toList, 0⟩ :: tokens r := by
  have hn : IsName "root".toList := isName_of_all (by decide) (by decide)
  have htext : rootSelector.toList ++ r = ':' :: ("root".toList ++ r) := rfl
  rw [htext, tokens_colon, tokens_name hn hr]

/-- A rule for the root element is read back. -/
theorem reprints_root (hf : Reprints .block f) :
    Reprints .block (.single (rule rootSelector) f) := by
  let core := row [⟨.colon, [':'], 0⟩, ⟨.ident "root".toList, "root".toList, 0⟩]
  have htext : core.text = rootSelector.toList := rfl
  have hsolid : Solid Level.block.inside core := by
    refine ⟨rfl, ?_, fun r hr => tokens_rootSelector hr⟩
    rw [htext]
    exact ⟨by rintro c ⟨⟩; rfl, by rintro c ⟨⟩; rfl⟩
  have hread := hsolid.reprints_rule rfl rfl rfl hf none
  rwa [htext, String.ofList_toList] at hread

/-- The block is written so that it is read back if the comments of the width are closed. -/
theorem Breakpoint.Writable.reprints_rootBlock (hb : b.Writable)
    (hc : ClosesComments b.value.toList) (hf : Reprints .block (.single (fontSize size) .nil)) :
    Reprints (.sheet false) (rootBlock b size) := by
  have hp : propertyName b.customProperty.toList = b.customProperty.toList := by
    simp [propertyName, isCustom, customProperty]
  have hvariable : Reprints .block (.single (variableOf b) .nil) := by
    have hread := hb.isLength.reprints_declaration hc hb.trimmed hb.isName hp none
    rwa [String.ofList_toList, String.ofList_toList] at hread
  have hread := hb.isLength.reprints_query hc hb.trimmed (reprints_root (hvariable.cons hf)) none
  rwa [String.ofList_toList] at hread

/-- The sizes of the program are read back. -/
theorem reprints_percentage (scale : Scale) (root : Float) :
    Reprints .block (.single (fontSize (scale.percentage root)) .nil) := by
  have hplain : IsPlain (scale.percentage root).toList := by
    intro c hc
    rw [Scale.percentage, String.toList_append, List.mem_append] at hc
    rcases hc with hc | hc
    · rcases Decimal.mem_write hc with hc | rfl | rfl
      · simp [isPlainChar, hc]
      · rfl
      · rfl
    · obtain rfl : c = '%' := by simpa using hc
      rfl
  have hread := hplain.reprints_declaration (n := "font-size".toList)
    (isName_of_all (by decide) (by decide)) (by decide) none
  rwa [String.ofList_toList, String.ofList_toList] at hread

/-! ### The block among other items -/

theorem exists_print_rootBlock (b : Breakpoint) (size : String) : ∃ r,
    (rootBlock b size).print 0 =
      "@media (min-width: ".toList ++ (b.value.toList ++ (") \x7b".toList ++ r)) := by
  rw [rootBlock, mediaBlock, media, Node.made, Forest.print_atRule, if_pos rfl, Forest.block_eq]
  generalize Forest.print (0 + 1) _ = lines
  exact ⟨'\n' :: (lines ++ (indent 0 ++ ['\x7d', '\n'])), by simp [indent, atRuleHead]⟩

theorem startsCharset_media (r : List Char) :
    (Components.ofText ("@media ".toList ++ r)).startsCharset = false := by
  have hn : IsName "media".toList := isName_of_all (by decide) (by decide)
  have hat := tokens_at hn (name_stop (c := ' ') rfl (by decide) r)
  have htext : "@media ".toList ++ r = '@' :: ("media".toList ++ ' ' :: r) := rfl
  rw [startsCharset_ofText, htext, hat, Components.ofLexemes,
    (Components.read_leaf none _ rfl (Components.closesInside_none _)).1]
  rfl

/-- Behind a document and before any other text a block is read as on its own. -/
theorem map_plain_rootBlock (hx : Sheet.EndsItem x) (b : Breakpoint) (size y : String) :
    (Sheet.ofText (x ++ String.ofList ((rootBlock b size).print 0) ++ y)).items.map Node.plain =
      (Sheet.ofText x).items.map Node.plain ++ ((Level.sheet false).read false
        (Components.ofLexemes (tokens ((rootBlock b size).print 0 ++ y.toList)))).items.map
          Node.plain := by
  obtain ⟨r, hr⟩ := exists_print_rootBlock b size
  have htext : (String.ofList ((rootBlock b size).print 0) ++ y).toList =
      (rootBlock b size).print 0 ++ y.toList := by simp
  have hstart : (Components.ofText
      (String.ofList ((rootBlock b size).print 0) ++ y).toList).startsCharset = false := by
    rw [htext, hr]
    exact startsCharset_media _
  rw [String.append_assoc, hx _ hstart, ← Sheet.ofLaterText_eq hstart,
    Sheet.map_plain_ofLaterText, htext]

/-- A block is not read back if a comment of the width is not closed, whatever follows it. -/
theorem Breakpoint.Writable.read_rootBlock_ne (hb : b.Writable)
    (hc : ¬ClosesComments b.value.toList) (size : String) (behind : List Char) (f : Forest Node) :
    ((Level.sheet false).read false (Components.ofLexemes
        (tokens ((rootBlock b size).print 0 ++ behind)))).items.map Node.plain ≠
      (rootBlock b size).map Node.plain ++ f := by
  obtain ⟨r, hr⟩ := exists_print_rootBlock b size
  rw [hr]
  simp only [List.append_assoc]
  have hne := hb.isLength.read_ne hb.trimmed hc (r ++ behind)
  rw [String.ofList_toList] at hne
  exact hne _ _ _ _

theorem Breakpoint.Writable.map_plain_ne (hb : b.Writable) (hc : ¬ClosesComments b.value.toList)
    (hx : Sheet.EndsItem x) (size y : String) (f : Forest Node) :
    (Sheet.ofText (x ++ String.ofList ((rootBlock b size).print 0) ++ y)).items.map Node.plain ≠
      ((Sheet.ofText x).items ++ (rootBlock b size ++ f)).map Node.plain := by
  intro he
  rw [map_plain_rootBlock hx, Forest.map_append, Forest.map_append] at he
  exact hb.read_rootBlock_ne hc _ _ _ (Forest.append_left_cancel he)

/-- Behind a document and before other items the block of a breakpoint is read back if all comments
of the width are closed, and only then. -/
theorem ofText_append_rootBlock_iff (h : Breakpoints.ofSettings settings = .ok table)
    (hb : b ∈ table.responsive) (hf : Reprints .block (.single (fontSize size) .nil))
    (hx : Sheet.EndsItem x) (y : String) :
    (Sheet.ofText (x ++ String.ofList ((rootBlock b size).print 0) ++ y)).items.map Node.plain =
        ((Sheet.ofText x).items ++
          (rootBlock b size ++ (Sheet.ofLaterText y).items)).map Node.plain ↔
      ClosesComments b.value.toList := by
  have hwritable := writable_of_ofSettings h (List.mem_of_mem_filter hb)
  constructor
  · intro he
    by_contra hc
    exact hwritable.map_plain_ne hc hx _ _ _ he
  · intro hc
    rw [map_plain_rootBlock hx, Forest.map_append, Forest.map_append,
      (hwritable.reprints_rootBlock hc hf 0).read_append rfl, Sheet.map_plain_ofLaterText]

theorem endsItem_rule : Sheet.EndsItem ".x\x7b\x7d\n" := by
  have hc : Components.ofText ".x\x7b\x7d".toList =
      .leaf ⟨.delimiter '.', ['.'], 1⟩ (.leaf ⟨.ident ['x'], ['x'], 1⟩ .nil) ++
        .block ⟨.opening .curly, ['\x7b'], 1⟩ .curly .nil (some ⟨.closing .curly, ['\x7d'], 1⟩)
          .nil ++ .nil := by
    rw [Components.ofText, Components.ofLexemes_eq]
    cbv
  have hx : IsComplete ".x\x7b\x7d".toList := by
    constructor
    · rw [hc]
      rfl
    · rw [hc]
      exact .item (.rule rfl rfl rfl) rfl .nil
  have hnewline : ".x\x7b\x7d" ++ String.ofList ['\n'] = ".x\x7b\x7d\n" := rfl
  rw [← hnewline]
  exact hx.endsItem.spaces (List.forall_mem_singleton.mpr rfl)

/-- With the default settings the block of a tablet is read back between two rules. -/
theorem ofText_append_rootBlock_tablet : ∃ table b,
    Breakpoints.ofSettings {} = .ok table ∧ b ∈ table.responsive ∧ b.value = "768px" ∧
    (Sheet.ofText (".x\x7b\x7d\n" ++ String.ofList
        ((rootBlock b (table.scale.percentage b.root)).print 0) ++ ".y\x7b\x7d")).items.map
          Node.plain =
      ((Sheet.ofText ".x\x7b\x7d\n").items ++
        (rootBlock b (table.scale.percentage b.root) ++
          (Sheet.ofLaterText ".y\x7b\x7d").items)).map Node.plain := by
  have hb : ⟨"tablet", "768px", 18, 768⟩ ∈ Breakpoints.standard.responsive :=
    List.mem_filter.mpr ⟨by simp [Breakpoints.standard], by decide +kernel⟩
  exact ⟨.standard, _, Breakpoints.ofSettings_default, hb, rfl,
    (ofText_append_rootBlock_iff Breakpoints.ofSettings_default hb (reprints_percentage _ _)
      endsItem_rule ".y\x7b\x7d").mpr (by decide +kernel)⟩

/-- A table with a width whose comment is not closed. -/
def Breakpoints.unclosed : Breakpoints where
  items := [⟨"mobile", "0px", 16, 0⟩, ⟨"tablet", "768px/*", 18, 768⟩]
  scale := ⟨1.2, 16⟩
  items_ne_nil := List.cons_ne_nil _ _

/-- An accepted width may make its block swallow the rule behind it. -/
theorem exists_swallowed_rule : ∃ table b,
    Breakpoints.ofSettings
        { breakpoints := [⟨"mobile", "0px", some 16⟩, ⟨"tablet", "768px/*", some 18⟩] } =
      .ok table ∧ b ∈ table.responsive ∧
    (Sheet.ofText (".x\x7b\x7d\n" ++ String.ofList
        ((rootBlock b (table.scale.percentage b.root)).print 0) ++ ".y\x7b\x7d")).items.map
          Node.plain ≠
      ((Sheet.ofText ".x\x7b\x7d\n").items ++
        (rootBlock b (table.scale.percentage b.root) ++
          (Sheet.ofLaterText ".y\x7b\x7d").items)).map Node.plain := by
  have htable : Breakpoints.ofSettings
      { breakpoints := [⟨"mobile", "0px", some 16⟩, ⟨"tablet", "768px/*", some 18⟩] } =
        .ok .unclosed :=
    Breakpoints.ofSettings_eq_ok "mobile" (by decide +kernel) (by decide +kernel)
      (by decide +kernel)
  have hb : ⟨"tablet", "768px/*", 18, 768⟩ ∈ Breakpoints.unclosed.responsive :=
    List.mem_filter.mpr ⟨by simp [Breakpoints.unclosed], by decide +kernel⟩
  have hwritable := writable_of_ofSettings htable (List.mem_of_mem_filter hb)
  exact ⟨_, _, htable, hb, hwritable.map_plain_ne (by decide +kernel) endsItem_rule _ _ _⟩

/-! ### The blocks of a table -/

theorem print_blocks_cons (scale : Scale) (b : Breakpoint) (bs : List Breakpoint) :
    (Sizing.Root.blocks scale (b :: bs)).print 0 =
      (rootBlock b (scale.percentage b.root)).print 0 ++ (Sizing.Root.blocks scale bs).print 0 :=
  Forest.print_cons 0 _ _ _

/-- Before any other text the blocks of breakpoints are read back one after the other if all
comments of their widths are closed. The first width with an open comment stops this. -/
theorem read_blocks_iff (scale : Scale) {bs : List Breakpoint} (h : ∀ b ∈ bs, b.Writable)
    (behind : List Char) :
    ((Level.sheet false).read false (Components.ofLexemes
        (tokens ((Sizing.Root.blocks scale bs).print 0 ++ behind)))).items.map Node.plain =
        (Sizing.Root.blocks scale bs).map Node.plain ++ ((Level.sheet false).read false
          (Components.ofLexemes (tokens behind))).items.map Node.plain ↔
      ∀ b ∈ bs, ClosesComments b.value.toList := by
  induction bs with
  | nil => exact iff_of_true rfl (List.forall_mem_nil _)
  | cons b bs ih =>
    obtain ⟨hb, hbs⟩ := List.forall_mem_cons.mp h
    have hblocks : Sizing.Root.blocks scale (b :: bs) =
        rootBlock b (scale.percentage b.root) ++ Sizing.Root.blocks scale bs := rfl
    rw [print_blocks_cons, List.append_assoc, hblocks, Forest.map_append, Forest.append_assoc,
      List.forall_mem_cons]
    by_cases hc : ClosesComments b.value.toList
    · have hread := hb.reprints_rootBlock hc (reprints_percentage scale b.root) 0
      rw [hread.read_append rfl, and_iff_right hc, ← ih hbs]
      exact ⟨Forest.append_left_cancel, congrArg _⟩
    · exact iff_of_false (hb.read_rootBlock_ne hc _ _ _) fun hall => hc hall.1

/-- Behind a document and before other items the blocks that a root size puts down are all read back
if all comments of the widths are closed, and only then. -/
theorem ofText_append_blocks_iff (h : Breakpoints.ofSettings settings = .ok table)
    (hne : table.responsive ≠ []) (hx : Sheet.EndsItem x) (y : String) :
    let blocks := Sizing.Root.blocks table.scale table.responsive
    (Sheet.ofText (x ++ String.ofList (blocks.print 0) ++ y)).items.map Node.plain =
        ((Sheet.ofText x).items ++ (blocks ++ (Sheet.ofLaterText y).items)).map Node.plain ↔
      ∀ b ∈ table.responsive, ClosesComments b.value.toList := by
  intro blocks
  have hwritable : ∀ b ∈ table.responsive, b.Writable := fun b hb =>
    writable_of_ofSettings h (List.mem_of_mem_filter hb)
  obtain ⟨b, bs, hcons⟩ := List.exists_cons_of_ne_nil hne
  have hprint : blocks.print 0 = (rootBlock b (table.scale.percentage b.root)).print 0 ++
      (Sizing.Root.blocks table.scale bs).print 0 := by
    rw [← print_blocks_cons, ← hcons]
  have htext : x ++ String.ofList (blocks.print 0) ++ y =
      x ++ String.ofList ((rootBlock b (table.scale.percentage b.root)).print 0) ++
        (String.ofList ((Sizing.Root.blocks table.scale bs).print 0) ++ y) := by
    rw [hprint, String.ofList_append]
    simp only [String.append_assoc]
  have hread := read_blocks_iff table.scale hwritable y.toList
  rw [← hread, htext, map_plain_rootBlock hx, Forest.map_append, Forest.map_append,
    Sheet.map_plain_ofLaterText, String.toList_append, String.toList_ofList, ← List.append_assoc,
    ← hprint]
  exact ⟨Forest.append_left_cancel, congrArg _⟩

end ModularScale
