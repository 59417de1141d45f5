import Mathlib
import ModularScale.Proofs.Css.Important
import ModularScale.Proofs.Css.Tails
import ModularScale.Proofs.Document.Offsets

/-! # Names that are printed

A node keeps its name with the escapes resolved and is printed without any. The name is read back
from there if it is one that is written without escapes.
-/

namespace ModularScale

namespace Css

variable {c : Char} {q r n p : List Char} {f : Char → Char} {cs : Components} {level : Level}
  {kind : Kind} {l : Lexeme} {ls head ms behind : List Lexeme}

/-! ## Names before what ends them -/

theorem spaceLength_append_le (hr : startsWith isSpace r = false) (q : List Char) :
    spaceLength (q ++ r) ≤ q.length := by
  have htwo (c d : Char) (cs : List Char) : spaceLength (c :: d :: cs) ≤ 2 := by
    unfold spaceLength
    split
    · exact Nat.le_refl _
    · split <;> omega
    · omega
  rcases q with _ | ⟨c, _ | ⟨d, q⟩⟩
  · cases r with
    | nil => exact Nat.le_refl _
    | cons c r =>
      have hc : c ≠ '\r' := by
        rintro rfl
        cases hr
      simp [spaceLength, hc, show isSpace c = false from hr]
  · cases r with
    | nil => exact length_spaceLength_le [c]
    | cons d r =>
      have hd : d ≠ '\n' := by
        rintro rfl
        cases hr
      simp only [List.cons_append, List.nil_append, List.length_singleton]
      unfold spaceLength
      grind
  · have := htwo c d (q ++ r)
    simp only [List.cons_append, List.length_cons]
    omega

theorem length_takeWhile_append_le {p : Char → Bool} (hr : startsWith p r = false) (q : List Char) :
    ((q ++ r).takeWhile p).length ≤ q.length := by
  rw [takeWhile_append_stop hr]
  exact (List.takeWhile_prefix p).length_le

/-- An escape takes a character at least, and none of what it cannot hold. -/
theorem length_escape_append (hh : startsWith isHexDigit r = false)
    (hs : startsWith isSpace r = false) (c : Char) (q : List Char) :
    0 < (escape (c :: (q ++ r))).length ∧ (escape (c :: (q ++ r))).length ≤ q.length + 1 := by
  have htake : (((c :: q ++ r).take 6).takeWhile isHexDigit).length ≤ (c :: q).length :=
    Nat.le_trans (List.take_takeWhile (p := isHexDigit) ▸ (List.take_prefix _ _).length_le)
      (length_takeWhile_append_le hh (c :: q))
  simp only [escape]
  split
  case isFalse => exact ⟨Nat.one_pos, Nat.le_add_left _ _⟩
  case isTrue hc =>
    have hpos : 0 < (((c :: q ++ r).take 6).takeWhile isHexDigit).length := by
      rw [List.cons_append, List.take_succ_cons, List.takeWhile_cons_of_pos hc]
      exact Nat.succ_pos _
    rw [← List.cons_append] at *
    rw [List.drop_append_of_le_length htake]
    have hspace := spaceLength_append_le hs
      ((c :: q).drop (((c :: q ++ r).take 6).takeWhile isHexDigit).length)
    rw [List.length_drop, List.length_cons] at hspace
    rw [List.length_cons] at htake
    dsimp only
    omega

/-- What may follow a name: the end of the text, or the colon of a declaration. -/
def EndsName (r : List Char) : Prop :=
  r = [] ∨ ∃ r', r = ':' :: ' ' :: r'

theorem EndsName.name_eq (h : EndsName r) : name r = ⟨[], 0⟩ := by
  rcases h with rfl | ⟨r, rfl⟩
  · exact name_nil
  · exact name_stop rfl (by decide) _

theorem EndsName.length_escape (h : EndsName r) (c : Char) (q : List Char) :
    0 < (escape (c :: (q ++ r))).length ∧ (escape (c :: (q ++ r))).length ≤ q.length + 1 := by
  rcases h with rfl | ⟨r, rfl⟩
  · exact length_escape_append rfl rfl c q
  · exact length_escape_append rfl rfl c q

/-- A backslash alone escapes the colon behind it, or the end of the text. -/
theorem EndsName.name_backslash (h : EndsName r) :
    ∃ d, d ≠ '\\' ∧ (name ('\\' :: r)).value = [d] := by
  rcases h with rfl | ⟨r, rfl⟩
  · refine ⟨replacement, by decide, ?_⟩
    rw [name_escape rfl, show (escape []).length = 0 from rfl, List.drop_zero, name_nil]
    rfl
  · refine ⟨':', by decide, ?_⟩
    have he : escape (':' :: ' ' :: r) = ⟨':', 1⟩ := rfl
    rw [name_escape rfl, he, List.drop_succ_cons, List.drop_zero, name_stop rfl (by decide)]
    rfl

/-- A name that is read from a text is shorter than this if there are escapes in it, unless there is
only a backslash at the end. -/
theorem name_append_cases (hr : EndsName r) (q : List Char) :
    (name (q ++ r)).value.length < q.length ∨
    (∀ c ∈ q, isNameChar c = true) ∧ (name (q ++ r)).value = q.map replaceNul ∨
    ∃ m v d, q = m ++ ['\\'] ∧ (name (q ++ r)).value = v ++ [d] ∧
      v.length = m.length ∧ d ≠ '\\' := by
  induction hn : q.length using Nat.strongRecOn generalizing q with
  | _ n ih =>
    subst hn
    cases q with
    | nil =>
      rw [List.nil_append, hr.name_eq]
      exact .inr (.inl ⟨List.forall_mem_nil _, rfl⟩)
    | cons c q =>
      rw [List.cons_append]
      rcases Bool.eq_false_or_eq_true (isNameChar c) with hc | hc
      · rw [name_cons hc]
        simp only [Scan.cons, List.length_cons, Nat.add_lt_add_iff_right]
        refine (ih q.length (Nat.lt_succ_self _) q rfl).imp_right (.imp ?_ ?_)
        · rintro ⟨hq, hv⟩
          exact ⟨List.forall_mem_cons.mpr ⟨hc, hq⟩, by rw [hv]; rfl⟩
        · rintro ⟨m, v, d, rfl, hv, hl, hd⟩
          exact ⟨c :: m, replaceNul c :: v, d, rfl, by rw [hv]; rfl, by simp [hl], hd⟩
      rcases Decidable.em (c = '\\') with rfl | hb
      · rcases Bool.eq_false_or_eq_true (startsWith isNewline (q ++ r)) with hl | hl
        · rw [name_newline hl]
          exact .inl (Nat.succ_pos _)
        cases q with
        | nil =>
          obtain ⟨d, hd, hv⟩ := hr.name_backslash
          exact .inr (.inr ⟨[], [], d, rfl, hv, rfl, hd⟩)
        | cons d q =>
          obtain ⟨hpos, hle⟩ := hr.length_escape d q
          rw [name_escape hl]
          simp only [List.cons_append, Scan.cons, List.length_cons]
          generalize (escape (d :: (q ++ r))).length = k at *
          rw [← List.cons_append, List.drop_append_of_le_length hle]
          have hlen := List.length_drop (i := k) (l := d :: q)
          rw [List.length_cons] at hlen
          -- The escape takes two characters at least, and what follows is no longer than its text.
          have hrest : (name ((d :: q).drop k ++ r)).value.length ≤ ((d :: q).drop k).length := by
            rcases ih _ (by simp only [List.length_cons]; omega) ((d :: q).drop k) rfl with
              h | ⟨-, hv⟩ | ⟨m, v, e, hm, hv, hl, -⟩
            · exact Nat.le_of_lt h
            · rw [hv, List.length_map]
            · rw [hv, hm, List.length_append, List.length_append, hl]
              exact Nat.le_refl _
          left
          omega
      · rw [name_stop hc hb]
        exact .inl (Nat.succ_pos _)

/-- A name that is read from its own text is written without escapes, also in another case. -/
theorem isName_of_name (hf : ∀ c k, f c = k → k.isLower = false → c = k) (hr : EndsName r)
    (hs : startsName (p ++ r) = true) (hv : (name (p ++ r)).value.map f = p) : IsName p := by
  rcases name_append_cases hr p with hlt | ⟨hp, hval⟩ | ⟨m, v, d, hm, hval, -, hd⟩
  · have hlen := congrArg List.length hv
    rw [List.length_map] at hlen
    omega
  · refine ⟨?_, fun c hc => ⟨hp c hc, ?_⟩⟩
    · cases p with
      | nil => rcases hr with rfl | ⟨r, rfl⟩ <;> cases hs
      | cons c p =>
        have hb : c ≠ '\\' := by
          rintro rfl
          cases hp _ List.mem_cons_self
        rcases Decidable.em (c = '-') with rfl | hdash
        · cases p with
          | nil => rcases hr with rfl | ⟨r, rfl⟩ <;> cases hs
          | cons => exact hs
        · rw [List.cons_append, startsName_cons hdash hb] at hs
          rwa [startsName_cons hdash hb]
    · rintro rfl
      rw [hval, List.map_map] at hv
      rw [← hv] at hc
      obtain ⟨d, -, hd⟩ := List.mem_map.mp hc
      have h0 := hf _ _ hd rfl
      unfold replaceNul at h0
      split at h0
      case isTrue => cases h0
      case isFalse hne => exact hne h0
  · rw [hval, hm, List.map_append] at hv
    have hlast := (List.append_inj_right' hv rfl)
    exact absurd (hf _ _ (List.cons.inj hlast).1 rfl) hd

theorem eq_of_id (c k : Char) (h : id c = k) (_ : k.isLower = false) : c = k := h

theorem tokens_eq_ident_iff (p : List Char) : tokens p = [⟨.ident p, p, 0⟩] ↔ IsName p := by
  constructor
  · intro h
    cases p with
    | nil =>
      rw [tokens_nil] at h
      cases h
    | cons c p =>
      rw [tokens_cons] at h
      have ht := congrArg Lexeme.token (List.cons.inj h).1
      rcases nextToken_cases c p with ⟨hs, hv⟩ | ⟨-, hv⟩ | hv
      · rw [hv] at ht
        refine isName_of_name (f := id) eq_of_id (.inl rfl) ?_ ?_
        · rwa [List.append_nil]
        · rw [List.append_nil, List.map_id]
          exact Token.ident.inj ht
      · rw [hv] at ht
        cases ht
      · exact absurd ht (hv _).1
  · intro h
    have ht := tokens_name h stops_nil
    rwa [List.append_nil, tokens_nil] at ht

theorem tokens_eq_atKeyword_iff (n : List Char) :
    tokens ('@' :: n) = [⟨.atKeyword n, '@' :: n, 0⟩] ↔ IsName n := by
  constructor
  · intro h
    rw [tokens_cons] at h
    have ht := congrArg Lexeme.token (List.cons.inj h).1
    rcases nextToken_cases '@' n with ⟨-, hv⟩ | ⟨hs, hv⟩ | hv
    · rw [hv] at ht
      cases ht
    · rw [hv] at ht
      refine isName_of_name (f := id) eq_of_id (.inl rfl) ?_ ?_
      · rwa [List.append_nil]
      · rw [List.append_nil, List.map_id]
        exact Token.atKeyword.inj ht
    · exact absurd ht (hv _).2
  · intro h
    have ht := tokens_at h name_nil
    rwa [List.append_nil, tokens_nil] at ht

/-! ## What is read first -/

theorem eq_of_ofLexemes_leaf (h : Components.ofLexemes ls = .leaf l cs) : ls = l :: cs.lexemes := by
  have hl := Components.lexemes_ofLexemes ls
  rw [h] at hl
  exact hl.symm

/-- The token with which a node starts that is read first. -/
theorem first?_cases (h : level.first? cs = some kind) :
    (∃ text, kind = .comment text) ∨ (∃ prelude, kind = rule prelude) ∨
    (∃ name text line rest prelude hasBlock, cs = .leaf ⟨.atKeyword name, text, line⟩ rest ∧
      kind = atRule name prelude hasBlock) ∨
    ∃ name text line rest value, cs = .leaf ⟨.ident name, text, line⟩ rest ∧
      kind = declaration name value := by
  unfold Level.first? at h
  split at h
  · cases h
    exact .inl ⟨_, rfl⟩
  · split at h
    case isFalse => cases h
    case isTrue hs =>
      rcases item_cases hs with ⟨name, text, line, rest, rfl, hi⟩ |
        ⟨name, text, line, rest, value, -, rfl, -, hi⟩ | hi | hr
      · rw [hi] at h
        cases h
        exact .inr (.inr (.inl ⟨name, text, line, rest, _, _, rfl, rfl⟩))
      · rw [hi] at h
        cases h
        exact .inr (.inr (.inr ⟨name, text, line, rest, _, rfl, rfl⟩))
      · rw [hi] at h
        cases h
      · rw [item_of_startsRule hr] at h
        obtain ⟨-, -, rfl⟩ := Option.map_eq_some_iff.mp h
        exact .inr (.inl ⟨_, rfl⟩)

theorem exists_first?_declaration (hn : IsName n) (r : List Char) : ∃ value,
    Level.block.first? (Components.ofLexemes (tokens (n ++ ':' :: r))) =
      some (declaration n value) := by
  rw [tokens_name hn (stops_cons rfl r), tokens_colon, Components.ofLexemes_leaf rfl,
    Components.ofLexemes_leaf rfl,
    first?_item rfl]
  exact ⟨_, rfl⟩

theorem exists_first?_atRule (hn : IsName n) (hr : name r = ⟨[], 0⟩) (level : Level) :
    ∃ prelude hasBlock, level.first? (Components.ofLexemes (tokens ('@' :: (n ++ r)))) =
      some (atRule n prelude hasBlock) := by
  rw [tokens_at hn hr, Components.ofLexemes_leaf rfl, first?_item (by cases level <;> rfl)]
  cases level <;> exact ⟨_, _, rfl⟩

theorem propertyName_eq_map (n : List Char) : ∃ f : Char → Char, propertyName n = n.map f ∧
    ∀ c k, f c = k → k.isLower = false → c = k := by
  unfold propertyName
  split
  · exact ⟨id, (List.map_id n).symm, eq_of_id⟩
  · exact ⟨Char.toLower, rfl, fun c k => Text.eq_of_toLower_eq⟩

/-- A declaration that is read under the name that is written there is one of a name without
escapes. -/
theorem isName_of_first?_declaration {property value : String} {important : Bool}
    (h : Level.block.first? (Components.ofLexemes (tokens (property.toList ++ ':' :: ' ' :: r))) =
      some (.declaration property value important)) : IsName property.toList := by
  rcases first?_cases h with ⟨_, hk⟩ | ⟨_, hk⟩ | ⟨_, _, _, _, _, _, -, hk⟩ |
    ⟨n, text, line, rest, v, hc, hk⟩
  · cases hk
  · cases hk
  · cases hk
  · have hp : propertyName n = property.toList := by
      rw [(Kind.declaration.inj hk).1, String.toList_ofList]
    have ht := eq_of_ofLexemes_leaf hc
    generalize property.toList = p at *
    cases p with
    | nil =>
      rw [List.nil_append, tokens_colon] at ht
      cases ht
    | cons c p =>
      rw [List.cons_append, tokens_cons] at ht
      have htoken := congrArg Lexeme.token (List.cons.inj ht).1
      rcases nextToken_cases c (p ++ ':' :: ' ' :: r) with ⟨hs, hv⟩ | ⟨-, hv⟩ | hv
      · obtain ⟨f, hmap, hf⟩ := propertyName_eq_map n
        rw [hv] at htoken
        have hval : (name (c :: (p ++ ':' :: ' ' :: r))).value = n := Token.ident.inj htoken
        refine isName_of_name hf (.inr ⟨r, rfl⟩) hs ?_
        rw [List.cons_append, hval, ← hmap, hp]
      · rw [hv] at htoken
        cases htoken
      · exact absurd htoken (hv _).1

/-- An at-rule that is read under its own name has no other name behind this. -/
theorem value_of_first?_atRule {n params afterName : String} {hasBlock : Bool}
    (h : level.first? (Components.ofLexemes (tokens ('@' :: r))) =
      some (.atRule n params afterName hasBlock)) :
    Text.asciiLower (name r).value = n.toList := by
  rcases first?_cases h with ⟨_, hk⟩ | ⟨_, hk⟩ | ⟨m, text, line, rest, _, _, hc, hk⟩ |
    ⟨_, _, _, _, _, -, hk⟩
  · cases hk
  · cases hk
  · have hm : Text.asciiLower m = n.toList := by
      rw [(Kind.atRule.inj hk).1, String.toList_ofList]
    have ht := eq_of_ofLexemes_leaf hc
    rw [tokens_cons] at ht
    have htoken := congrArg Lexeme.token (List.cons.inj ht).1
    rcases nextToken_cases '@' r with ⟨-, hv⟩ | ⟨-, hv⟩ | hv
    · rw [hv] at htoken
      cases htoken
    · rw [hv] at htoken
      rw [← hm]
      exact congrArg Text.asciiLower (Token.atKeyword.inj htoken)
    · exact absurd htoken (hv _).2
  · cases hk

/-! ## Names in the text -/

/-- The text behind a token starts where this ends. -/
theorem exists_of_tokens {x : List Char} (h : tokens x = head ++ l :: ls) : ∃ c cs,
    (nextToken c cs).value = l.token ∧ l.text = c :: cs.take ((nextToken c cs).length - 1) ∧
      spelled ls = cs.drop ((nextToken c cs).length - 1) := by
  have hl := tokens_spelled h
  cases hx : spelled (l :: ls) with
  | nil =>
    rw [hx, tokens_nil] at hl
    cases hl
  | cons c cs =>
    rw [hx, tokens_cons] at hl
    obtain ⟨hl, hls⟩ := List.cons.inj hl
    refine ⟨c, cs, congrArg Lexeme.token hl, (congrArg Lexeme.text hl).symm, ?_⟩
    rw [← hls]
    exact flatMap_text_tokens _

theorem trim_of_takeWhile {v : List Char} (h : v.takeWhile Text.isBlank = []) :
    Text.trim v = Text.trimEnd v := by
  have hv := Text.takeWhile_append_trimStart v
  rw [h, List.nil_append] at hv
  rw [Text.trim, hv]

/-- The parameters of an at-rule do not go on with its name, if they are more than a backslash. -/
theorem name_params {v : List Char} (hv : name (v ++ r) = ⟨[], 0⟩)
    (hb : ¬(v.takeWhile Text.isBlank = [] ∧ Text.trim v = ['\\'])) {s : List Char}
    (hs : name s = ⟨[], 0⟩) :
    name ((if Text.trim v = [] then [] else v.takeWhile Text.isBlank ++ Text.trim v) ++ s) =
      ⟨[], 0⟩ := by
  split
  case isTrue => exact hs
  case isFalse hne =>
    cases v with
    | nil => exact absurd rfl hne
    | cons c v =>
      have hc := isNameChar_of_name_eq hv
      rcases Bool.eq_false_or_eq_true (Text.isBlank c) with hblank | hblank
      · rw [List.takeWhile_cons_of_pos hblank]
        refine name_stop hc ?_ _
        rintro rfl
        cases hblank
      · have hnil : (c :: v).takeWhile Text.isBlank = [] :=
          List.takeWhile_cons_of_neg (Bool.not_eq_true _ ▸ hblank)
        obtain ⟨w, -, hw⟩ := Text.exists_trimEnd_append (c :: v)
        rw [trim_of_takeWhile hnil] at hb hne ⊢
        rw [hnil] at hb ⊢
        cases ht : Text.trimEnd (c :: v) with
        | nil => exact absurd ht hne
        | cons d t =>
          rw [ht, List.cons_append] at hw
          obtain ⟨rfl, rfl⟩ := List.cons.inj hw
          rw [ht] at hb
          rcases Decidable.em (d = '\\') with rfl | hd
          · rcases Bool.eq_false_or_eq_true (startsWith isNewline (t ++ w ++ r)) with hl | hl
            · cases t with
              | nil => exact absurd ⟨rfl, rfl⟩ hb
              | cons e t => exact name_newline (show isNewline e = true from hl)
            · rw [List.cons_append, name_escape hl] at hv
              cases congrArg Scan.value hv
          · exact name_stop hc hd _

/-! ## Printed nodes -/

/-- What is read where a node is written, with the given children and a text behind it. -/
def reread (node : Node) (children : Forest Node) (r : List Char) : Components :=
  Components.ofLexemes (tokens ((Forest.single node children).print 0 ++ r))

theorem exists_print_declaration (property value : String) (important : Bool) (line : Option Nat)
    (children : Forest Node) (r : List Char) : ∃ s,
      (Forest.single ⟨.declaration property value important, line⟩ children).print 0 ++ r =
        property.toList ++ ':' :: ' ' :: s := by
  have h := Forest.print_declaration 0 property value important line
  change (Forest.single ⟨.declaration property value important, line⟩ children).print 0 = _ at h
  rw [h, indent, Nat.mul_zero, List.replicate_zero, List.nil_append, List.append_assoc]
  exact ⟨_, rfl⟩

theorem exists_print_atRule (n params afterName : String) (hasBlock : Bool) (line : Option Nat)
    (children : Forest Node) (r : List Char) : ∃ c s, (c = ' ' ∨ c = ';') ∧
      (Forest.single ⟨.atRule n params afterName hasBlock, line⟩ children).print 0 ++ r =
        '@' :: (n.toList ++ ((if params.isEmpty then [] else afterName.toList ++ params.toList) ++
          c :: s)) := by
  rw [Forest.print_atRule, indent, Nat.mul_zero, List.replicate_zero, List.nil_append]
  simp only [atRuleHead, List.append_assoc, List.cons_append]
  cases hasBlock with
  | true =>
    rw [if_pos rfl, Forest.block_eq]
    exact ⟨' ', _, .inl rfl, rfl⟩
  | false => exact ⟨';', _, .inr rfl, rfl⟩

end Css

open Css

/-- The name that a node is written with is one token, and where the node is written, a node of this
name is read first, whatever its children are and whatever stands behind it. -/
def Node.KeepsName (node : Node) : Prop :=
  match node.kind with
  | .declaration property _ _ =>
    tokens property.toList = [⟨.ident property.toList, property.toList, 0⟩] ∧
    ∀ children r, ∃ value important, Level.block.first? (reread node children r) =
      some (.declaration property value important)
  | .atRule name _ _ _ =>
    tokens ('@' :: name.toList) = [⟨.atKeyword name.toList, '@' :: name.toList, 0⟩] ∧
    ∀ (level : Level) children r, level.drops (reread node children r) = false →
      ∃ params afterName hasBlock, level.first? (reread node children r) =
        some (.atRule name params afterName hasBlock)
  | _ => True

/-- The name of a node is one that is written without escapes, and no lone backslash stands right
behind it. -/
def Kind.WritesName : Kind → Prop
  | .declaration property _ _ => IsName property.toList
  | .atRule name params afterName _ => IsName name.toList ∧ ¬(afterName = "" ∧ params = "\\")
  | _ => True

/-- A node was made from tokens of a text the first of which has no backslash in it or right behind
it. -/
def Kind.NamedPlainly (text : String) (kind : Kind) : Prop :=
  ∃ before l head ms behind, lexemes 1 text.toList = before ++ l :: (head ++ (ms ++ behind)) ∧
    MadeOf (l :: head) ms kind ∧ '\\' ∉ l.text ∧
    startsWith (· == '\\') (spelled (head ++ (ms ++ behind))) = false

namespace Css

theorem keepsName_declaration_iff {property : String}
    (hn : propertyName property.toList = property.toList) (value : String) (important : Bool)
    (line : Option Nat) :
    Node.KeepsName ⟨.declaration property value important, line⟩ ↔ IsName property.toList := by
  constructor
  · exact fun h => (tokens_eq_ident_iff _).mp h.1
  · refine fun h => ⟨(tokens_eq_ident_iff _).mpr h, fun children r => ?_⟩
    obtain ⟨s, hs⟩ := exists_print_declaration property value important line children r
    obtain ⟨v, hv⟩ := exists_first?_declaration h (' ' :: s)
    rw [reread, hs, hv, declaration, hn, String.ofList_toList]
    exact ⟨_, _, rfl⟩

/-- What is read first where a declaration is written is one of the same name only if this is
written without escapes. -/
theorem isName_of_reread {property value value' : String} {important important' : Bool}
    {line : Option Nat} {children : Forest Node} {r : List Char}
    (h : Level.block.first? (reread ⟨.declaration property value important, line⟩ children r) =
      some (.declaration property value' important')) : IsName property.toList := by
  obtain ⟨s, hs⟩ := exists_print_declaration property value important line children r
  rw [reread, hs] at h
  exact isName_of_first?_declaration h

theorem keepsName_atRule_iff {n params afterName : String}
    (hn : Text.asciiLower n.toList = n.toList) (hasBlock : Bool) (line : Option Nat)
    (hparams : ¬(afterName = "" ∧ params = "\\") → ∀ c s, (c = ' ' ∨ c = ';') →
      name ((if params.isEmpty then [] else afterName.toList ++ params.toList) ++ c :: s) =
        ⟨[], 0⟩) :
    Node.KeepsName ⟨.atRule n params afterName hasBlock, line⟩ ↔
      IsName n.toList ∧ ¬(afterName = "" ∧ params = "\\") := by
  constructor
  · rintro ⟨ht, hread⟩
    have hname := (tokens_eq_atKeyword_iff _).mp ht
    refine ⟨hname, ?_⟩
    rintro ⟨rfl, rfl⟩
    obtain ⟨params, afterName, hasBlock', hf⟩ := hread .block .nil [] rfl
    obtain ⟨c, s, hc, hs⟩ := exists_print_atRule n "\\" "" hasBlock line .nil []
    rw [reread, hs] at hf
    have hv := congrArg List.length (value_of_first?_atRule hf)
    have hl : startsWith isNewline (c :: s) = false := by
      rcases hc with rfl | rfl <;> rfl
    have hlong : 0 < (name ('\\' :: c :: s)).value.length := by
      rw [name_escape hl]
      exact Nat.succ_pos _
    rw [Text.asciiLower, List.length_map, name_append_name hname.chars, List.length_append] at hv
    have htail : (if ("\\" : String).isEmpty then [] else "".toList ++ "\\".toList) ++ c :: s =
        '\\' :: c :: s := rfl
    rw [htail] at hv
    omega
  · rintro ⟨hname, hne⟩
    refine ⟨(tokens_eq_atKeyword_iff _).mpr hname, fun level children r _ => ?_⟩
    obtain ⟨c, s, hc, hs⟩ := exists_print_atRule n params afterName hasBlock line children r
    obtain ⟨prelude, hasBlock', hf⟩ := exists_first?_atRule hname (hparams hne c s hc) level
    rw [reread, hs, hf, atRule, hn, String.ofList_toList]
    exact ⟨_, _, _, rfl⟩

theorem name_of_slice {text : String} {before ms behind : List Lexeme} {l : Lexeme} {n : List Char}
    (ht : lexemes 1 text.toList = before ++ l :: (ms ++ behind)) (hl : l.token = .atKeyword n) :
    name (spelled ms ++ spelled behind) = ⟨[], 0⟩ := by
  have hall : tokens text.toList =
      before.map Lexeme.bare ++ l.bare :: (ms ++ behind).map Lexeme.bare := by
    rw [← map_bare_lexemes 1, ht]
    simp
  obtain ⟨c, cs, hv, -, hspelled⟩ := exists_of_tokens hall
  rw [spelled_bare, spelled_append] at hspelled
  rw [hspelled]
  exact name_drop_atKeyword (hv.trans hl)

theorem IsName.propertyName {n : List Char} (hn : IsName n) : IsName (propertyName n) := by
  unfold Css.propertyName
  split
  · exact hn
  · exact hn.asciiLower

theorem notMem_take {c : Char} {cs : List Char} {k : Nat} (h : '\\' ∉ c :: cs.take (k - 1))
    (hd : startsWith (· == '\\') (cs.drop (k - 1)) = false) : '\\' ∉ c :: cs.take k := by
  cases k with
  | zero => exact h
  | succ k =>
    rw [Nat.add_sub_cancel] at h hd
    intro hm
    rw [List.take_add, ← List.cons_append, List.mem_append] at hm
    rcases hm with hm | hm
    · exact h hm
    · cases hcs : cs.drop k with
      | nil =>
        rw [hcs] at hm
        cases hm
      | cons d ds =>
        rw [hcs] at hd hm
        have hdm : '\\' = d := List.mem_singleton.mp hm
        rw [← hdm] at hd
        cases hd

theorem writesName_of_namedPlainly {text : String} {kind : Kind} (h : kind.NamedPlainly text) :
    kind.WritesName := by
  obtain ⟨before, l, head, ms, behind, ht, hmade, hl, hbehind⟩ := h
  have hall : tokens text.toList =
      before.map Lexeme.bare ++ l.bare :: (head ++ (ms ++ behind)).map Lexeme.bare := by
    rw [← map_bare_lexemes 1, ht]
    simp
  obtain ⟨c, cs, hv, htext, hspelled⟩ := exists_of_tokens hall
  rw [spelled_bare] at hspelled
  have hplain : '\\' ∉ c :: cs.take (nextToken c cs).length :=
    notMem_take (htext ▸ hl) (hspelled ▸ hbehind)
  generalize hhead : l :: head = start at hmade
  cases hmade with
  | rule => trivial
  | @atRule l' n htoken ms hasBlock =>
    obtain ⟨rfl, rfl⟩ := List.cons.inj hhead
    have hn := isName_of_atKeyword (List.not_mem_of_not_mem_cons hplain) (hv.trans htoken)
    refine ⟨?_, ?_⟩
    · rw [String.toList_ofList]
      exact hn.asciiLower
    · rintro ⟨hafter, hparams⟩
      have hnil : (spelled ms).takeWhile Text.isBlank = [] :=
        String.ofList_injective (hafter.trans rfl)
      have htrim : Text.trimEnd (spelled ms) = ['\\'] :=
        (trim_of_takeWhile hnil).symm.trans (String.ofList_injective (hparams.trans rfl))
      obtain ⟨w, -, hw⟩ := Text.exists_trimEnd_append (spelled ms)
      rw [List.nil_append, spelled_append, ← hw, htrim] at hbehind
      cases hbehind
  | @declaration l' colon n gaps htoken hg hc ms =>
    obtain ⟨rfl, -⟩ := List.cons.inj hhead
    have hn := isName_of_ident hplain (hv.trans htoken)
    show IsName (String.toList (String.ofList _))
    rw [String.toList_ofList]
    exact hn.propertyName

/-- The names of declarations and at-rules are printed and read back just if they are written
without escapes there. They are if they were so in the text, and no other declaration is read back
anywhere under its name. -/
theorem Sheet.ofText_names {text : String} {node : Node}
    (hn : node ∈ (Sheet.ofText text).items.toList) :
    (node.KeepsName ↔ node.kind.WritesName) ∧
    (node.kind.NamedPlainly text → node.kind.WritesName) ∧
    ∀ property value important children r value' important',
      node.kind = .declaration property value important →
      Level.block.first? (reread node children r) = some (.declaration property value' important') →
      node.kind.WritesName := by
  refine ⟨?_, writesName_of_namedPlainly, ?_⟩
  rotate_left
  · intro property value important children r value' important' hk hf
    obtain ⟨kind, line⟩ := node
    obtain rfl : kind = _ := hk
    exact isName_of_reread hf
  obtain ⟨level, cs, hp, hf⟩ := Sheet.exists_place hn
  obtain ⟨kind, line⟩ := node
  rcases hp.sourced_of_first? hf with ⟨comment, rfl⟩ | ⟨before, head, ms, behind, ht, hb, hmade⟩
  · exact Iff.rfl
  cases hmade with
  | rule => exact Iff.rfl
  | @atRule l n htoken ms hasBlock =>
    have hmeet := @name_of_slice text before ms behind l n ht htoken
    refine keepsName_atRule_iff ?_ hasBlock line fun hne c s hc => ?_
    · rw [String.toList_ofList, Text.asciiLower_asciiLower]
    · have hs : name (c :: s) = ⟨[], 0⟩ := by
        rcases hc with rfl | rfl <;> exact name_stop rfl (by decide) s
      have hb : ¬((spelled ms).takeWhile Text.isBlank = [] ∧ Text.trim (spelled ms) = ['\\']) := by
        rintro ⟨ha, hp⟩
        exact hne ⟨congrArg String.ofList ha, congrArg String.ofList hp⟩
      simpa using name_params hmeet hb hs
  | declaration =>
    refine keepsName_declaration_iff ?_ _ _ line
    rw [String.toList_ofList, propertyName_propertyName]

/-- An escape is resolved in the name of a property, which comes out as any other name. -/
theorem Sheet.ofText_names_escaped :
    ⟨.declaration "abc" "d" false, some 1⟩ ∈ (Sheet.ofText ".x\x7ba\\62 c:d\x7d").items.toList ∧
    Node.KeepsName ⟨.declaration "abc" "d" false, some 1⟩ := by
  have hn : ⟨.declaration "abc" "d" false, some 1⟩ ∈
      (Sheet.ofText ".x\x7ba\\62 c:d\x7d").items.toList := by
    have hs : (Sheet.ofText ".x\x7ba\\62 c:d\x7d").items.toList =
        [⟨.rule ".x", some 1⟩, ⟨.declaration "abc" "d" false, some 1⟩] := by
      rw [Sheet.ofText, Components.ofText, Components.ofLexemes_eq]
      cbv
    rw [hs]
    exact List.mem_cons_of_mem _ List.mem_cons_self
  have hname : IsName "abc".toList := isName_of_all rfl rfl
  exact ⟨hn, (Sheet.ofText_names hn).1.mpr hname⟩

/-- The digit with which a name starts cannot be written without an escape. -/
theorem exists_lost_name : ∃ node ∈ (Sheet.ofText ".x \x7b \\31 0: y \x7d").items.toList,
    node.kind = .declaration "10" "y" false ∧ ¬node.KeepsName := by
  have hs : (Sheet.ofText ".x \x7b \\31 0: y \x7d").items.toList =
      [⟨.rule ".x", some 1⟩, ⟨.declaration "10" "y" false, some 1⟩] := by
    rw [Sheet.ofText, Components.ofText, Components.ofLexemes_eq]
    cbv
  rw [hs]
  refine ⟨_, List.mem_cons_of_mem _ List.mem_cons_self, rfl, fun h => ?_⟩
  have hname := (tokens_eq_ident_iff _).mp h.1
  cases hname.starts

end Css

end ModularScale
