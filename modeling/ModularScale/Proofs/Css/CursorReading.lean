import ModularScale.Proofs.Css.Cursor

/-! # What is read in rounds

With more rounds than there are tokens a reader comes to the end of its level, and what it has read
are the items of the components that its tokens make up.
-/

namespace ModularScale.Css

open Components

namespace Cursor

variable {inside : Option Bracket} {stop : Stop} {level : Level} {l : Lexeme}
  {ls left : List Lexeme}

/-- The components from a place on, up to the bracket that closes what it is in. -/
def content (inside : Option Bracket) (ls : List Lexeme) : Components :=
  (Components.read inside ls).content

/-- That bracket, unless the tokens end before it. -/
def closer (inside : Option Bracket) (ls : List Lexeme) : Option Lexeme :=
  (Components.read inside ls).closing

/-- The tokens behind that bracket. -/
def beyond (inside : Option Bracket) (ls : List Lexeme) : List Lexeme :=
  (Components.read inside ls).after

/-- The tokens from that bracket on. -/
def ending (inside : Option Bracket) (ls : List Lexeme) : List Lexeme :=
  (closer inside ls).toList ++ beyond inside ls

/-! ### Components from a place on -/

theorem parts_nil (inside : Option Bracket) :
    content inside [] = .nil ∧ closer inside [] = none ∧ beyond inside [] = [] := by
  rw [content, closer, beyond, Components.read]
  exact ⟨rfl, rfl, rfl⟩

theorem parts_leaf (ho : l.token.opens? = none) (hc : closesInside inside l = false)
    (ls : List Lexeme) : content inside (l :: ls) = .leaf l (content inside ls) ∧
      closer inside (l :: ls) = closer inside ls ∧ beyond inside (l :: ls) = beyond inside ls :=
  read_leaf inside ls ho hc

theorem parts_block {b : Bracket} (ho : l.token.opens? = some b) (ls : List Lexeme) :
    content inside (l :: ls) = .block l b (content (some b) ls) (closer (some b) ls)
        (content inside (beyond (some b) ls)) ∧
      closer inside (l :: ls) = closer inside (beyond (some b) ls) ∧
      beyond inside (l :: ls) = beyond inside (beyond (some b) ls) :=
  read_opening inside ls ho

theorem opens?_of_closesInside (h : closesInside inside l = true) : l.token.opens? = none := by
  obtain ⟨b, hb⟩ := Option.isSome_iff_exists.mp (Bool.and_eq_true_iff.mp h).1
  exact opens?_of_closes? hb

theorem parts_closing (h : closesInside inside l = true) (ls : List Lexeme) :
    content inside (l :: ls) = .nil ∧ closer inside (l :: ls) = some l ∧
      beyond inside (l :: ls) = ls :=
  read_closing inside ls (opens?_of_closesInside h) h

theorem ending_nil (inside : Option Bracket) : ending inside [] = [] := by
  rw [ending, (parts_nil inside).2.1, (parts_nil inside).2.2]
  rfl

theorem ending_leaf (ho : l.token.opens? = none) (hc : closesInside inside l = false)
    (ls : List Lexeme) : ending inside (l :: ls) = ending inside ls := by
  obtain ⟨-, hcl, hb⟩ := parts_leaf ho hc ls
  rw [ending, hcl, hb, ending]

theorem ending_block {b : Bracket} (ho : l.token.opens? = some b) (ls : List Lexeme) :
    ending inside (l :: ls) = ending inside (beyond (some b) ls) := by
  obtain ⟨-, hcl, hb⟩ := @parts_block inside _ _ ho ls
  rw [ending, hcl, hb, ending]

theorem ending_closing (h : closesInside inside l = true) (ls : List Lexeme) :
    ending inside (l :: ls) = l :: ls := by
  obtain ⟨-, hcl, hb⟩ := parts_closing h ls
  rw [ending, hcl, hb]
  rfl

theorem length_beyond_le (inside : Option Bracket) (ls : List Lexeme) :
    (beyond inside ls).length ≤ ls.length :=
  (Components.read inside ls).after_length

/-- Where the content of a place ends there are no more tokens, or there is the closing bracket. -/
theorem ending_cases (inside : Option Bracket) (ls : List Lexeme) : ending inside ls = [] ∧
      beyond inside ls = [] ∨
    ∃ l, ending inside ls = l :: beyond inside ls ∧ closesInside inside l = true := by
  obtain ⟨hn, hs⟩ := closing_read inside ls
  rw [ending]
  cases hc : closer inside ls with
  | none => exact .inl ⟨hn hc, hn hc⟩
  | some l =>
    refine .inr ⟨l, rfl, ?_⟩
    have hl := hs l hc
    cases inside with
    | none =>
      rw [closer, (closing_read_none ls).1] at hc
      cases hc
    | some b => simp [closesInside, hl]

/-- There is nothing left of the content of a place where it ends. -/
theorem content_ending (inside : Option Bracket) (ls : List Lexeme) :
    content inside (ending inside ls) = .nil ∧
      ending inside (ending inside ls) = ending inside ls := by
  rcases ending_cases inside ls with ⟨h, -⟩ | ⟨l, h, hc⟩
  · rw [h]
    exact ⟨(parts_nil inside).1, ending_nil inside⟩
  · rw [h]
    exact ⟨(parts_closing hc _).1, ending_closing hc _⟩

/-! ### Blocks and slices -/

/-- A block is passed over up to the bracket that closes it. -/
theorem skip_cons (b : Bracket) (bs : List Bracket) (ls : List Lexeme) :
    skip (b :: bs) ls = skip bs (beyond (some b) ls) := by
  generalize hn : ls.length = n
  induction n using Nat.strongRecOn generalizing b bs ls with
  | ind n ih =>
    cases ls with
    | nil =>
      rw [(parts_nil (some b)).2.2]
      cases bs <;> rfl
    | cons l ls =>
      have hlt : ls.length < n := hn ▸ Nat.lt_succ_self _
      cases ho : l.token.opens? with
      | some c =>
        have hc := length_beyond_le (some c) ls
        rw [skip, turn, ho, (parts_block ho ls).2.2]
        show skip (c :: b :: bs) ls = _
        rw [ih _ hlt c (b :: bs) ls rfl, ih _ (by omega) b bs _ rfl]
      | none =>
        rw [skip, turn, ho]
        cases hc : closesInside (some b) l with
        | true =>
          rw [(parts_closing hc ls).2.2]
          simp [hc]
        | false =>
          rw [(parts_leaf ho hc ls).2.2, ← ih _ hlt b bs ls rfl]
          simp [hc]

theorem skip_block (ls : List Lexeme) : skip [.curly] ls = beyond (some .curly) ls := by
  rw [skip_cons]
  cases beyond (some .curly) ls <;> rfl

/-- From the end of its content on, a block is passed over to the same place. -/
theorem skip_ending (ls : List Lexeme) :
    skip [.curly] (ending (some .curly) ls) = beyond (some .curly) ls := by
  rw [skip_block]
  rcases ending_cases (some .curly) ls with ⟨h, hb⟩ | ⟨l, h, hc⟩
  · rw [h, hb, (parts_nil _).2.2]
  · rw [h, (parts_closing hc _).2.2]

/-- A slice goes over a block to the bracket that closes it. -/
theorem slice_cons (inside : Option Bracket) (stop : Stop) (b : Bracket) (bs : List Bracket)
    (ls : List Lexeme) : slice inside stop (b :: bs) ls =
      ((content (some b) ls).lexemes ++ (closer (some b) ls).toList ++
        (slice inside stop bs (beyond (some b) ls)).1,
        (slice inside stop bs (beyond (some b) ls)).2) := by
  generalize hn : ls.length = n
  induction n using Nat.strongRecOn generalizing b bs ls with
  | ind n ih =>
    cases ls with
    | nil =>
      obtain ⟨hct, hcl, hb⟩ := parts_nil (some b)
      rw [hct, hcl, hb]
      cases bs <;> rfl
    | cons l ls =>
      have hlt : ls.length < n := hn ▸ Nat.lt_succ_self _
      rw [slice, turn]
      simp only [List.isEmpty_cons, Bool.false_and, Bool.false_eq_true, if_false]
      cases ho : l.token.opens? with
      | some c =>
        have hc := length_beyond_le (some c) ls
        obtain ⟨hct, hcl, hb⟩ := @parts_block (some b) _ _ ho ls
        rw [hct, hcl, hb]
        simp only
        rw [ih _ hlt c (b :: bs) ls rfl, ih _ (by omega) b bs _ rfl]
        simp [Components.lexemes]
      | none =>
        cases hc : closesInside (some b) l with
        | true =>
          obtain ⟨hct, hcl, hb⟩ := parts_closing hc ls
          simp [hct, hcl, hb, hc, Components.lexemes]
        | false =>
          obtain ⟨hct, hcl, hb⟩ := parts_leaf ho hc ls
          rw [hct, hcl, hb]
          simp only [List.head?_cons, hc, Bool.false_eq_true, if_false]
          rw [ih _ hlt b bs ls rfl]
          simp [Components.lexemes]

/-- How the run of components from a place on ends, and which tokens are left there. -/
inductive Ends (inside : Option Bracket) (ls : List Lexeme) : Run → List Lexeme → Prop
  | level (text : List Char) : Ends inside ls ⟨text, none, .nil⟩ (ending inside ls)
  | semicolon (text : List Char) {l : Lexeme} {rest : List Lexeme} : l.token = .semicolon →
    ending inside rest = ending inside ls →
    Ends inside ls ⟨text, none, content inside rest⟩ (l :: rest)
  | block (text : List Char) {l : Lexeme} {rest : List Lexeme} : l.token.opens? = some .curly →
    ending inside (beyond (some .curly) rest) = ending inside ls →
    Ends inside ls ⟨text, some (content (some .curly) rest),
      content inside (beyond (some .curly) rest)⟩ (l :: rest)

theorem Ends.cons {run : Run} {ls' : List Lexeme} (h : Ends inside ls run left) (text : List Char)
    (he : ending inside ls = ending inside ls') : Ends inside ls' (run.cons text) left := by
  cases h with
  | level => exact he ▸ .level _
  | semicolon _ ht hr => exact .semicolon _ ht (hr.trans he)
  | block _ ho hr => exact .block _ ho (hr.trans he)

/-- A slice has the text of the run from its start on and ends where this does. -/
theorem slice_run (inside : Option Bracket) (stop : Stop) (ls : List Lexeme) :
    ((content inside ls).run stop).text = (slice inside stop [] ls).1.flatMap Lexeme.text ∧
      Ends inside ls ((content inside ls).run stop) (slice inside stop [] ls).2 := by
  generalize hn : ls.length = n
  induction n using Nat.strongRecOn generalizing ls with
  | ind n ih =>
    cases ls with
    | nil =>
      have hends := @Ends.level inside [] []
      rw [ending_nil] at hends
      rw [(parts_nil inside).1]
      exact ⟨rfl, hends⟩
    | cons l ls =>
      have hlt : ls.length < n := hn ▸ Nat.lt_succ_self _
      rw [slice, turn]
      simp only [List.isEmpty_nil, Bool.true_and]
      cases hc : closesInside inside l with
      | true =>
        have hends := @Ends.level inside (l :: ls) []
        rw [ending_closing hc ls] at hends
        rw [endsSlice, hc, (parts_closing hc ls).1]
        exact ⟨rfl, hends⟩
      | false =>
        rw [endsSlice, hc, Bool.false_or]
        cases ho : l.token.opens? with
        | none =>
          have hend := ending_leaf ho hc ls
          rw [(parts_leaf ho hc ls).1, run]
          simp only [reduceCtorEq, decide_false, Bool.and_false, Bool.or_false]
          split
          case isTrue ht =>
            rw [Bool.and_eq_true, decide_eq_true_eq] at ht
            exact ⟨rfl, .semicolon [] ht.2 hend.symm⟩
          case isFalse =>
            obtain ⟨htext, hends⟩ := ih _ hlt ls rfl
            simp only [List.head?_nil, closesInside_none, Bool.false_eq_true, if_false]
            refine ⟨?_, hends.cons _ hend.symm⟩
            simp [Run.cons, htext]
        | some b =>
          have hend := @ending_block inside _ _ ho ls
          have hlen := length_beyond_le (some b) ls
          have hsemi : l.token ≠ .semicolon := by
            intro ht
            rw [ht] at ho
            cases ho
          rw [(parts_block ho ls).1, run]
          simp only [hsemi, decide_false, Bool.and_false, Bool.false_or, Option.some.injEq]
          split
          case isTrue ht =>
            rw [Bool.and_eq_true, decide_eq_true_eq] at ht
            obtain rfl := ht.2
            exact ⟨rfl, .block [] ho hend.symm⟩
          case isFalse =>
            obtain ⟨htext, hends⟩ := ih _ (by omega) (beyond (some b) ls) rfl
            rw [slice_cons]
            refine ⟨?_, hends.cons _ hend.symm⟩
            simp only [Run.cons, htext]
            cases closer (some b) ls <;> simp [Components.text]

/-! ### Items -/

/-- A place is either at the end of its content or at the first component of it. -/
theorem content_cons (hc : closesInside inside l = false) (ls : List Lexeme) :
    (content inside (l :: ls) = .leaf l (content inside ls) ∧
      ending inside (l :: ls) = ending inside ls ∧ l.token.opens? = none) ∨
    ∃ b, l.token.opens? = some b ∧ content inside (l :: ls) = .block l b (content (some b) ls)
      (closer (some b) ls) (content inside (beyond (some b) ls)) := by
  cases ho : l.token.opens? with
  | none => exact .inl ⟨(parts_leaf ho hc ls).1, ending_leaf ho hc ls, rfl⟩
  | some b => exact .inr ⟨b, rfl, (parts_block ho ls).1⟩

theorem closesInside_of_closes? (h : l.token.closes? = none) : closesInside inside l = false := by
  rw [closesInside, h]
  rfl

theorem afterColon?_content (inside : Option Bracket) (ls : List Lexeme) :
    (content inside ls).afterColon? = (expectColon? ls).map (content inside) ∧
      ∀ value, expectColon? ls = some value → ending inside value = ending inside ls := by
  induction ls with
  | nil =>
    rw [(parts_nil inside).1]
    refine ⟨rfl, ?_⟩
    rintro value ⟨⟩
  | cons l ls ih =>
    obtain ⟨token, text, line⟩ := l
    have hleaf : ∀ token : Token, token.opens? = none → token.closes? = none →
        content inside (⟨token, text, line⟩ :: ls) = .leaf ⟨token, text, line⟩ (content inside ls) ∧
          ending inside (⟨token, text, line⟩ :: ls) = ending inside ls := fun _ ho hc =>
      ⟨(parts_leaf ho (closesInside_of_closes? hc) ls).1,
        ending_leaf ho (closesInside_of_closes? hc) ls⟩
    rcases Bool.eq_false_or_eq_true token.isGap with hg | hg
    · have hnone : token.opens? = none ∧ token.closes? = none := by
        cases token <;> first | exact ⟨rfl, rfl⟩ | cases hg
      obtain ⟨hct, hend⟩ := hleaf token hnone.1 hnone.2
      rw [hct, hend, expectColon?, if_pos hg, afterColon?, if_pos hg]
      exact ih
    · by_cases ht : token = .colon
      · subst ht
        obtain ⟨hct, hend⟩ := hleaf .colon rfl rfl
        rw [hct, hend]
        refine ⟨rfl, ?_⟩
        rintro value ⟨⟩
        rfl
      · rw [expectColon?, if_neg (by simp [hg]), if_neg ht]
        refine ⟨?_, by rintro value ⟨⟩⟩
        cases hc : closesInside inside ⟨token, text, line⟩ with
        | true =>
          rw [(parts_closing hc ls).1]
          rfl
        | false =>
          rcases content_cons hc ls with ⟨hct, -⟩ | ⟨b, -, hct⟩
          · rw [hct, afterColon?, if_neg (by simp [hg]), if_neg ht]
            rfl
          · rw [hct]
            rfl

/-- An item as its head and the run of components from the start of its slice on make it up. -/
def Head.item (h : Head) (run : Run) : Item where
  kind := h.kind run.text run.block.isSome
  content := if h.reads then run.block.getD .nil else .nil
  after := run.after

/-- What is read as a rule from its first token on. -/
theorem item_of_ruleHead (hi : level.item (content inside ls) = ruleItem stop (content inside ls))
    (hh : head level ls = ruleHead stop ls) :
    level.item (content inside ls) =
        (head level ls).item ((content inside (head level ls).start).run (head level ls).stop) ∧
      ending inside (head level ls).start = ending inside ls := by
  rw [hi, hh]
  refine ⟨?_, rfl⟩
  simp only [ruleItem, Head.item, ruleHead]
  cases ((content inside ls).run stop).block <;> rfl

/-- What starts with a name is a declaration, one that starts like a custom property where there are
none, or a rule from its name on. -/
theorem item_head_name (level : Level) (name text : List Char) (line : Nat) (ls : List Lexeme) :
    let ls' := ⟨.ident name, text, line⟩ :: ls
    level.item (content level.bracket? ls') = (head level ls').item
        ((content level.bracket? (head level ls').start).run (head level ls').stop) ∧
      ending level.bracket? (head level ls').start = ending level.bracket? ls' := by
  intro ls'
  have hc : closesInside level.bracket? ⟨.ident name, text, line⟩ = false :=
    closesInside_of_closes? rfl
  have hct : content level.bracket? ls' =
      .leaf ⟨.ident name, text, line⟩ (content level.bracket? ls) := (parts_leaf rfl hc ls).1
  obtain ⟨hcolon, hvalue⟩ := afterColon?_content level.bracket? ls
  cases he : expectColon? ls with
  | none =>
    rw [he, Option.map_none] at hcolon
    have hrule : level.startsRule (content level.bracket? ls') := by
      rw [hct, Level.startsRule, hcolon]
      rfl
    exact item_of_ruleHead (item_of_startsRule hrule) (by simp only [ls', head, he])
  | some value =>
    rw [he, Option.map_some] at hcolon
    cases level with
    | block =>
      have hhead : head .block ls' = declarationHead name value := by simp only [ls', head, he]
      rw [hhead, ending_leaf rfl hc, hct, Level.item, bodyItem, hcolon]
      exact ⟨rfl, hvalue value he⟩
    | sheet first =>
      have hitem : Level.item (.sheet first) (content none ls') =
          if isCustom name then customItem (content none ls')
          else ruleItem ruleStop (content none ls') := by
        rw [Level.bracket?] at hcolon hct
        rw [hct, Level.item, sheetItem, hcolon, Option.isSome_some, Bool.and_true]
      have hhead : head (.sheet first) ls' =
          if isCustom name then customHead ls' else ruleHead ruleStop ls' := by
        simp only [ls', head, he]
      cases hn : isCustom name with
      | true =>
        rw [hn, if_pos rfl] at hitem hhead
        rw [hhead]
        exact ⟨hitem, rfl⟩
      | false =>
        rw [hn, if_neg Bool.false_ne_true] at hitem hhead
        exact item_of_ruleHead hitem hhead

/-- The head of an item tells where its slice starts and what it is. -/
theorem item_head (hc : closesInside level.bracket? l = false) (ls : List Lexeme) :
    level.item (content level.bracket? (l :: ls)) = (head level (l :: ls)).item
        ((content level.bracket? (head level (l :: ls)).start).run (head level (l :: ls)).stop) ∧
      ending level.bracket? (head level (l :: ls)).start = ending level.bracket? (l :: ls) := by
  obtain ⟨token, text, line⟩ := l
  rcases content_cons hc ls with ⟨hct, hend, ho⟩ | ⟨b, ho, hct⟩
  · cases token with
    | atKeyword name =>
      rw [hct, head, hend]
      cases level <;> exact ⟨rfl, rfl⟩
    | ident name => exact item_head_name level name text line ls
    | _ =>
      refine item_of_ruleHead (?_ : _ = ruleItem level.stop _) ?_
      · rw [hct]
        cases level <;> rfl
      · cases level <;> rfl
  · refine item_of_ruleHead (item_of_startsRule (by rw [hct]; rfl)) ?_
    cases token <;> cases ho <;> cases level <;> rfl

/-! ### Rounds -/

theorem block?_ending (inside : Option Bracket) (ls : List Lexeme) :
    block? (ending inside ls) = none ∧ behind (ending inside ls) = ending inside ls := by
  rcases ending_cases inside ls with ⟨h, -⟩ | ⟨l, h, hc⟩
  · rw [h]
    exact ⟨rfl, rfl⟩
  · have ho := opens?_of_closesInside hc
    have hsemi : l.token ≠ .semicolon := by
      intro ht
      rw [closesInside, ht] at hc
      cases hc
    rw [h, block?, behind, ho]
    simp only [reduceCtorEq, if_false, hsemi, and_self]

/-- Behind the mark at which a slice ends lies what its run leaves. -/
theorem Ends.behind {run : Run} (h : Ends inside ls run left) :
    content inside (behind left) = run.after ∧
      ending inside (Cursor.behind left) = ending inside ls := by
  cases h with
  | level =>
    rw [(block?_ending inside ls).2]
    exact content_ending inside ls
  | @semicolon _ m rest ht hr =>
    have hl : Cursor.behind (m :: rest) = rest := by rw [Cursor.behind, ht]; rfl
    rw [hl]
    exact ⟨rfl, hr⟩
  | @block _ m rest ho hr =>
    have hl : Cursor.behind (m :: rest) = beyond (some .curly) rest := by
      rw [Cursor.behind, if_pos ho, skip_block]
    rw [hl]
    exact ⟨rfl, hr⟩

/-- A slice that ends before a block ends where the run does that has this block. -/
theorem Ends.block? {run : Run} (h : Ends inside ls run left) :
    Cursor.block? left = none ∧ run.block = none ∨
      ∃ rest, Cursor.block? left = some rest ∧ run.block = some (content (some .curly) rest) ∧
        Cursor.behind left = beyond (some .curly) rest := by
  cases h with
  | level => exact .inl ⟨(block?_ending inside ls).1, rfl⟩
  | @semicolon _ m rest ht hr => exact .inl ⟨by rw [Cursor.block?, ht]; rfl, rfl⟩
  | @block _ m rest ho hr =>
    exact .inr ⟨rest, if_pos ho, rfl, by rw [Cursor.behind, if_pos ho, skip_block]⟩

/-- Reads an item as the components from its place on have it, if the content of its block is read
so. -/
theorem readItem_eq {inner : List Lexeme → Option (Sheet × List Lexeme)}
    (hp : level.passesOver l.token = false) (hc : closesInside level.bracket? l = false)
    (hinner : ∀ rest, rest <:+ ls → inner rest =
      some (Level.block.read false (content (some .curly) rest), ending (some .curly) rest))
    (line : Nat) :
    let item := level.item (content level.bracket? (l :: ls))
    ∃ left, readItem inner level line (head level (l :: ls)) =
        some (.item item.kind line (readBody false item.content) left) ∧
      content level.bracket? left = item.after ∧
      ending level.bracket? left = ending level.bracket? (l :: ls) := by
  intro item
  obtain ⟨hitem, hstart⟩ := item_head hc ls
  obtain ⟨-, hblock⟩ := behind_slice_suffix hp hc ls
  generalize head level (l :: ls) = h at hitem hstart hblock ⊢
  obtain ⟨htext, hends⟩ := slice_run level.bracket? h.stop h.start
  have hi : item = h.item ((content level.bracket? h.start).run h.stop) := hitem
  rw [readItem, ← htext, ← hstart, hi, Head.item]
  obtain ⟨hafter, hend⟩ := hends.behind
  refine ⟨behind (slice level.bracket? h.stop [] h.start).2, ?_, hafter, hend⟩
  have hempty : readBody false .nil = .empty := readBody_nil false
  rcases hends.block? with ⟨hb, hr⟩ | ⟨rest, hb, hr, hl⟩
  · simp only [hb, hr, Option.isSome_none, Option.getD_none, ite_self, hempty]
  · simp only [hb, hr, hl, Option.isSome_some, Option.getD_some]
    cases h.reads with
    | true =>
      rw [if_pos rfl, if_pos rfl, hinner rest (hblock rest hb), Option.map_some, skip_ending,
        Level.read]
    | false => rw [if_neg Bool.false_ne_true, if_neg Bool.false_ne_true, hempty]

/-- Comments in front of an item come first in what is read. -/
theorem read_takeComments (level : Level) (ls : List Lexeme) :
    level.read false (content inside ls) = withComments (takeComments ls).1
        (level.read false (content inside (takeComments ls).2)) ∧
      ending inside (takeComments ls).2 = ending inside ls := by
  fun_induction takeComments ls with
  | case1 text line ls ih =>
    have hc : closesInside inside ⟨.whiteSpace, text, line⟩ = false := closesInside_of_closes? rfl
    rw [(parts_leaf rfl hc ls).1, ending_leaf rfl hc, read_space]
    exact ih
  | case2 comment text line ls ih =>
    have hc : closesInside inside ⟨.comment comment, text, line⟩ = false :=
      closesInside_of_closes? rfl
    rw [(parts_leaf rfl hc ls).1, ending_leaf rfl hc, read_comment, if_neg Bool.false_ne_true, ih.1]
    exact ⟨rfl, ih.2⟩
  | case3 ls => exact ⟨rfl, rfl⟩

theorem opens?_of_passesOver (h : level.passesOver l.token = true) :
    l.token.opens? = none ∧ l.token.closes? = none := by
  cases level <;> cases ht : l.token <;> rw [ht] at h <;> first | exact ⟨rfl, rfl⟩ | cases h

theorem ending_dropWhile (level : Level) (ls : List Lexeme) :
    ending inside (ls.dropWhile (level.passesOver ·.token)) = ending inside ls := by
  induction ls with
  | nil => rfl
  | cons l ls ih =>
    rw [List.dropWhile_cons]
    split
    case isTrue h =>
      obtain ⟨ho, hc⟩ := opens?_of_passesOver h
      rw [ending_leaf ho (closesInside_of_closes? hc), ih]
    case isFalse => rfl

/-- Where comments are stray, all that stands between items is passed over. -/
theorem read_dropWhile (level : Level) (ls : List Lexeme) : level.read true (content inside ls) =
    level.read true (content inside (ls.dropWhile (level.passesOver ·.token))) := by
  induction ls with
  | nil => rfl
  | cons l ls ih =>
    rw [List.dropWhile_cons]
    split
    case isTrue h =>
      obtain ⟨ho, hc⟩ := opens?_of_passesOver h
      rw [(parts_leaf ho (closesInside_of_closes? hc) ls).1, ← ih]
      obtain ⟨token, text, line⟩ := l
      rcases token_cases token with rfl | ⟨comment, rfl⟩ | hg
      · rw [read_space]
      · rw [read_comment, if_pos rfl]
      · rw [read_mark true h hg]
    case isFalse => rfl

theorem isGap_takeComments (h : (takeComments ls).2 = l :: left) : l.token.isGap = false := by
  fun_induction takeComments ls with
  | case1 _ _ ls ih => exact ih h
  | case2 _ _ _ ls ih => exact ih h
  | case3 ls hs hcm =>
    subst h
    obtain ⟨token, text, line⟩ := l
    rcases token_cases token with rfl | ⟨comment, rfl⟩ | hg
    · exact absurd rfl (hs text line left)
    · exact absurd rfl (hcm comment text line left)
    · exact hg

theorem startsItem_content (hp : level.passesOver l.token = false)
    (hc : closesInside inside l = false) (ls : List Lexeme) :
    level.startsItem (content inside (l :: ls)) = true := by
  rcases content_cons hc ls with ⟨hct, -⟩ | ⟨b, -, hct⟩
  · rw [hct, Level.startsItem, hp]
    rfl
  · rw [hct]
    rfl

theorem line_content (hc : closesInside inside l = false) (ls : List Lexeme) :
    (content inside (l :: ls)).line = l.line := by
  rcases content_cons hc ls with ⟨hct, -⟩ | ⟨b, -, hct⟩ <;> rw [hct] <;> rfl

/-- What stands before the next item is passed over, and the comments in it with the rest if one of
them is no gap. -/
theorem exists_read_dropWhile (level : Level) (hg : ∀ l left, ls = l :: left → l.token.isGap = false) :
    ∃ stray, level.read false (content inside ls) =
      level.read stray (content inside (ls.dropWhile (level.passesOver ·.token))) := by
  cases ls with
  | nil => exact ⟨false, rfl⟩
  | cons l ls =>
    cases hp : level.passesOver l.token with
    | false => exact ⟨false, by rw [List.dropWhile_cons_of_neg (by simp [hp])]⟩
    | true =>
      obtain ⟨ho, hc⟩ := opens?_of_passesOver hp
      refine ⟨true, ?_⟩
      rw [(parts_leaf ho (closesInside_of_closes? hc) ls).1, read_mark false hp (hg l ls rfl),
        List.dropWhile_cons_of_pos (by exact hp), read_dropWhile]

/-- A `@charset` that comes first is passed over with what stands behind it. -/
theorem read_charset (stray : Bool) (hl : isCharset l.token = true) (ls : List Lexeme) :
    let left := (behind (slice none nestedStop [] ls).2).dropWhile
      ((Level.sheet true).passesOver ·.token)
    (Level.sheet true).read stray (content none (l :: ls)) =
        (Level.sheet false).read true (content none left) ∧
      ending none left = ending none (l :: ls) := by
  intro left
  obtain ⟨token, text, line⟩ := l
  cases token <;> try cases hl
  rename_i name
  have hct : content none (⟨.atKeyword name, text, line⟩ :: ls) =
      .leaf ⟨.atKeyword name, text, line⟩ (content none ls) :=
    (parts_leaf rfl (closesInside_none _) ls).1
  have hstart : (Level.sheet true).startsItem (content none (⟨.atKeyword name, text, line⟩ :: ls)) =
      true := by
    rw [hct]
    rfl
  obtain ⟨hafter, hend⟩ := (slice_run none nestedStop ls).2.behind
  constructor
  · rw [read_dropped hstart (by rw [hct]; exact hl), hct, Level.item, sheetItem, atRuleItem, ← hafter]
    exact read_dropWhile (.sheet false) _
  · rw [ending_dropWhile, hend, ending_leaf rfl (closesInside_none _)]

/-- Up to the next item nothing is read. Behind a `@charset` that comes first the level is another
one. -/
theorem read_next (level : Level) {ls : List Lexeme}
    (hg : ∀ l left, ls = l :: left → l.token.isGap = false) :
    ∃ level' stray, (level' = level ∨ level' = level.next) ∧
      level'.drops (content level.bracket? (next level ls)) = false ∧
      level.read false (content level.bracket? ls) =
        level'.read stray (content level.bracket? (next level ls)) ∧
      ending level.bracket? (next level ls) = ending level.bracket? ls := by
  obtain ⟨stray, hread⟩ := @exists_read_dropWhile level.bracket? ls level hg
  rw [← ending_dropWhile level ls, hread]
  unfold next
  split
  case h_1 l rest heq =>
    rw [heq]
    split
    case isTrue hcs =>
      obtain ⟨hread, hend⟩ := read_charset stray hcs rest
      exact ⟨.sheet false, true, .inr rfl, rfl, hread, hend⟩
    case isFalse hcs =>
      refine ⟨.sheet true, stray, .inl rfl, ?_, rfl, rfl⟩
      rcases content_cons (closesInside_none l) rest with ⟨hct, -⟩ | ⟨b, -, hct⟩
      · rw [Level.bracket?, hct]
        exact Bool.not_eq_true _ ▸ hcs
      · rw [Level.bracket?, hct]
        rfl
  case h_2 level _ _ hne =>
    refine ⟨level, stray, .inl rfl, ?_, rfl, rfl⟩
    cases level with
    | block => rfl
    | sheet first =>
      cases first with
      | false => rfl
      | true =>
        cases hdrop : ls.dropWhile ((Level.sheet true).passesOver ·.token) with
        | nil =>
          rw [(parts_nil _).1]
          rfl
        | cons l rest => exact (hne l rest rfl hdrop).elim

/-- Behind its first item a level has the same items. -/
theorem same_items {level' : Level} (h : level' = level ∨ level' = level.next) :
    level'.next = level.next ∧ level'.item = level.item ∧
      level'.startsItem = level.startsItem := by
  rcases h with rfl | rfl
  · exact ⟨rfl, rfl, rfl⟩
  · cases level <;> exact ⟨rfl, rfl, rfl⟩

theorem read_nil (level : Level) (stray : Bool) : level.read stray .nil = .empty := by
  cases level with
  | sheet first => rw [Level.read, readSheet]
  | block => exact readBody_nil stray

/-- With more rounds than there are tokens a reader comes to the end of its level, and has read all
that stands before. -/
theorem read_eq {rounds : Nat} (h : ls.length < rounds) : read rounds level ls =
    some (level.read false (content level.bracket? ls), ending level.bracket? ls) := by
  induction rounds generalizing level ls with
  | zero => exact absurd h (Nat.not_lt_zero _)
  | succ rounds ih =>
    obtain ⟨htake, hetake⟩ := @read_takeComments level.bracket? level ls
    obtain ⟨level', stray, hlevel, hdrops, hnext, henext⟩ :=
      read_next level fun l left => @isGap_takeComments l ls left
    obtain ⟨hlater, hitems, hstarts⟩ := same_items hlevel
    rw [htake, hnext, ← hetake, ← henext]
    cases hn : next level (takeComments ls).2 with
    | nil =>
      rw [(parts_nil _).1, read_nil, ending_nil, read, round, hn]
    | cons l rest =>
      cases hc : closesInside level.bracket? l with
      | true =>
        rw [(parts_closing hc rest).1, read_nil, ending_closing hc, read, round, hn]
        simp only [hc, if_true]
      | false =>
        -- The item has a token at least, so the rounds that are left are enough for what its block
        -- holds and for what stands behind it.
        have hsuffix := (next_suffix level (takeComments ls).2).trans (takeComments_suffix ls)
        have hp := passesOver_of_next hn
        rw [hn] at hsuffix hdrops
        have hlen : rest.length < rounds := by
          have := hsuffix.length_le
          rw [List.length_cons] at this
          omega
        obtain ⟨left, hitem, hafter, hend⟩ := readItem_eq hp hc
          (fun inside hs => ih (Nat.lt_of_le_of_lt hs.length_le hlen)) l.line
        have hround : round (read rounds .block) level ls = some (.item
            (level.item (content level.bracket? (l :: rest))).kind l.line
            (readBody false (level.item (content level.bracket? (l :: rest))).content) left) := by
          rw [round, hn, ← hitem]
          simp only [hc, Bool.false_eq_true, if_false]
        obtain ⟨-, hleft⟩ := round_item_suffix (fun _ _ hb => (read_suffix hb).1) hround
        have hstart : level'.startsItem (content level.bracket? (l :: rest)) = true :=
          hstarts ▸ startsItem_content hp hc rest
        have hb : level.next.bracket? = level.bracket? := by cases level <;> rfl
        rw [read, hround, read_item hstart hdrops, hlater, hitems, line_content hc]
        simp only
        rw [ih (by omega), hb, hafter, hend]
        rfl

/-- No round fails to end, and none ends where it started. -/
theorem exists_round {rounds : Nat} (level : Level) (h : ls.length ≤ rounds) :
    ∃ r, round (read rounds .block) level ls = some r ∧ r.MovesOn level ls := by
  cases hr : round (read rounds .block) level ls with
  | none =>
    have hread : read (rounds + 1) level ls = _ := read_eq (Nat.lt_succ_of_le h)
    rw [read, hr] at hread
    cases hread
  | some r =>
    refine ⟨r, rfl, ?_⟩
    cases r with
    | ended left => exact (round_ended hr).symm
    | item kind line content left =>
      exact round_item_suffix (fun _ _ hb => (read_suffix hb).1) hr

theorem lexemes_content (inside : Option Bracket) (ls : List Lexeme) :
    (content inside ls).lexemes ++ ending inside ls = ls := by
  rw [ending, ← List.append_assoc]
  exact lexemes_read inside ls

theorem isEnd_ending (level : Level) (ls : List Lexeme) :
    level.isEnd (ending level.bracket? ls) = true := by
  rcases ending_cases level.bracket? ls with ⟨h, -⟩ | ⟨l, h, hc⟩
  · rw [h]
    rfl
  · rw [h]
    exact hc

theorem ending_none (ls : List Lexeme) : ending none ls = [] := by
  rw [ending, closer, beyond, (closing_read_none ls).1, (closing_read_none ls).2]
  rfl

end Cursor

end ModularScale.Css
