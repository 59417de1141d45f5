import ModularScale.Proofs.Css.Slices

/-! # A reader that moves through the tokens

The items of a level are read in rounds, each from the place where the one before left off. Inside a
round the reader may go back to the start of an item that turned out to be no declaration, and the
items of a block are read by further rounds. No round ends where it started.
-/

namespace ModularScale.Css

open Components

/-- Each token takes a character at least. -/
theorem text_ne_nil_of_mem_lexemes {line : Nat} {cs : List Char} {l : Lexeme}
    (h : l ∈ lexemes line cs) : l.text ≠ [] := by
  fun_induction lexemes line cs with
  | case1 => cases h
  | case2 line c cs next text ih =>
    rcases List.mem_cons.mp h with rfl | h
    · exact List.cons_ne_nil _ _
    · exact ih h

/-- The bracket around the items of a level. -/
def Level.bracket? : Level → Option Bracket
  | sheet _ => none
  | block => some .curly

/-- Whether the items of a level end before these tokens. -/
def Level.isEnd (level : Level) : List Lexeme → Bool
  | [] => true
  | l :: _ => closesInside level.bracket? l

namespace Cursor

/-! ### Parts of a round -/

/-- The open brackets behind a token, the innermost first. -/
def turn (l : Lexeme) (opened : List Bracket) : List Bracket :=
  match l.token.opens? with
  | some b => b :: opened
  | none => if closesInside opened.head? l then opened.tail else opened

/-- The tokens behind all open brackets. -/
def skip : List Bracket → List Lexeme → List Lexeme
  | [], ls => ls
  | _ :: _, [] => []
  | b :: bs, l :: ls => skip (turn l (b :: bs)) ls

/-- Whether a slice ends before a token with no open bracket around it. -/
def endsSlice (inside : Option Bracket) (stop : Stop) (l : Lexeme) : Bool :=
  closesInside inside l || (stop.semicolon && l.token = .semicolon) ||
    (stop.curly && l.token.opens? = some .curly)

/-- The tokens of a slice and those behind it, given the brackets that are open in it. -/
def slice (inside : Option Bracket) (stop : Stop) :
    List Bracket → List Lexeme → List Lexeme × List Lexeme
  | _, [] => ([], [])
  | opened, l :: ls =>
    if opened.isEmpty && endsSlice inside stop l then ([], l :: ls)
    else
      let tail := slice inside stop (turn l opened) ls
      (l :: tail.1, tail.2)

/-- The comments with their lines before the next token that is no gap, and the tokens from this
one on. -/
def takeComments : List Lexeme → List (List Char × Nat) × List Lexeme
  | ⟨.whiteSpace, _, _⟩ :: ls => takeComments ls
  | ⟨.comment text, _, line⟩ :: ls => ((text, line) :: (takeComments ls).1, (takeComments ls).2)
  | ls => ([], ls)

/-- The tokens behind a colon, if this is the next token that is no gap. -/
def expectColon? : List Lexeme → Option (List Lexeme)
  | [] => none
  | l :: ls =>
    if l.token.isGap then expectColon? ls
    else if l.token = .colon then some ls
    else none

/-- The tokens of the block that starts here, if one does. -/
def block? : List Lexeme → Option (List Lexeme)
  | [] => none
  | l :: ls => if l.token.opens? = some .curly then some ls else none

/-- The tokens behind the mark at which a slice ends: a `;` or a block. -/
def behind : List Lexeme → List Lexeme
  | [] => []
  | l :: ls =>
    if l.token.opens? = some .curly then skip [.curly] ls
    else if l.token = .semicolon then ls
    else l :: ls

/-- What is known of an item before its slice is read: where the slice starts, at which marks it
ends, what the item is by its text and by whether a block follows, and whether this is read. -/
structure Head where
  start : List Lexeme
  stop : Stop
  kind : List Char → Bool → Option Kind
  reads : Bool

def ruleHead (stop : Stop) (ls : List Lexeme) : Head :=
  ⟨ls, stop, fun text hasBlock => if hasBlock then some (rule text) else none, true⟩

def atRuleHead (name : List Char) (ls : List Lexeme) : Head :=
  ⟨ls, nestedStop, fun text hasBlock => some (atRule name text hasBlock), true⟩

def declarationHead (name : List Char) (ls : List Lexeme) : Head :=
  ⟨ls, valueStop, fun text _ => some (declaration name text), false⟩

def customHead (ls : List Lexeme) : Head :=
  ⟨ls, ruleStop, fun _ _ => none, false⟩

/-- The head of an item. What starts with a name but is no declaration is read again from there. -/
def head (level : Level) : List Lexeme → Head
  | ⟨.atKeyword name, _, _⟩ :: ls => atRuleHead name ls
  | ⟨.ident name, text, line⟩ :: ls =>
    match level, expectColon? ls with
    | .block, some value => declarationHead name value
    | .sheet _, some _ =>
      if isCustom name then customHead (⟨.ident name, text, line⟩ :: ls)
      else ruleHead ruleStop (⟨.ident name, text, line⟩ :: ls)
    | level, none => ruleHead level.stop (⟨.ident name, text, line⟩ :: ls)
  | ls => ruleHead level.stop ls

/-- The tokens of the next item. What stands between items is passed over, and so is a `@charset`
that comes first. -/
def next (level : Level) (ls : List Lexeme) : List Lexeme :=
  match level, ls.dropWhile (level.passesOver ·.token) with
  | .sheet true, l :: ls =>
    if isCharset l.token then
      (behind (slice none nestedStop [] ls).2).dropWhile (level.passesOver ·.token)
    else l :: ls
  | _, ls => ls

/-! ### Rounds -/

/-- What a round comes to: the end of its level, or an item and the tokens behind it. -/
inductive Round
  | ended (left : List Lexeme)
  | item (kind : Option Kind) (line : Nat) (content : Sheet) (left : List Lexeme)

/-- Reads an item, given a reader for what its block holds. -/
def readItem (inner : List Lexeme → Option (Sheet × List Lexeme)) (level : Level) (line : Nat)
    (h : Head) : Option Round :=
  let cut := slice level.bracket? h.stop [] h.start
  let text := cut.1.flatMap Lexeme.text
  match block? cut.2 with
  | none => some (.item (h.kind text false) line .empty (behind cut.2))
  | some ls =>
    if h.reads then
      (inner ls).map fun body => .item (h.kind text true) line body.1 (skip [.curly] body.2)
    else some (.item (h.kind text true) line .empty (behind cut.2))

def round (inner : List Lexeme → Option (Sheet × List Lexeme)) (level : Level)
    (ls : List Lexeme) : Option Round :=
  match next level (takeComments ls).2 with
  | [] => some (.ended [])
  | l :: ls =>
    if closesInside level.bracket? l then some (.ended (l :: ls))
    else readItem inner level l.line (head level (l :: ls))

def withComments (comments : List (List Char × Nat)) (sheet : Sheet) : Sheet :=
  comments.foldr
    (fun comment rest => .cons (.comment (String.ofList comment.1)) comment.2 .empty rest) sheet

/-- Reads the items of a level, and gives up when the rounds run out. The rounds of its blocks are
as many as are left. -/
def read : Nat → Level → List Lexeme → Option (Sheet × List Lexeme)
  | 0, _, _ => none
  | rounds + 1, level, ls =>
    match round (read rounds .block) level ls with
    | none => none
    | some (.ended left) => some (withComments (takeComments ls).1 .empty, left)
    | some (.item kind line content left) =>
      (read rounds level.next left).map fun rest =>
        (withComments (takeComments ls).1 (.consItem kind line content rest.1), rest.2)

/-- What a round may come to: the end of its level, or a place further on. -/
def Round.MovesOn (level : Level) (ls : List Lexeme) : Round → Prop
  | ended left => left <:+ ls ∧ level.isEnd left = true
  | item _ _ _ left => left <:+ ls ∧ left.length < ls.length

/-! ### Each round moves on -/

variable {inner : List Lexeme → Option (Sheet × List Lexeme)} {level : Level} {l : Lexeme}
  {ls left : List Lexeme}

theorem skip_suffix (opened : List Bracket) (ls : List Lexeme) : skip opened ls <:+ ls := by
  induction ls generalizing opened with
  | nil => cases opened <;> exact List.suffix_rfl
  | cons l ls ih =>
    cases opened with
    | nil => exact List.suffix_rfl
    | cons b bs => exact (ih _).trans (List.suffix_cons _ _)

theorem slice_suffix (inside : Option Bracket) (stop : Stop) (opened : List Bracket)
    (ls : List Lexeme) : (slice inside stop opened ls).2 <:+ ls := by
  induction ls generalizing opened with
  | nil => exact List.suffix_rfl
  | cons l ls ih =>
    unfold slice
    split
    · exact List.suffix_rfl
    · exact (ih _).trans (List.suffix_cons _ _)

theorem takeComments_suffix (ls : List Lexeme) : (takeComments ls).2 <:+ ls := by
  fun_induction takeComments ls with
  | case1 _ _ ls ih => exact ih.trans (List.suffix_cons _ _)
  | case2 _ _ _ ls ih => exact ih.trans (List.suffix_cons _ _)
  | case3 => exact List.suffix_rfl

theorem expectColon?_suffix (h : expectColon? ls = some left) : left <:+ ls := by
  induction ls with
  | nil => cases h
  | cons l ls ih =>
    unfold expectColon? at h
    split at h
    · exact (ih h).trans (List.suffix_cons _ _)
    · split at h
      · cases h
        exact List.suffix_cons _ _
      · cases h

theorem block?_suffix (h : block? ls = some left) : ∃ l, l :: left = ls := by
  cases ls with
  | nil => cases h
  | cons l ls =>
    rw [block?, Option.ite_none_right_eq_some, Option.some.injEq] at h
    exact ⟨l, h.2 ▸ rfl⟩

theorem behind_suffix (ls : List Lexeme) : behind ls <:+ ls := by
  cases ls with
  | nil => exact List.suffix_rfl
  | cons l ls =>
    rw [behind]
    split
    · exact (skip_suffix _ _).trans (List.suffix_cons _ _)
    · split
      · exact List.suffix_cons _ _
      · exact List.suffix_rfl

theorem next_suffix (level : Level) (ls : List Lexeme) : next level ls <:+ ls := by
  have hdrop : ∀ ls : List Lexeme, ls.dropWhile (level.passesOver ·.token) <:+ ls :=
    fun ls => List.dropWhile_suffix _
  unfold next
  split
  case h_1 l ls' heq =>
    have htail : ls' <:+ ls := (List.suffix_cons _ _).trans (heq ▸ hdrop ls)
    split
    · exact ((hdrop _).trans (behind_suffix _)).trans ((slice_suffix _ _ _ _).trans htail)
    · exact heq ▸ hdrop ls
  case h_2 => exact hdrop ls

theorem passesOver_of_dropWhile (h : ls.dropWhile (level.passesOver ·.token) = l :: left) :
    level.passesOver l.token = false := by
  have hhead := List.head?_dropWhile_not (fun l : Lexeme => level.passesOver l.token) ls
  rw [h] at hhead
  simpa using hhead

/-- What comes next is not passed over. -/
theorem passesOver_of_next (h : next level ls = l :: left) : level.passesOver l.token = false := by
  unfold next at h
  split at h
  case h_1 heq =>
    split at h
    · exact passesOver_of_dropWhile h
    · exact passesOver_of_dropWhile (heq.trans h)
  case h_2 => exact passesOver_of_dropWhile h

/-- The slice of an item starts behind its first token, or with it again. -/
theorem start_head (level : Level) (l : Lexeme) (ls : List Lexeme) :
    (head level (l :: ls)).start <:+ ls ∨
      (head level (l :: ls)).start = l :: ls ∧
        ((head level (l :: ls)).stop.semicolon = true → level = .block) := by
  have hrule : ∀ level : Level, level.stop.semicolon = true → level = .block := by
    intro level
    cases level with
    | sheet first => nofun
    | block => exact fun _ => rfl
  obtain ⟨token, text, line⟩ := l
  cases token with
  | atKeyword name => exact .inl List.suffix_rfl
  | ident name =>
    simp only [head]
    split
    case h_1 hv => exact .inl (expectColon?_suffix hv)
    case h_2 =>
      split
      · exact .inr ⟨rfl, nofun⟩
      · exact .inr ⟨rfl, nofun⟩
    case h_3 => exact .inr ⟨rfl, hrule _⟩
  | _ => exact .inr ⟨rfl, hrule level⟩

/-- What is left of an item lies behind its first token, whether or not this was read again. -/
theorem behind_slice_suffix (hp : level.passesOver l.token = false)
    (he : closesInside level.bracket? l = false) (ls : List Lexeme) :
    let cut := slice level.bracket? (head level (l :: ls)).stop [] (head level (l :: ls)).start
    behind cut.2 <:+ ls ∧ ∀ left, block? cut.2 = some left → left <:+ ls := by
  intro cut
  suffices h : cut.2 <:+ ls ∨ cut.2 = l :: ls ∧ l.token.opens? = some .curly by
    rcases h with h | ⟨h, ho⟩
    · refine ⟨(behind_suffix _).trans h, fun left hl => ?_⟩
      obtain ⟨m, hm⟩ := block?_suffix hl
      exact (List.suffix_cons m left).trans (hm ▸ h)
    · rw [h, behind, block?, if_pos ho, if_pos ho]
      refine ⟨skip_suffix _ _, fun left hl => ?_⟩
      cases hl
      exact List.suffix_rfl
  rcases start_head level l ls with h | ⟨h, hstop⟩
  · exact .inl ((slice_suffix _ _ _ _).trans h)
  · have hcut : cut = slice level.bracket? (head level (l :: ls)).stop [] (l :: ls) :=
      congrArg (slice level.bracket? (head level (l :: ls)).stop []) h
    rw [hcut, slice]
    split
    case isTrue hends =>
      refine .inr ⟨rfl, ?_⟩
      simp only [List.isEmpty_nil, Bool.true_and, endsSlice, he, Bool.false_or, Bool.or_eq_true,
        Bool.and_eq_true, decide_eq_true_eq] at hends
      refine hends.resolve_left ?_ |>.2
      -- A `;` stands between the items of a block, so none of them starts with it.
      rintro ⟨hsemi, ht⟩
      rw [hstop hsemi, Level.passesOver, ht] at hp
      cases hp
    case isFalse => exact .inl (slice_suffix _ _ _ _)

/-- A round that comes to an item leaves fewer tokens than there were, if a reader of blocks leaves
no more. -/
theorem round_item_suffix (hinner : ∀ ls body, inner ls = some body → body.2 <:+ ls)
    {kind : Option Kind} {line : Nat} {content : Sheet}
    (h : round inner level ls = some (.item kind line content left)) :
    left <:+ ls ∧ left.length < ls.length := by
  unfold round at h
  have hnext := (next_suffix level (takeComments ls).2).trans (takeComments_suffix ls)
  split at h
  case h_1 => cases h
  case h_2 l rest heq =>
    split at h
    case isTrue => cases h
    case isFalse hend =>
      rw [Bool.not_eq_true] at hend
      obtain ⟨hbehind, hblock⟩ := behind_slice_suffix (passesOver_of_next heq) hend rest
      rw [heq] at hnext
      suffices hleft : left <:+ rest from
        ⟨(hleft.trans (List.suffix_cons l rest)).trans hnext,
          Nat.lt_of_lt_of_le (Nat.lt_succ_of_le hleft.length_le) hnext.length_le⟩
      unfold readItem at h
      dsimp only at h
      split at h
      case h_1 => cases h; exact hbehind
      case h_2 inside hb =>
        split at h
        case isTrue =>
          obtain ⟨body, hbody, heq⟩ := Option.map_eq_some_iff.mp h
          cases heq
          exact ((skip_suffix _ _).trans (hinner _ _ hbody)).trans (hblock _ hb)
        case isFalse => cases h; exact hbehind

/-- A round that comes to no item is at the end of its level. -/
theorem round_ended (h : round inner level ls = some (.ended left)) :
    level.isEnd left = true ∧ left <:+ ls := by
  unfold round at h
  have hnext := (next_suffix level (takeComments ls).2).trans (takeComments_suffix ls)
  split at h
  case h_1 =>
    cases h
    exact ⟨rfl, List.nil_suffix⟩
  case h_2 heq =>
    split at h
    case isTrue hend =>
      cases h
      exact ⟨hend, heq ▸ hnext⟩
    case isFalse =>
      unfold readItem at h
      dsimp only at h
      split at h
      · cases h
      · split at h
        · obtain ⟨_, -, heq⟩ := Option.map_eq_some_iff.mp h
          cases heq
        · cases h

/-- A reader leaves the end of its tokens, from the end of its level on. -/
theorem read_suffix {rounds : Nat} {result : Sheet × List Lexeme}
    (h : read rounds level ls = some result) :
    result.2 <:+ ls ∧ level.isEnd result.2 = true := by
  induction rounds generalizing level ls result with
  | zero => cases h
  | succ rounds ih =>
    unfold read at h
    split at h
    case h_1 => cases h
    case h_2 hr =>
      cases h
      obtain ⟨hend, hleft⟩ := round_ended hr
      exact ⟨hleft, hend⟩
    case h_3 hr =>
      obtain ⟨rest, hrest, heq⟩ := Option.map_eq_some_iff.mp h
      cases heq
      obtain ⟨hleft, -⟩ := round_item_suffix (fun _ _ hb => (ih hb).1) hr
      obtain ⟨hsuffix, hend⟩ := ih hrest
      refine ⟨hsuffix.trans hleft, ?_⟩
      cases level <;> exact hend

end Cursor

end ModularScale.Css
