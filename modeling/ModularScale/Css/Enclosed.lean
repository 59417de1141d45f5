import ModularScale.Css.Name

/-! # Comments, strings and addresses

The tokens that run up to a closing mark. The end of the text closes each of them too.
-/

namespace ModularScale.Css

/-- A comment behind its opening mark, up to its closing mark. -/
def comment : List Char → Scan (List Char)
  | [] => ⟨[], 0⟩
  | '*' :: '/' :: _ => ⟨[], 2⟩
  | c :: cs => (comment cs).cons c 1

/-- A string as it was read: its text, whether it ended as it should, and how many characters it
took. -/
structure Quoted where
  text : List Char
  closed : Bool
  length : Nat

def Quoted.cons (c : Char) (taken : Nat) (q : Quoted) : Quoted :=
  { q with text := c :: q.text, length := taken + q.length }

def Quoted.skip (taken : Nat) (q : Quoted) : Quoted :=
  { q with length := taken + q.length }

/-- A string behind its opening quote. A line break that is not escaped breaks it off. -/
def quoted (quote : Char) : List Char → Quoted
  | [] => ⟨[], true, 0⟩
  | c :: cs =>
    if c = quote then ⟨[], true, 1⟩
    else if isNewline c then ⟨[], false, 0⟩
    else if c = '\\' then
      if startsWith isNewline cs then
        (quoted quote (cs.drop (spaceLength cs))).skip (1 + spaceLength cs)
      else if cs.isEmpty then ⟨[], true, 1⟩
      else
        let escaped := escape cs
        (quoted quote (cs.drop escaped.length)).cons escaped.value (1 + escaped.length)
    else (quoted quote cs).cons (replaceNul c) 1
termination_by cs => cs.length
decreasing_by all_goals simp only [List.length_cons, List.length_drop]; omega

/-- How many characters a malformed address takes up to its closing parenthesis. -/
def brokenLength : List Char → Nat
  | [] => 0
  | ')' :: _ => 1
  | '\\' :: ')' :: cs => 2 + brokenLength cs
  | '\\' :: '\\' :: cs => 2 + brokenLength cs
  | _ :: cs => 1 + brokenLength cs

/-- Characters that may not stand in an address without an escape. -/
def isAddressBreaker (c : Char) : Bool :=
  let n := c.toNat
  c == '"' || c == '\'' || c == '(' || (1 ≤ n && n ≤ 8) || n == 0x0B || (0x0E ≤ n && n ≤ 0x1F) ||
    n == 0x7F

/-- An address as it was read: its text unless it is malformed, and how many characters it took. -/
structure Address where
  text : Option (List Char)
  length : Nat

def Address.cons (c : Char) (taken : Nat) (a : Address) : Address :=
  { text := a.text.map (c :: ·), length := taken + a.length }

/-- A malformed address that took some characters before it broke. -/
def Address.broken (taken : Nat) (rest : List Char) : Address :=
  ⟨none, taken + brokenLength rest⟩

/-- The end of an address from its first space on: only the closing parenthesis may follow. -/
def addressEnd (cs : List Char) : Address :=
  let spaces := (cs.takeWhile isSpace).length
  match cs.drop spaces with
  | [] => ⟨some [], spaces⟩
  | c :: cs => if c = ')' then ⟨some [], spaces + 1⟩ else .broken (spaces + 1) cs

/-- An address without quotes, from its first character on. -/
def address : List Char → Address
  | [] => ⟨some [], 0⟩
  | c :: cs =>
    if c = ')' then ⟨some [], 1⟩
    else if isSpace c then addressEnd (c :: cs)
    else if isAddressBreaker c then .broken 1 cs
    else if c = '\\' then
      if startsWith isNewline cs then .broken 1 cs
      else
        let escaped := escape cs
        (address (cs.drop escaped.length)).cons escaped.value (1 + escaped.length)
    else (address cs).cons (replaceNul c) 1
termination_by cs => cs.length
decreasing_by all_goals simp only [List.length_cons, List.length_drop]; omega

end ModularScale.Css
