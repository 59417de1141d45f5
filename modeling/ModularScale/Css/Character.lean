/-! # Characters of style sheets

The classes of characters that tokens are made of, and the count of line breaks.
-/

namespace ModularScale.Css

def isNewline (c : Char) : Bool :=
  c == '\n' || c == '\r' || c == '\x0c'

def isSpace (c : Char) : Bool :=
  c == ' ' || c == '\t' || isNewline c

def isHexDigit (c : Char) : Bool :=
  c.isDigit || ('a' ≤ c && c ≤ 'f') || ('A' ≤ c && c ≤ 'F')

/-- Characters that start a name. NUL does, since it stands for the replacement character. -/
def isNameStart (c : Char) : Bool :=
  c.isAlpha || c == '_' || c == '\x00' || 128 ≤ c.toNat

def isNameChar (c : Char) : Bool :=
  isNameStart c || c.isDigit || c == '-'

def startsWith (p : Char → Bool) : List Char → Bool
  | [] => false
  | c :: _ => p c

theorem takeWhile_append_stop {p : Char → Bool} {rest : List Char}
    (h : startsWith p rest = false) (cs : List Char) :
    (cs ++ rest).takeWhile p = cs.takeWhile p := by
  induction cs with
  | nil =>
    cases rest with
    | nil => rfl
    | cons c rest => exact List.takeWhile_cons_of_neg (Bool.not_eq_true _ ▸ h)
  | cons c cs ih => rw [List.cons_append, List.takeWhile_cons, List.takeWhile_cons, ih]

/-- A run of characters ends before what does not go on with it. -/
theorem span_append {p : Char → Bool} {cs rest : List Char} (h : ∀ c ∈ cs, p c = true)
    (hr : startsWith p rest = false) :
    (cs ++ rest).takeWhile p = cs ∧ (cs ++ rest).dropWhile p = rest := by
  rw [List.takeWhile_append_of_pos h, List.dropWhile_append_of_pos h]
  cases rest with
  | nil => exact ⟨List.append_nil cs, rfl⟩
  | cons c rest =>
    have hc : ¬p c = true := Bool.not_eq_true _ ▸ hr
    rw [List.takeWhile_cons_of_neg hc, List.dropWhile_cons_of_neg hc, List.append_nil]
    exact ⟨rfl, rfl⟩

def replacement : Char := '\uFFFD'

/-- The character that a NUL or an ordinary character stands for. -/
def replaceNul (c : Char) : Char :=
  if c = '\x00' then replacement else c

/-- How many lines a text ends, where a return and a line feed together end one. -/
def newlines : List Char → Nat
  | [] => 0
  | '\r' :: '\n' :: cs => newlines cs + 1
  | c :: cs => if isNewline c then newlines cs + 1 else newlines cs

/-- How many characters a single space or line break takes at the start of a text. -/
def spaceLength : List Char → Nat
  | '\r' :: '\n' :: _ => 2
  | c :: _ => if isSpace c then 1 else 0
  | [] => 0

/-- What was read at the start of a text, and how many characters it took. -/
structure Scan (α : Type) where
  value : α
  length : Nat
deriving DecidableEq, Repr

/-- Puts a character in front that took some characters itself. -/
def Scan.cons (c : Char) (taken : Nat) (tail : Scan (List Char)) : Scan (List Char) :=
  ⟨c :: tail.value, taken + tail.length⟩

end ModularScale.Css
