/-! # Control sequences

A terminal takes some sequences of characters as commands. What is left of a text without them is
what it shows.
-/

namespace ModularScale.Text

/-- The sequence that a terminal is in the midst of. -/
inductive ControlState
  /-- None. -/
  | ground
  /-- An escape character alone. -/
  | escape
  /-- An escape sequence of more than one character. -/
  | intermediate
  /-- A control sequence proper. -/
  | control
  /-- A command to the operating system, which a bell ends. -/
  | system
  /-- A device control string before its data. -/
  | device
  | deviceParameter
  | deviceIntermediate
  /-- The data of a control string, which the byte 9C ends. -/
  | data
deriving DecidableEq, Repr

namespace ControlState

/-- The state behind a character. Escape starts a new sequence in every state, and cancel and
substitute end the one that is open. -/
def next (s : ControlState) (c : Char) : ControlState :=
  let within (a b : Char) : Bool := a ≤ c && c ≤ b
  if c = '\x1b' then .escape
  else if c = '\x18' || c = '\x1a' then .ground
  else match s with
    | .ground => .ground
    | .escape =>
      if within ' ' '/' then .intermediate
      else if c = '[' then .control
      else if c = ']' then .system
      else if c = 'P' then .device
      else if c = 'X' || c = '^' || c = '_' then .data
      else if within '0' '~' then .ground
      else s
    | .intermediate => if within '0' '~' then .ground else s
    | .control => if within '@' '~' then .ground else s
    | .system => if c = '\x07' then .ground else s
    | .device =>
      if within ' ' '/' then .deviceIntermediate
      else if within '0' '?' then .deviceParameter
      else if within '@' '~' then .data
      else s
    | .deviceParameter =>
      if within ' ' '/' then .deviceIntermediate
      else if within '<' '~' then .data
      else s
    | .deviceIntermediate => if within '0' '~' then .data else s
    | .data => if (String.utf8EncodeChar c).contains 0x9C then .ground else s

/-- Whether a terminal moves on for the white space in this sequence. -/
def heedsSpacing : ControlState → Bool
  | ground | escape | intermediate | control => true
  | system | device | deviceParameter | deviceIntermediate | data => false

end ControlState

/-- Control characters that are white space. -/
def isSpacing (c : Char) : Bool :=
  c = '\t' || c = '\n' || c = '\x0c' || c = '\r'

/-- Characters that a terminal shows outside of all sequences. -/
def isShown (c : Char) : Bool :=
  isSpacing c || (' ' ≤ c && c ≠ '\x7f')

/-- What a terminal shows of a text. White space within a sequence suspends it up to the next
character that is not shown, and a character outside ASCII that is shown then ends it. -/
def shownFrom (s : ControlState) (suspended : Bool) : List Char → List Char
  | [] => []
  | c :: cs =>
    if (suspended || s = .ground) && isShown c then
      c :: shownFrom (if c.toNat < 0x80 then s else .ground) suspended cs
    else if s.heedsSpacing && isSpacing c then
      c :: shownFrom s true cs
    else
      shownFrom (s.next c) false cs

/-- A text without the sequences that control a terminal. -/
def shown (cs : List Char) : List Char :=
  shownFrom .ground false cs

end ModularScale.Text
