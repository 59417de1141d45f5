import ModularScale.Css.Enclosed
import ModularScale.Css.Numeric
import ModularScale.Text.Casing

/-! # Tokens

Each text is a sequence of tokens. Reading the next one never fails and always moves forward.
-/

namespace ModularScale.Css

inductive Bracket
  | round
  | square
  | curly
deriving DecidableEq, Repr

inductive Token
  | whiteSpace
  | comment (text : List Char)
  | ident (name : List Char)
  | atKeyword (name : List Char)
  | hash (name : List Char) (isIdent : Bool)
  | string (text : List Char)
  | brokenString (text : List Char)
  | address (text : List Char)
  | brokenAddress
  | function (name : List Char)
  | number (x : Numeral)
  | percentage (x : Numeral)
  | dimension (x : Numeral) (unit : List Char)
  | colon
  | semicolon
  | comma
  /-- One of `^=`, `$=`, `*=`, `~=` and `|=`. -/
  | compare (sign : Char)
  /-- The mark `<!--`, which means nothing between rules. -/
  | markOpening
  /-- The mark `-->`, which means nothing between rules. -/
  | markClosing
  | opening (bracket : Bracket)
  | closing (bracket : Bracket)
  | delimiter (c : Char)
deriving DecidableEq, Repr

namespace Token

/-- The bracket that a token opens; a function opens a round one. -/
def opens? : Token → Option Bracket
  | opening b => some b
  | function _ => some .round
  | _ => none

def closes? : Token → Option Bracket
  | closing b => some b
  | _ => none

/-- Whether a token can stand anywhere between two others. -/
def isGap : Token → Bool
  | whiteSpace => true
  | comment _ => true
  | _ => false

end Token

/-- A number with what belongs to it. -/
def numericToken (cs : List Char) : Scan Token :=
  let number := numeral cs
  let rest := cs.drop number.length
  if startsWith (· == '%') rest then ⟨.percentage number.value, number.length + 1⟩
  else if startsName rest then
    let unit := name rest
    ⟨.dimension number.value unit.value, number.length + unit.length⟩
  else ⟨.number number.value, number.length⟩

/-- A name, which is a function if a bracket follows; `url(` starts an address unless its first
character is a quote. -/
def nameToken (cs : List Char) : Scan Token :=
  let name := name cs
  let rest := cs.drop name.length
  if startsWith (· == '(') rest then
    let start := 1 + (rest.tail.takeWhile isSpace).length
    let content := rest.drop start
    if Text.asciiLower name.value = ['u', 'r', 'l'] &&
        !startsWith (fun c => c == '"' || c == '\'') content then
      let address := address content
      ⟨match address.text with | some text => .address text | none => .brokenAddress,
        name.length + start + address.length⟩
    else ⟨.function name.value, name.length + 1⟩
  else ⟨.ident name.value, name.length⟩

/-- The tokens that start with a sign. -/
def signToken (c : Char) (cs : List Char) : Scan Token :=
  if (c = '^' || c = '$' || c = '*' || c = '~' || c = '|') && startsWith (· == '=') cs then
    ⟨.compare c, 2⟩
  else if c = '#' && (startsName cs || startsWith (fun c => c.isDigit || c == '-') cs) then
    let tail := name cs
    ⟨.hash tail.value (startsName cs), 1 + tail.length⟩
  else if c = '@' && startsName cs then
    let tail := name cs
    ⟨.atKeyword tail.value, 1 + tail.length⟩
  else if c = '/' && startsWith (· == '*') cs then
    let tail := comment cs.tail
    ⟨.comment tail.value, 2 + tail.length⟩
  else if c = '<' && cs.take 3 = ['!', '-', '-'] then ⟨.markOpening, 4⟩
  else
    ⟨match c with
      | ':' => .colon
      | ';' => .semicolon
      | ',' => .comma
      | '(' => .opening .round
      | '[' => .opening .square
      | '{' => .opening .curly
      | ')' => .closing .round
      | ']' => .closing .square
      | '}' => .closing .curly
      | c => .delimiter c, 1⟩

/-- The token at the start of the text `c :: cs`. -/
def nextToken (c : Char) (cs : List Char) : Scan Token :=
  if isSpace c then ⟨.whiteSpace, 1 + (cs.takeWhile isSpace).length⟩
  else if c = '"' || c = '\'' then
    let q := quoted c cs
    ⟨if q.closed then .string q.text else .brokenString q.text, 1 + q.length⟩
  else if startsNumber (c :: cs) then numericToken (c :: cs)
  else if c = '-' && cs.take 2 = ['-', '>'] then ⟨.markClosing, 3⟩
  else if startsName (c :: cs) then nameToken (c :: cs)
  else signToken c cs

/-- A token with the text it was read from and the line on which this starts. -/
structure Lexeme where
  token : Token
  text : List Char
  line : Nat
deriving DecidableEq, Repr

/-- The tokens of a text whose first line has the given number. Each takes the first character at
least. -/
def lexemes (line : Nat) : List Char → List Lexeme
  | [] => []
  | c :: cs =>
    let next := nextToken c cs
    let text := c :: cs.take (next.length - 1)
    ⟨next.value, text, line⟩ :: lexemes (line + newlines text) (cs.drop (next.length - 1))
termination_by cs => cs.length
decreasing_by simp only [List.length_cons, List.length_drop]; omega

/-- No character is lost: the texts of the tokens make up the whole text. -/
theorem flatMap_text_lexemes (line : Nat) (cs : List Char) :
    (lexemes line cs).flatMap Lexeme.text = cs := by
  fun_induction lexemes line cs with
  | case1 => rfl
  | case2 line c cs next text ih =>
    simp only [List.flatMap_cons, ih, text, List.cons_append, List.take_append_drop]

end ModularScale.Css
