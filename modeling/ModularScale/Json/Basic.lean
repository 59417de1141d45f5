/-! # JSON

A JSON value keeps its numbers and strings as they are written, so that any of them can be held
and printed; what a literal stands for is found where it is needed.
-/

namespace ModularScale

inductive Json
  | null
  | bool (b : Bool)
  | number (literal : List Char)
  | string (literal : List Char)
  | array (items : List Json)
  | object (fields : List (List Char × Json))

namespace Json

def hexDigit (n : Nat) : Char :=
  Nat.digitChar n

/-- The written form of a character inside a string. -/
def escapeChar (c : Char) : List Char :=
  if c = '"' || c = '\\' then ['\\', c]
  else if c = '\x08' then ['\\', 'b']
  else if c = '\x0c' then ['\\', 'f']
  else if c = '\n' then ['\\', 'n']
  else if c = '\r' then ['\\', 'r']
  else if c = '\t' then ['\\', 't']
  else if c.toNat < 0x20 then
    ['\\', 'u', '0', '0', hexDigit (c.toNat / 16), hexDigit (c.toNat % 16)]
  else [c]

def escape (text : List Char) : List Char :=
  text.flatMap escapeChar

def ofText (text : String) : Json :=
  string (escape text.toList)

def ofNat (n : Nat) : Json :=
  number (Nat.toDigits 10 n)

/-- An object whose names need no escapes. -/
def record (fields : List (String × Json)) : Json :=
  object (fields.map fun field => (field.1.toList, field.2))

def quote (literal : List Char) : List Char :=
  '"' :: literal ++ ['"']

mutual

/-- The value on one line, without spaces. -/
def compact : Json → List Char
  | null => "null".toList
  | bool true => "true".toList
  | bool false => "false".toList
  | number literal => literal
  | string literal => quote literal
  | array items => '[' :: compactItems items
  | object fields => '{' :: compactFields fields

def compactItems : List Json → List Char
  | [] => [']']
  | [item] => item.compact ++ [']']
  | item :: items => item.compact ++ ',' :: compactItems items

def compactFields : List (List Char × Json) → List Char
  | [] => ['}']
  | [(name, value)] => quote name ++ ':' :: value.compact ++ ['}']
  | (name, value) :: fields => quote name ++ ':' :: value.compact ++ ',' :: compactFields fields

end

/-- The start of a line at some depth. -/
def newline (depth : Nat) : List Char :=
  '\n' :: List.replicate (2 * depth) ' '

mutual

/-- The value with each item and each field on a line of its own. -/
def pretty (depth : Nat) : Json → List Char
  | array (item :: items) =>
    '[' :: prettyItems (depth + 1) (item :: items) ++ newline depth ++ [']']
  | object (field :: fields) =>
    '{' :: prettyFields (depth + 1) (field :: fields) ++ newline depth ++ ['}']
  | value => value.compact

def prettyItems (depth : Nat) : List Json → List Char
  | [] => []
  | [item] => newline depth ++ item.pretty depth
  | item :: items => newline depth ++ item.pretty depth ++ ',' :: prettyItems depth items

def prettyFields (depth : Nat) : List (List Char × Json) → List Char
  | [] => []
  | [(name, value)] => newline depth ++ quote name ++ ':' :: ' ' :: value.pretty depth
  | (name, value) :: fields =>
    newline depth ++ quote name ++ ':' :: ' ' :: value.pretty depth ++
      ',' :: prettyFields depth fields

end

end Json

end ModularScale
