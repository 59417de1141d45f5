import ModularScale.Css.Name
import ModularScale.Json.Basic

/-! # Reading JSON

A text is one value with white space around its parts. Numbers and strings are taken as written if
they have the right form.
-/

namespace ModularScale.Json

def isSpace (c : Char) : Bool :=
  c == ' ' || c == '\n' || c == '\t' || c == '\r'

def dropSpaces (cs : List Char) : List Char :=
  cs.dropWhile isSpace

/-- Escapes of one character behind the backslash. -/
def isShortEscape (c : Char) : Bool :=
  c == '"' || c == '\\' || c == '/' || c == 'b' || c == 'f' || c == 'n' || c == 'r' || c == 't'

/-- The literal of a string behind its opening quote, and what follows its closing quote. -/
def stringLiteral? : List Char → Option (List Char × List Char)
  | [] => none
  | '"' :: cs => some ([], cs)
  | '\\' :: 'u' :: a :: b :: c :: d :: cs =>
    if [a, b, c, d].all Css.isHexDigit then
      (stringLiteral? cs).map fun tail => ('\\' :: 'u' :: a :: b :: c :: d :: tail.1, tail.2)
    else none
  | '\\' :: c :: cs =>
    if isShortEscape c then (stringLiteral? cs).map fun tail => ('\\' :: c :: tail.1, tail.2)
    else none
  | c :: cs =>
    if c.toNat < 0x20 then none else (stringLiteral? cs).map fun tail => (c :: tail.1, tail.2)

/-- A mark with the digits that follow it, if there are any. -/
def digitsAfter (mark : List Char) (cs : List Char) : List Char × List Char :=
  if Css.startsWith Char.isDigit cs then
    (mark ++ cs.takeWhile Char.isDigit, cs.dropWhile Char.isDigit)
  else ([], mark ++ cs)

def fractionLiteral : List Char → List Char × List Char
  | '.' :: cs => digitsAfter ['.'] cs
  | cs => ([], cs)

def exponentLiteral : List Char → List Char × List Char
  | [] => ([], [])
  | e :: cs =>
    if e = 'e' || e = 'E' then
      match cs with
      | [] => ([], [e])
      | s :: cs => if s = '+' || s = '-' then digitsAfter [e, s] cs else digitsAfter [e] (s :: cs)
    else ([], e :: cs)

/-- The digits of a whole number, where a zero stands alone. -/
def wholeLiteral : List Char → List Char × List Char
  | '0' :: cs => (['0'], cs)
  | cs => (cs.takeWhile Char.isDigit, cs.dropWhile Char.isDigit)

def numberLiteral? (cs : List Char) : Option (List Char × List Char) :=
  let sign := cs.takeWhile (· == '-') |>.take 1
  let whole := wholeLiteral (cs.drop sign.length)
  let fraction := fractionLiteral whole.2
  let exponent := exponentLiteral fraction.2
  if whole.1.isEmpty then none
  else some (sign ++ whole.1 ++ fraction.1 ++ exponent.1, exponent.2)

mutual

/-- Reads a value, nested no deeper than the fuel allows. -/
def value? : Nat → List Char → Option (Json × List Char)
  | 0, _ => none
  | fuel + 1, cs =>
    match dropSpaces cs with
    | 'n' :: 'u' :: 'l' :: 'l' :: cs => some (null, cs)
    | 't' :: 'r' :: 'u' :: 'e' :: cs => some (bool true, cs)
    | 'f' :: 'a' :: 'l' :: 's' :: 'e' :: cs => some (bool false, cs)
    | '"' :: cs => (stringLiteral? cs).map fun tail => (string tail.1, tail.2)
    | '[' :: cs =>
      match dropSpaces cs with
      | ']' :: cs => some (array [], cs)
      | cs => (items? fuel cs).map fun tail => (array tail.1, tail.2)
    | '{' :: cs =>
      match dropSpaces cs with
      | '}' :: cs => some (object [], cs)
      | cs => (fields? fuel cs).map fun tail => (object tail.1, tail.2)
    | cs => (numberLiteral? cs).map fun tail => (number tail.1, tail.2)

/-- Reads the items of an array, of which there is at least one. -/
def items? : Nat → List Char → Option (List Json × List Char)
  | 0, _ => none
  | fuel + 1, cs => do
    let (item, cs) ← value? fuel cs
    match dropSpaces cs with
    | ',' :: cs =>
      let (items, cs) ← items? fuel cs
      return (item :: items, cs)
    | ']' :: cs => return ([item], cs)
    | _ => none

/-- Reads the fields of an object, of which there is at least one. -/
def fields? : Nat → List Char → Option (List (List Char × Json) × List Char)
  | 0, _ => none
  | fuel + 1, cs => do
    let '"' :: cs := dropSpaces cs | none
    let (name, cs) ← stringLiteral? cs
    let ':' :: cs := dropSpaces cs | none
    let (value, cs) ← value? fuel cs
    match dropSpaces cs with
    | ',' :: cs =>
      let (fields, cs) ← fields? fuel cs
      return ((name, value) :: fields, cs)
    | '}' :: cs => return ([(name, value)], cs)
    | _ => none

end

/-- The value that a whole text is. Each step of the reading takes a character, so the fuel
suffices. -/
def ofChars? (cs : List Char) : Option Json := do
  let (value, cs) ← value? (2 * cs.length + 2) cs
  if (dropSpaces cs).isEmpty then some value else none

end ModularScale.Json
