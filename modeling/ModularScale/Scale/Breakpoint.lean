import ModularScale.Css.Length
import ModularScale.Scale.Basic

/-! # Breakpoints

The table of breakpoints that settings describe, in the order of their widths. The base
breakpoint has width zero; a name stands for itself in camel case, with dashes and in any case.
-/

namespace ModularScale

structure Breakpoint where
  name : String
  /-- The width as the author wrote it. -/
  value : String
  /-- The size of the root font in pixels. -/
  root : Float
  /-- The width in pixels. -/
  width : Float

namespace Breakpoint

/-- Whether a width belongs to the base breakpoint, which its first character tells. -/
def startsWithZero (value : List Char) : Bool :=
  Css.startsWith (· == '0') (Text.trimStart value)

def isBase (b : Breakpoint) : Bool :=
  startsWithZero b.value.toList

/-- The custom property that holds the width. -/
def customProperty (b : Breakpoint) : String :=
  "--" ++ String.ofList (Text.kebabCase b.name.toList)

/-- What all spellings of a name have in common. -/
def nameKey (name : String) : List Char :=
  Text.asciiLower (Text.camelCase name.toList)

def isNameChar (c : Char) : Bool :=
  c.isAlphanum || c == '-' || c == '_'

def isName (name : List Char) : Bool :=
  !name.isEmpty && name.all isNameChar

/-- The width in pixels, which is zero for the base breakpoint and positive for all others. -/
def width? (documentFontSize : Float) (value : List Char) : Option Float :=
  match Css.Length.ofText (String.ofList value) with
  | .ok length =>
    let width := length.toPixels (Decimal.toSingle documentFontSize)
    if if startsWithZero value then width == 0 else 0 < width then some width else none
  | .error _ => none

def ofSettings (settings : Settings) (entry : BreakpointSettings) :
    Except SettingsError Breakpoint :=
  let name := Text.trim entry.name.toList
  let value := Text.trim entry.value.toList
  let root := settings.rootOf entry
  if !isName name then .error (.invalidName entry.name)
  else match width? settings.documentFontSize value with
    | none => .error (.invalidWidth (String.ofList name) entry.value)
    | some width =>
      if !Decimal.isPositive root then .error (.invalidRoot (String.ofList name) root)
      else .ok ⟨String.ofList name, String.ofList value, root, width⟩

/-- The order of the widths. -/
def le (a b : Breakpoint) : Bool :=
  Decimal.orderKey a.width ≤ Decimal.orderKey b.width

end Breakpoint

/-- Breakpoints in ascending order of width, and the scale they share. -/
structure Breakpoints where
  items : List Breakpoint
  scale : Scale
  items_ne_nil : items ≠ []

namespace Breakpoints

/-- Checks the entries one after the other. `seen` holds those before, and `base` the name of the
base breakpoint among them. -/
def collect (settings : Settings) (seen : List Breakpoint) (base : Option String) :
    List BreakpointSettings → Except SettingsError (List Breakpoint × Option String)
  | [] => .ok (seen, base)
  | entry :: entries =>
    match Breakpoint.ofSettings settings entry with
    | .error e => .error e
    | .ok b =>
      if seen.any fun a => Breakpoint.nameKey a.name == Breakpoint.nameKey b.name then
        .error (.duplicateName b.name)
      else if b.isBase then
        match base with
        | some first => .error (.multipleBases first b.name)
        | none => collect settings (seen ++ [b]) (some entry.name) entries
      else collect settings (seen ++ [b]) base entries

/-- The table that settings describe. -/
def ofSettings (settings : Settings) : Except SettingsError Breakpoints :=
  match Scale.ofParameters settings.ratio settings.documentFontSize with
  | .error e => .error e
  | .ok scale =>
    match collect settings [] none settings.breakpoints with
    | .error e => .error e
    | .ok (_, none) => .error .missingBase
    | .ok (items, some _) =>
      match items.mergeSort Breakpoint.le with
      | [] => .error .missingBase
      | b :: bs => .ok ⟨b :: bs, scale, List.cons_ne_nil b bs⟩

/-- The narrowest breakpoint. -/
def base (table : Breakpoints) : Breakpoint :=
  table.items.head table.items_ne_nil

/-- All breakpoints but the base one. -/
def responsive (table : Breakpoints) : List Breakpoint :=
  table.items.filter (!·.isBase)

/-- The breakpoint with a given name, in any spelling. -/
def find? (table : Breakpoints) (name : String) : Option Breakpoint :=
  table.items.find? fun b => Breakpoint.nameKey b.name == Breakpoint.nameKey name

/-- A parameter without the parentheses around it. -/
def bareParameter (params : String) : String :=
  let trimmed := Text.trim params.toList
  String.ofList
    (match trimmed with
      | '(' :: inner => if inner.getLast? = some ')' then Text.trim inner.dropLast else trimmed
      | _ => trimmed)

/-- The breakpoint that the parameter of an at-rule names. -/
def findParameter? (table : Breakpoints) (params : String) : Option Breakpoint :=
  table.find? (bareParameter params)

/-- The names with dashes, as messages list them. -/
def listing (table : Breakpoints) : String :=
  ", ".intercalate (table.items.map fun b => String.ofList (Text.kebabCase b.name.toList))

end Breakpoints

end ModularScale
