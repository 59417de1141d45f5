import ModularScale.Json.Literal

/-! # Settings

The parameters of the scale and the breakpoints, as given by an author. A JSON text may leave out
what has a default, may hold unknown fields, and may write a record as an array of its values.
-/

namespace ModularScale

structure BreakpointSettings where
  name : String
  /-- The width from which the breakpoint applies. -/
  value : String
  /-- The size of the root font in pixels, if it differs from that of the document. -/
  root : Option Float

structure Settings where
  /-- How many pixels a root font size of 100% stands for. -/
  documentFontSize : Float := 16
  /-- The ratio of two neighbouring steps. -/
  ratio : Float := 1.2
  breakpoints : List BreakpointSettings :=
    [⟨"mobile", "0px", some 16⟩, ⟨"tablet", "768px", some 18⟩, ⟨"desktop", "1280px", some 20⟩]

namespace Json

/-- The fields of an object with their names in plain text. -/
def namedFields? (fields : List (List Char × Json)) : Option (List (String × Json)) :=
  fields.mapM fun field => (unescape? field.1).map fun name => (String.ofList name, field.2)

/-- The value of a field, if it is there; a field must not be there twice. -/
def field? (name : String) (fields : List (String × Json)) : Option (Option Json) :=
  match fields.filter (·.1 == name) with
  | [] => some none
  | [field] => some (some field.2)
  | _ => none

/-- The values of a record's fields, written as an object or as an array in the order of the
names. -/
def values? (names : List String) : Json → Option (List (Option Json))
  | object fields => do
    let fields ← namedFields? fields
    names.mapM (field? · fields)
  | array items =>
    if items.length ≤ names.length then
      some (items.map some ++ List.replicate (names.length - items.length) none)
    else none
  | _ => none

def optional? (x : Json) (read : Json → Option α) : Option (Option α) :=
  match x with
  | null => some none
  | x => (read x).map some

end Json

namespace BreakpointSettings

def ofJson? (x : Json) : Option BreakpointSettings :=
  match x.values? ["name", "value", "root"] with
  | some [some name, some value, root] => do
    return ⟨← name.text?, ← value.text?, ← (root.getD .null).optional? Json.float?⟩
  | _ => none

def toJson (b : BreakpointSettings) : Json :=
  Json.record ([("name", Json.ofText b.name), ("value", Json.ofText b.value)] ++
    (b.root.map fun root => ("root", Json.ofFloat root)).toList)

end BreakpointSettings

namespace Settings

/-- The value of a field, or its default if the field is not there. -/
def fieldOr (default : α) (read : Json → Option α) : Option Json → Option α
  | none => some default
  | some x => read x

def breakpointsOfJson? : Json → Option (List BreakpointSettings)
  | .array items => items.mapM BreakpointSettings.ofJson?
  | _ => none

def ofJson? (x : Json) : Option Settings :=
  match x.values? ["documentFontSize", "ratio", "breakpoints"] with
  | some [documentFontSize, ratio, breakpoints] => do
    let default : Settings := {}
    return {
      documentFontSize := ← fieldOr default.documentFontSize Json.float? documentFontSize
      ratio := ← fieldOr default.ratio Json.float? ratio
      breakpoints := ← fieldOr default.breakpoints breakpointsOfJson? breakpoints }
  | _ => none

def toJson (c : Settings) : Json :=
  Json.record [
    ("documentFontSize", Json.ofFloat c.documentFontSize),
    ("ratio", Json.ofFloat c.ratio),
    ("breakpoints", .array (c.breakpoints.map BreakpointSettings.toJson))]

def ofText? (text : String) : Option Settings :=
  (Json.ofChars? text.toList).bind ofJson?

def toText (c : Settings) : String :=
  String.ofList c.toJson.compact

/-- The size of the root font at a breakpoint. -/
def rootOf (c : Settings) (b : BreakpointSettings) : Float :=
  b.root.getD c.documentFontSize

end Settings

/-- What can be wrong with settings. -/
inductive SettingsError
  | missingBase
  | multipleBases (first second : String)
  | duplicateName (name : String)
  | invalidName (name : String)
  | invalidWidth (name value : String)
  | invalidRoot (name : String) (root : Float)
  | invalidRatio (ratio : Float)
  | invalidDocumentFontSize (size : Float)

namespace SettingsError

def message : SettingsError → String
  | missingBase =>
    "no base breakpoint configured; one breakpoint needs a zero width such as \"0px\""
  | multipleBases first second =>
    "breakpoints `" ++ first ++ "` and `" ++ second ++ "` both claim the zero width"
  | duplicateName name => "breakpoint name `" ++ name ++ "` is configured more than once"
  | invalidName name =>
    "`" ++ name ++ "` is not a valid breakpoint name; use letters, digits, `-` or `_`"
  | invalidWidth name value =>
    "breakpoint `" ++ name ++ "` has an invalid width `" ++ value ++ "`"
  | invalidRoot name root =>
    "breakpoint `" ++ name ++ "` needs a positive root font size, got " ++
      Decimal.write Decimal.plain root
  | invalidRatio ratio =>
    "the modular scale ratio must be greater than 1, got " ++ Decimal.write Decimal.plain ratio
  | invalidDocumentFontSize size =>
    "the document font size must be positive, got " ++ Decimal.write Decimal.plain size

end SettingsError

end ModularScale
