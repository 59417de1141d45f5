import ModularScale.Decimal.Reader
import ModularScale.Scale.Breakpoint

/-! # Sizes of scale steps

A step of the scale, given as a text, becomes a length in `rem` at a breakpoint.
-/

namespace ModularScale

inductive ConversionError
  | notNumeric (exponent : String)
  | unknownBreakpoint (name : String)
  | outOfRange (exponent : String)
deriving DecidableEq, Repr

namespace ConversionError

def message : ConversionError → String
  | notNumeric exponent => "`" ++ exponent ++ "` is not a number"
  | unknownBreakpoint name => "`" ++ name ++ "` is not a configured breakpoint"
  | outOfRange exponent =>
    "scale step `" ++ exponent ++ "` is too large to express as a rem length"

end ConversionError

namespace Breakpoints

/-- The breakpoint at which a size is wanted: the named one, or the base one without a name. -/
def target (table : Breakpoints) : Option String → Except ConversionError Breakpoint
  | none => .ok table.base
  | some name =>
    match table.find? name with
    | some b => .ok b
    | none => .error (.unknownBreakpoint name)

/-- The size of a step in `rem`. -/
def rem (table : Breakpoints) (exponent : String) (name : Option String) :
    Except ConversionError String :=
  let trimmed := String.ofList (Text.trim exponent.toList)
  match Decimal.readNumber? exponent with
  | none => .error (.notNumeric trimmed)
  | some n =>
    match table.target name with
    | .error e => .error e
    | .ok b =>
      let size := table.scale.size b.root n
      if size.isFinite then .ok (Decimal.writeRounded Scale.places size ++ "rem")
      else .error (.outOfRange trimmed)

end Breakpoints

end ModularScale
