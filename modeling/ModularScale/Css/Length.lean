import ModularScale.Css.Component

/-! # Lengths

The lengths that a breakpoint can be given in: pixels, two units relative to a font size, and a
zero without a unit.
-/

namespace ModularScale.Css

inductive LengthUnit
  | pixels
  | ems
  | rootEms
deriving DecidableEq, Repr

/-- A length, whose value has single precision. -/
structure Length where
  value : Float
  unit : LengthUnit

inductive LengthError
  /-- The next token is no length. -/
  | unexpectedToken
  /-- A length is followed by something else. -/
  | trailingInput
deriving DecidableEq, Repr

def LengthUnit.ofName? (name : List Char) : Option LengthUnit :=
  match String.ofList (Text.asciiLower name) with
  | "px" => some .pixels
  | "em" => some .ems
  | "rem" => some .rootEms
  | _ => none

namespace Length

/-- The length in pixels, where both relative units count the given font size. -/
def toPixels (x : Length) (fontSize : Float) : Float :=
  match x.unit with
  | .pixels => x.value
  | .ems | .rootEms => Decimal.toSingle (x.value * fontSize)

def ofToken? : Token → Option Length
  | .dimension x unit => (LengthUnit.ofName? unit).map (⟨Css.value x, ·⟩)
  | .number x => if Css.value x == 0 then some ⟨0, .pixels⟩ else none
  | _ => none

/-- Reads one length behind any white space and comments, and takes what stands there even if it
is none. -/
def read (cs : Components) : Except LengthError Length × Components :=
  match cs.dropGaps with
  | .leaf l rest =>
    (match ofToken? l.token with
      | some x => .ok x
      | none => .error .unexpectedToken, rest)
  | .block _ _ _ _ rest => (.error .unexpectedToken, rest)
  | .nil => (.error .unexpectedToken, .nil)

/-- The length that a whole text is. -/
def ofText (text : String) : Except LengthError Length :=
  match read (Components.ofText text.toList) with
  | (.ok x, rest) => if rest.dropGaps = .nil then .ok x else .error .trailingInput
  | (.error e, _) => .error e

theorem size_dropGaps (cs : Components) : cs.dropGaps.size ≤ cs.size := by
  induction cs with
  | nil => exact Nat.le_refl _
  | leaf l rest ih =>
    unfold Components.dropGaps
    split
    · exact Nat.le_succ_of_le ih
    · exact Nat.le_refl _
  | block => exact Nat.le_refl _

theorem size_read {cs : Components} (h : cs.dropGaps ≠ .nil) : (read cs).2.size < cs.size := by
  refine Nat.lt_of_lt_of_le ?_ (size_dropGaps cs)
  unfold read
  split
  · next hs => rw [hs]; exact Nat.lt_succ_self _
  · next hs => rw [hs]; simp only [Components.size]; omega
  · next hs => exact absurd hs h

/-- Every length and every other token in turn, up to the end. -/
def readAll (cs : Components) : List (Except LengthError Length) :=
  let next := read cs
  if cs.dropGaps = .nil then [next.1] else next.1 :: readAll next.2
termination_by cs.size
decreasing_by exact size_read (by assumption)

end Length

end ModularScale.Css
