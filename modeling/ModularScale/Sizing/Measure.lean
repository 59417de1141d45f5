import ModularScale.Sizing.Basic

/-! # Sizes in scale steps

A size such as `2ms` becomes a length at the breakpoint of its scope.
-/

namespace ModularScale.Sizing.Measure

/-- Digits with one point at most. -/
def isDecimal (cs : List Char) : Bool :=
  cs.all (fun c => c.isDigit || c == '.') && cs.any Char.isDigit && cs.count '.' ≤ 1

def isSignedDecimal : List Char → Bool
  | '+' :: cs => isDecimal cs
  | '-' :: cs => isDecimal cs
  | cs => isDecimal cs

/-- The number right before the unit, if a value is nothing else. -/
def exponent? (value : String) : Option String :=
  let trimmed := Text.trim value.toList
  let number := trimmed.dropLast.dropLast
  if Text.eqIgnoringCase (trimmed.drop number.length) ['m', 's'] && isSignedDecimal number then
    some (String.ofList number)
  else none

def find (d : Document) (id : NodeId) : Match String :=
  match (d.fontSize? id).bind exponent? with
  | some exponent => .present exponent
  | none => .absent

/-- The name of the breakpoint that a scope asks for, if it asks for one. -/
def target (table : Breakpoints) : Scope → Except Rejection (Option String)
  | .root => .ok none
  | scope@(.atRule node name params) =>
    if scope.responsive?.isNone then
      .error (.excising node (.unsupportedScope name))
    else match table.findParameter? params with
      | some b => .ok (some b.name)
      | none =>
        .error (.excising node
          (.unknownBreakpoint (Breakpoints.bareParameter params) table.listing))

def apply (table : Breakpoints) (d : Document) (id : NodeId) (exponent : String) : Result :=
  match Scope.resolve d id with
  | .error e => .rejected d (.ofTree e)
  | .ok scope =>
    match target table scope with
    | .error rejection => .rejected d rejection
    | .ok name =>
      match table.rem exponent name with
      | .error e => .rejected d (.excising id (.conversion e))
      | .ok rem => .ofEdit d [.converted exponent rem scope] (d.setValue id rem)

end ModularScale.Sizing.Measure
