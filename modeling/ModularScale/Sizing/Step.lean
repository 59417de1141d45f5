import ModularScale.Sizing.Basic

/-! # Expanded steps

A size such as `t-ms(2)` becomes the size of the step at the base breakpoint, and its rule is
followed by one block for each wider breakpoint, narrowest first.
-/

namespace ModularScale.Sizing.Step

/-- What follows the first `t-ms(` of a text, in any case. -/
def afterCall? : List Char → Option (List Char)
  | [] => none
  | c :: cs =>
    if Text.eqIgnoringCase ((c :: cs).take 5) "t-ms(".toList then some ((c :: cs).drop 5)
    else afterCall? cs

/-- The argument of the first call in a value, up to its closing parenthesis or the end. -/
def argument? (value : String) : Option String :=
  (afterCall? value.toList).map fun cs => String.ofList (Text.trim (cs.takeWhile (· != ')')))

def find (d : Document) (id : NodeId) : Match String :=
  match (d.fontSize? id).bind argument? with
  | none => .absent
  | some argument =>
    if Decimal.isNumber argument then .present argument
    else .invalid ⟨d.parent? id, .invalidStep argument⟩

/-- The selector of the rule that a node is, or why a step may not stand there. -/
def selectorOf (parent : NodeId) : Kind → Except Rejection String
  | .rule selector => .ok selector
  | .atRule name _ _ _ => .error (.excising parent (.stepOutsideRule ("@" ++ name)))
  | _ => .error ⟨none, .stepOutsideRule "the stylesheet root"⟩

/-- The sizes at given breakpoints, unless one of them is too large. -/
def sizes (table : Breakpoints) (exponent : String) :
    List Breakpoint → Except ConversionError (List (Breakpoint × String))
  | [] => .ok []
  | b :: bs =>
    match table.rem exponent (some b.name) with
    | .error e => .error e
    | .ok rem => (sizes table exponent bs).map ((b, rem) :: ·)

/-- The blocks for given sizes, in the order of the sizes. -/
def blocks (selector : String) (sizes : List (Breakpoint × String)) : Forest Node :=
  sizes.foldr
    (fun size rest =>
      Template.mediaBlock size.1.value selector (.single (Template.fontSize size.2) .nil) ++ rest)
    .nil

/-- The notes on the blocks, the widest of which comes first. -/
def events (exponent selector : String) (sizes : List (Breakpoint × String)) : List Event :=
  sizes.reverse.map fun size => .expandedAt exponent size.2 size.1.value selector

def apply (table : Breakpoints) (d : Document) (id : NodeId) (exponent : String) : Result :=
  match d.parent? id with
  | none => .rejected d (.ofTree (.noParent id))
  | some parent =>
    match d.kind parent with
    | .error e => .rejected d (.ofTree e)
    | .ok kind =>
      match selectorOf parent kind with
      | .error rejection => .rejected d rejection
      | .ok selector =>
        match table.rem exponent none, sizes table exponent table.responsive with
        | .error e, _ => .rejected d (.excising parent (.conversion e))
        | .ok _, .error e => .rejected d (.excising parent (.conversion e))
        | .ok rem, .ok sizes =>
          match d.insertNewAfter parent (blocks selector sizes) with
          | .error e => .rejected d (.ofTree e)
          | .ok d =>
            .ofEdit d (events exponent selector sizes ++ [.expanded exponent rem selector])
              (d.setValue id rem)

end ModularScale.Sizing.Step
