import ModularScale.Sizing.Measure
import ModularScale.Sizing.Step

/-! # The size of the root element

A plain size in a `:root` rule gives way to the percentages that the breakpoints ask for: that of
the base breakpoint in its place, with the widths of all others as custom properties before it,
and those of the others in blocks behind its rule, narrowest first.
-/

namespace ModularScale.Sizing.Root

def selectsRoot (selector : String) : Bool :=
  Text.eqIgnoringCase (Text.trim selector.toList) Template.rootSelector.toList

def isRuleOfRoot : Kind → Bool
  | .rule selector => selectsRoot selector
  | _ => false

def isRule : Kind → Bool
  | .rule _ => true
  | _ => false

/-- Whether a value is a plain size. -/
def isPlain (value : String) : Bool :=
  (Measure.exponent? value).isNone && (Step.argument? value).isNone

/-- The nearest rule around a node. -/
def enclosingRule? (d : Document) (id : NodeId) : Option Kind :=
  ((d.ancestors id).filterMap fun a => (d.node? a).map Node.kind).find? isRule

def find (d : Document) (id : NodeId) : Match Unit :=
  if (d.fontSize? id).any isPlain && (enclosingRule? d id).any isRuleOfRoot then .present ()
  else .absent

/-- The custom properties of breakpoints, in their order. -/
def widthProperties (bs : List Breakpoint) : Forest Node :=
  bs.foldr (fun b rest => .cons (Template.variableOf b) .nil rest) .nil

/-- The blocks of breakpoints, in their order. -/
def blocks (scale : Scale) (bs : List Breakpoint) : Forest Node :=
  bs.foldr
    (fun b rest =>
      Template.mediaBlock b.value Template.rootSelector
        (.cons (Template.variableOf b) .nil
          (.single (Template.fontSize (scale.percentage b.root)) .nil)) ++ rest)
    .nil

/-- Puts the size of the base breakpoint and the custom properties into a rule, and the blocks
behind it. -/
def expand (table : Breakpoints) (d : Document) (id parent : NodeId) : Result :=
  let base := table.scale.percentage table.base.root
  match d.insertNewAfter parent (blocks table.scale table.responsive) with
  | .error e => .rejected d (.ofTree e)
  | .ok d =>
    match d.insertNewBefore id (widthProperties table.responsive) with
    | .error e => .rejected d (.ofTree e)
    | .ok d => .ofEdit d [.rootSized base] (d.replaceWithNew id (Template.fontSize base))

def apply (table : Breakpoints) (d : Document) (id : NodeId) : Result :=
  match d.parent? id with
  | none => .rejected d (.ofTree (.noParent id))
  | some parent =>
    match d.kind parent with
    | .error e => .rejected d (.ofTree e)
    | .ok kind =>
      if isRuleOfRoot kind then expand table d id parent
      else .ofEdit d [.nestedRootDropped] (d.remove id)

end ModularScale.Sizing.Root
