import ModularScale.Document.Edit
import ModularScale.Scale.Breakpoint

/-! # Templates

The nodes that take the place of a font size or are made beside its rule.
-/

namespace ModularScale

namespace Template

def declaration (property value : String) : Node :=
  .made (.declaration property value false)

def fontSize (value : String) : Node :=
  declaration "font-size" value

/-- The custom property of a breakpoint, which holds its width. -/
def variableOf (b : Breakpoint) : Node :=
  declaration b.customProperty b.value

def rootSelector : String :=
  ":root"

def rule (selector : String) : Node :=
  .made (.rule selector)

/-- The at-rule for all viewports from a given width on. -/
def media (minWidth : String) : Node :=
  .made (.atRule "media" ("(min-width: " ++ minWidth ++ ")") " " true)

/-- Declarations of a selector for all viewports from a given width on. -/
def mediaBlock (minWidth selector : String) (declarations : Forest Node) : Forest Node :=
  .single (media minWidth) (.single (rule selector) declarations)

end Template

namespace Document

/-- Moves a node into a new block for all viewports from a given width on. -/
def wrapInMedia (d : Document) (minWidth : String) (id : NodeId) :
    Except TreeError (NodeId × Document) :=
  let (block, d) := d.create (Template.media minWidth)
  (d.append block id).map (block, ·)

end Document

end ModularScale
