import ModularScale.Sizing.Scope
import ModularScale.Sizing.Rejection
import ModularScale.Sizing.Template

/-! # Font sizes

A font size is given in one of three ways: as a number of scale steps (`2ms`), as a step that is
expanded for every breakpoint (`t-ms(2)`), or as the plain size of the root element.
-/

namespace ModularScale

inductive Sizing
  | measure
  | step
  | root
deriving DecidableEq, Repr

namespace Sizing

/-- The order in which a declaration is tried. -/
def all : List Sizing :=
  [measure, step, root]

def name : Sizing → String
  | measure => "ms-unit"
  | step => "t-ms step"
  | root => "root size"

def ofName? (name : String) : Option Sizing :=
  all.find? (·.name == name)

/-- What a declaration is to one way of giving a font size: not of this kind, of this kind with
what it says, or of this kind but malformed. -/
inductive Match (α : Type)
  | absent
  | present (found : α)
  | invalid (rejection : Rejection)

inductive Outcome
  | notApplicable
  | applied
  | rejected (rejection : Rejection)
deriving DecidableEq, Repr

/-- What is noted down while a document is worked on. -/
inductive Event
  | converted (exponent rem : String) (scope : Scope)
  | expandedAt (exponent rem width selector : String)
  | expanded (exponent rem selector : String)
  | rootSized (percentage : String)
  | nestedRootDropped
  | rejected (sizing : Sizing)
  | excisionFailed (e : TreeError)
  | reported (d : Diagnostic)
deriving DecidableEq, Repr

inductive Level
  | debug
  | warn
  | error
deriving DecidableEq, Repr

def Level.name : Level → String
  | debug => "DEBUG"
  | warn => "WARN"
  | error => "ERROR"

namespace Event

def level : Event → Level
  | excisionFailed _ => .error
  | reported _ => .warn
  | _ => .debug

def message : Event → String
  | converted exponent rem scope =>
    exponent ++ "ms -> " ++ rem ++ " (" ++ scope.describe ++ ")"
  | expandedAt exponent rem width selector =>
    "t-ms(" ++ exponent ++ ") -> " ++ rem ++ " at " ++ width ++ " for " ++ selector
  | expanded exponent rem selector =>
    "t-ms(" ++ exponent ++ ") -> " ++ rem ++ " for " ++ selector
  | rootSized percentage => Template.rootSelector ++ " font-size -> " ++ percentage
  | nestedRootDropped => "dropping root font-size nested below " ++ Template.rootSelector
  | rejected sizing => sizing.name ++ " rewrite rejected a declaration"
  | excisionFailed e => "could not remove rejected subtree: " ++ e.message
  | reported d => d.describe

def describe (e : Event) : String :=
  e.level.name ++ " " ++ e.message

end Event

/-- What came of one declaration. -/
structure Result where
  outcome : Outcome
  document : Document
  log : List Event

namespace Result

def unchanged (d : Document) (outcome : Outcome) : Result :=
  ⟨outcome, d, []⟩

def rejected (d : Document) (rejection : Rejection) : Result :=
  ⟨.rejected rejection, d, []⟩

/-- The result of a last edit, whose failure leaves the document as it is. -/
def ofEdit (d : Document) (log : List Event) (edited : Except TreeError Document) : Result :=
  match edited with
  | .ok d => ⟨.applied, d, log⟩
  | .error e => ⟨.rejected (.ofTree e), d, log⟩

end Result

/-- The value of a declaration of a font size. -/
def fontSizeOf? : Kind → Option String
  | .declaration property value _ =>
    if Text.eqIgnoringCase property.toList "font-size".toList then some value else none
  | _ => none

end Sizing

namespace Document

/-- The value of a node that declares a font size. -/
def fontSize? (d : Document) (id : NodeId) : Option String :=
  (d.node? id).bind fun node => Sizing.fontSizeOf? node.kind

/-- Gives a declaration a new value; other nodes keep what they are. -/
def setValue (d : Document) (id : NodeId) (value : String) : Except TreeError Document :=
  match d.kind id with
  | .error e => .error e
  | .ok (.declaration property _ important) =>
    d.setKind id (.declaration property value important)
  | .ok _ => .ok d

end Document

end ModularScale
