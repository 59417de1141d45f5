import ModularScale.Document.Basic
import ModularScale.Text.Casing

/-! # Scopes

A font size is resolved in its scope: the nearest at-rule around it, or the style sheet. An at-rule
that names a breakpoint is responsive.
-/

namespace ModularScale

/-- The responsive at-rules. -/
inductive Responsive
  | above
  | below
  | only
deriving DecidableEq, Repr

namespace Responsive

def name : Responsive → String
  | above => "t-above"
  | below => "t-below"
  | only => "t-only"

def all : List Responsive :=
  [above, below, only]

/-- The at-rule with a given name, in any case. -/
def ofName? (name : String) : Option Responsive :=
  all.find? fun r => Text.eqIgnoringCase name.toList r.name.toList

end Responsive

inductive Scope
  | root
  | atRule (node : NodeId) (name params : String)
deriving DecidableEq, Repr

namespace Scope

def responsive? : Scope → Option Responsive
  | root => none
  | atRule _ name _ => Responsive.ofName? name

def describe : Scope → String
  | root => "root"
  | atRule _ name params => "@" ++ name ++ " " ++ params

/-- The first of the given nodes that is an at-rule or a root. If there is none, the last of them
lacks a parent, or `id` if there are no nodes at all. -/
def search (d : Document) (id : NodeId) : List NodeId → Except TreeError Scope
  | [] => .error (.noParent id)
  | a :: as =>
    match d.kind a with
    | .error e => .error e
    | .ok .root => .ok root
    | .ok (.atRule name params _ _) => .ok (atRule a name params)
    | .ok _ => search d a as

def resolve (d : Document) (id : NodeId) : Except TreeError Scope :=
  search d id (d.ancestors id)

end Scope

end ModularScale
