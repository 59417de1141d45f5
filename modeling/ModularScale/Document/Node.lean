import ModularScale.Document.Forest

/-! # Nodes of a style sheet -/

namespace ModularScale

inductive Kind
  /-- The style sheet itself. -/
  | root
  | rule (selector : String)
  /-- `afterName` is the white space between the name and the parameters. -/
  | atRule (name params afterName : String) (hasBlock : Bool)
  | declaration (property value : String) (important : Bool)
  /-- A comment without its marks. -/
  | comment (text : String)
deriving DecidableEq, Repr

/-- A node with the line on which it starts, if it was read from a text. -/
structure Node where
  kind : Kind
  line : Option Nat
deriving DecidableEq, Repr

def Kind.isDeclaration : Kind → Bool
  | .declaration .. => true
  | _ => false

/-- A node that was not read from a text. -/
def Node.made (kind : Kind) : Node :=
  ⟨kind, none⟩

end ModularScale
