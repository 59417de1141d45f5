import ModularScale.Document.Basic
import ModularScale.Json.Basic

/-! # Written documents

A document as a style sheet, with each item on a line of its own and two spaces for each block
around it, and as a JSON value.
-/

namespace ModularScale

def indent (depth : Nat) : List Char :=
  List.replicate (2 * depth) ' '

/-- A block with the given lines, from the space before its bracket on. -/
def block (depth : Nat) (lines : List Char) : List Char :=
  " \x7b\n".toList ++ lines ++ indent depth ++ "\x7d\n".toList

/-- An at-rule up to its block, with its own white space before its parameters. -/
def atRuleHead (name params afterName : String) : List Char :=
  '@' :: name.toList ++ (if params.isEmpty then [] else afterName.toList ++ params.toList)

namespace Forest

/-- The nodes as lines of a style sheet. -/
def print (depth : Nat) : Forest Node → List Char
  | nil => []
  | cons node children rest =>
    (match node.kind with
      | .root => children.print depth
      | .rule selector =>
        indent depth ++ selector.toList ++ block depth (children.print (depth + 1))
      | .atRule name params afterName true =>
        indent depth ++ atRuleHead name params afterName ++
          block depth (children.print (depth + 1))
      | .atRule name params afterName false =>
        indent depth ++ atRuleHead name params afterName ++ [';', '\n']
      | .declaration property value important =>
        indent depth ++ property.toList ++ [':', ' '] ++ value.toList ++
          (if important then " !important".toList else []) ++ [';', '\n']
      | .comment text => indent depth ++ ['/', '*'] ++ text.toList ++ ['*', '/', '\n']) ++
    rest.print depth

def lineToJson : Option Nat → Json
  | some n => .ofNat n
  | none => .null

/-- The nodes as JSON values. -/
def toJson : Forest Node → List Json
  | nil => []
  | cons node children rest =>
    (match node.kind with
      | .root => .record [("children", .array children.toJson), ("type", .ofText "root")]
      | .rule selector =>
        .record [("children", .array children.toJson), ("line", lineToJson node.line),
          ("selector", .ofText selector), ("type", .ofText "rule")]
      | .atRule name params _ hasBlock =>
        .record [("children", if hasBlock then .array children.toJson else .null),
          ("line", lineToJson node.line), ("name", .ofText name), ("params", .ofText params),
          ("type", .ofText "atrule")]
      | .declaration property value important =>
        .record [("important", .bool important), ("line", lineToJson node.line),
          ("prop", .ofText property), ("type", .ofText "decl"), ("value", .ofText value)]
      | .comment text =>
        .record [("line", lineToJson node.line), ("text", .ofText text),
          ("type", .ofText "comment")]) ::
    rest.toJson

end Forest

namespace Document

def print (d : Document) : String :=
  String.ofList ((d.attached.map Prod.snd).print 0)

/-- The document with a heading, for a look at it in between. -/
def describe (d : Document) : String :=
  "Document\n" ++ d.print

def toJson (d : Document) : Json :=
  ((d.attached.map Prod.snd).toJson.head?).getD .null

end Document

end ModularScale
