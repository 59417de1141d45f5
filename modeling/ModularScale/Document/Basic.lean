import ModularScale.Css.Sheet

/-! # Documents

A document holds the tree of a style sheet and any trees that are not part of it. Nodes are known
by numbers that are given out in turn and never again, so the number of a removed node is one that
was given out and is no longer found.
-/

namespace ModularScale

abbrev NodeId := Nat

/-- What can stand in the way of moving one node to another. -/
inductive MoveError
  | appendSelf
  | insertBeforeSelf
  | insertAfterSelf
  /-- A node would come below or behind its own descendant. -/
  | appendToDescendant
  /-- A node would come before its own descendant. -/
  | insertBeforeDescendant
deriving DecidableEq, Repr

inductive TreeError
  | removed (id : NodeId)
  | noParent (id : NodeId)
  | root
  | move (e : MoveError)
deriving DecidableEq, Repr

namespace MoveError

def message : MoveError → String
  | appendSelf => "Can not append a node to itself"
  | insertBeforeSelf => "Can not insert a node before itself"
  | insertAfterSelf => "Can not insert a node after itself"
  | appendToDescendant => "Can not append a node to, or insert it after, its descendant"
  | insertBeforeDescendant => "Can not prepend a node to, or insert it before, its descendant"

end MoveError

namespace TreeError

/-- Nodes have no names of their own, so a `#` stands for the node. -/
def message : TreeError → String
  | removed _ => "node # has been removed from the document"
  | noParent _ => "node # has no parent"
  | root => "the document root cannot be removed or replaced"
  | move e => "invalid tree operation: " ++ e.message

end TreeError

/-- All nodes that have not been removed, and the next number to give out. -/
structure Document where
  trees : Forest (NodeId × Node)
  next : NodeId
deriving DecidableEq, Repr

namespace Document

/-- The number of the root, which is the first node of each document. -/
def root : NodeId := 0

/-- The test for the node with a given number. -/
def isNode (id : NodeId) (entry : NodeId × Node) : Bool :=
  entry.1 == id

/-- A document with the given nodes below its root. -/
def ofForest (items : Forest Node) : Document :=
  let numbered := (Forest.single (Node.made .root) items).number root
  ⟨numbered.1, numbered.2⟩

def empty : Document :=
  ofForest .nil

def ofSheet (sheet : Css.Sheet) : Document :=
  ofForest sheet.items

/-- A node with all below it. -/
def find? (d : Document) (id : NodeId) : Option ((NodeId × Node) × Forest (NodeId × Node)) :=
  d.trees.find? (isNode id)

def isLive (d : Document) (id : NodeId) : Bool :=
  (d.find? id).isSome

def node? (d : Document) (id : NodeId) : Option Node :=
  (d.find? id).map (·.1.2)

def kind (d : Document) (id : NodeId) : Except TreeError Kind :=
  match d.node? id with
  | some node => .ok node.kind
  | none => .error (.removed id)

def line? (d : Document) (id : NodeId) : Option Nat :=
  (d.node? id).bind Node.line

/-- The nodes above a node, the nearest first; a removed node has none. -/
def ancestors (d : Document) (id : NodeId) : List NodeId :=
  ((d.trees.above? (isNode id)).getD []).map Prod.fst

def parent? (d : Document) (id : NodeId) : Option NodeId :=
  (d.ancestors id).head?

def children (d : Document) (id : NodeId) : List NodeId :=
  match d.find? id with
  | some (_, below) => below.tops.map Prod.fst
  | none => []

/-- Whether the root is the topmost node above a node, or the node itself. -/
def isAttached (d : Document) (id : NodeId) : Bool :=
  d.isLive id && (d.ancestors id).getLast?.getD id == root

/-- The root with all below it. -/
def attached (d : Document) : Forest (NodeId × Node) :=
  match d.find? root with
  | some (entry, below) => .single entry below
  | none => .nil

/-- All nodes from the root on, in document order. -/
def nodes (d : Document) : List NodeId :=
  d.attached.toList.map Prod.fst

/-- All declarations from the root on, in document order. -/
def declarations (d : Document) : List NodeId :=
  (d.attached.toList.filter fun entry => entry.2.kind.isDeclaration).map Prod.fst

end Document

end ModularScale
