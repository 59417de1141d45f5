import ModularScale.Document.Basic

/-! # Edits of documents

Nodes are made apart from all others and then put in their places, or made in place. An edit either
does all it should or fails and leaves the document as it was.
-/

namespace ModularScale.Document

/-- Makes a node that is not part of the style sheet yet. -/
def create (d : Document) (node : Node) : NodeId × Document :=
  (d.next, ⟨d.trees ++ .single (d.next, node) .nil, d.next + 1⟩)

def setKind (d : Document) (id : NodeId) (kind : Kind) : Except TreeError Document :=
  if !d.isLive id then .error (.removed id)
  else .ok { d with trees := d.trees.modify (isNode id) fun (id, node) => (id, { node with kind }) }

def checkLive (d : Document) (id : NodeId) : Except TreeError Unit :=
  if d.isLive id then .ok () else .error (.removed id)

/-- A place beside a node needs a parent that it is in. -/
def checkAnchor (d : Document) (anchor : NodeId) : Except TreeError Unit := do
  d.checkLive anchor
  if (d.parent? anchor).isNone then .error (.noParent anchor)

/-- A node can be moved to a place by `target` unless it is this node or one above it. -/
def checkMove (d : Document) (target id : NodeId) (self descendant : MoveError) :
    Except TreeError Unit := do
  d.checkLive id
  if id = target then .error (.move self)
  if (d.ancestors target).contains id then .error (.move descendant)

/-- A node with all below it, as a forest of its own. -/
def subtree (d : Document) (id : NodeId) : Forest (NodeId × Node) :=
  match d.find? id with
  | some (entry, below) => .single entry below
  | none => .nil

def without (d : Document) (id : NodeId) : Forest (NodeId × Node) :=
  d.trees.erase (isNode id)

/-- Moves a node behind the last child of another. -/
def append (d : Document) (parent child : NodeId) : Except TreeError Document := do
  d.checkLive parent
  d.checkMove parent child .appendSelf .appendToDescendant
  return { d with trees := .appendTo (isNode parent) (d.subtree child) (d.without child) }

/-- Moves a node to the place right before another. -/
def insertBefore (d : Document) (anchor id : NodeId) : Except TreeError Document := do
  d.checkAnchor anchor
  d.checkMove anchor id .insertBeforeSelf .insertBeforeDescendant
  return { d with trees := .insertBefore (isNode anchor) (d.subtree id) (d.without id) }

/-- Moves a node to the place right behind another. -/
def insertAfter (d : Document) (anchor id : NodeId) : Except TreeError Document := do
  d.checkAnchor anchor
  d.checkMove anchor id .insertAfterSelf .appendToDescendant
  return { d with trees := .insertAfter (isNode anchor) (d.subtree id) (d.without id) }

/-- Removes a node with all below it. -/
def remove (d : Document) (id : NodeId) : Except TreeError Document := do
  if id = root then .error .root
  d.checkLive id
  return { d with trees := d.without id }

/-- Moves a node to the place of another, which is removed with all that is left below it. -/
def replace (d : Document) (old new : NodeId) : Except TreeError Document := do
  if old = root then .error .root
  let d ← d.insertBefore old new
  return { d with trees := d.without old }

/-- Makes a node at the end of another's children. -/
def addChild (d : Document) (parent : NodeId) (kind : Kind) :
    Except TreeError (NodeId × Document) := do
  let (id, d) := d.create (.made kind)
  return (id, ← d.append parent id)

/-- Makes new nodes right before another, if there are any to make. -/
def insertNewBefore (d : Document) (anchor : NodeId) (new : Forest Node) :
    Except TreeError Document := do
  if new = .nil then return d
  d.checkAnchor anchor
  let (new, next) := new.number d.next
  return ⟨.insertBefore (isNode anchor) new d.trees, next⟩

/-- Makes new nodes right behind another, if there are any to make. -/
def insertNewAfter (d : Document) (anchor : NodeId) (new : Forest Node) :
    Except TreeError Document := do
  if new = .nil then return d
  d.checkAnchor anchor
  let (new, next) := new.number d.next
  return ⟨.insertAfter (isNode anchor) new d.trees, next⟩

/-- Makes a new node in the place of another, which is removed with all below it. -/
def replaceWithNew (d : Document) (old : NodeId) (node : Node) : Except TreeError Document := do
  if old = root then .error .root
  let d ← d.insertNewBefore old (.single node .nil)
  return { d with trees := d.without old }

end ModularScale.Document
