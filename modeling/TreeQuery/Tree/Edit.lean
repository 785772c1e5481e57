import TreeQuery.Tree.Error
import TreeQuery.Tree.Walk

/-!
# Editing a tree

Nodes are created free of any parent and then put into a list of children, moved to another, or
taken out again. An edit that either happens in full or not at all gives the new tree or an error.
Two edits may be stopped on the way, `insertBefore` and `moveChildren`; they give an `Attempt`,
which holds the tree as they left it.
-/

namespace TreeQuery

/-- How far an edit came: the tree as it was left, and what stopped the edit, if anything did. -/
structure Attempt where
  /-- The tree as it was left. -/
  tree : Tree
  /-- What stopped the edit. -/
  error? : Option TreeError := none

/-- The attempt at an edit of a tree that happens in full or not at all. -/
def Attempt.ofExcept (t : Tree) : Except TreeError Tree → Attempt
  | .ok edited => ⟨edited, none⟩
  | .error e => ⟨t, some e⟩

namespace Tree

/-- The tree with one of its nodes changed. -/
def modify (t : Tree) (n : NodeId) (f : Node → Node) : Tree :=
  { t with nodes := t.nodes.modify n f }

/-! ## New nodes -/

/-- The tree with one more node, which stands free, and the number of that node. -/
def alloc (t : Tree) (data : NodeData) : Tree × NodeId :=
  ({ t with nodes := t.nodes.push { data } }, t.size)

/-- A new element with those attributes, of which a later one replaces an earlier one. -/
def createElement (t : Tree) (tagName : String) (attributes : List (String × String)) :
    Tree × NodeId :=
  t.alloc (.element ⟨tagName, .ofList attributes⟩)

/-- A new text node. -/
def createText (t : Tree) (content : String) : Tree × NodeId :=
  t.alloc (.text content)

/-- A new comment. -/
def createComment (t : Tree) (content : String) : Tree × NodeId :=
  t.alloc (.comment content)

/-! ## Lists of children -/

/-- Sets the neighbours of a run of siblings, the first of which has `previous` before it. -/
def linkRun (t : Tree) (previous : Option NodeId) : List NodeId → Tree
  | [] => t
  | n :: rest =>
    linkRun (t.modify n fun node => { node with previous, next := rest.head? }) (some n) rest

/-- Sets the neighbours of all children of a node to what the list of children says. -/
def relink (t : Tree) (parent : NodeId) : Tree :=
  t.linkRun none (t.children parent)

/-- Whether `child` can be put under `parent`: both exist, and `parent` does not lie in the part of
the tree that moves with `child`. The document node never moves. -/
def checkInsertable (t : Tree) (parent child : NodeId) : Except TreeError Unit :=
  if !t.contains parent then .error (.unknownNode parent)
  else if !t.contains child then .error (.unknownNode child)
  else if parent == child || t.isDescendantOf parent child || child == .document then
    .error (.cycle parent child)
  else .ok ()

/-- Takes a node out of the list of its parent's children. -/
def removeChild (t : Tree) (parent child : NodeId) : Except TreeError Tree :=
  if !t.contains parent then .error (.unknownNode parent)
  else if !(t.children parent).contains child then .error (.notAChild parent child)
  else
    let t := t.modify parent fun node => { node with children := node.children.erase child }
    let t := t.modify child fun node => { node with parent := none, previous := none, next := none }
    -- The list has lost a node, so its neighbours are now neighbours of each other.
    .ok (t.relink parent)

/-- Takes a node out of its parent's list, if it has a parent. -/
def detach (t : Tree) (n : NodeId) : Except TreeError Tree :=
  if !t.contains n then .error (.unknownNode n)
  else
    match t.parent? n with
    | some parent => t.removeChild parent n
    | none => .ok t

/-- Puts a free node last among the children of another. -/
def linkLast (t : Tree) (parent child : NodeId) : Tree :=
  let last := (t.children parent).getLast?
  let t := t.modify parent fun node => { node with children := node.children ++ [child] }
  let t := t.modify child fun node =>
    { node with parent := some parent, previous := last, next := none }
  match last with
  | some last => t.modify last fun node => { node with next := some child }
  | none => t

/-- Takes a node from where it is and puts it last among the children of another. -/
def append (t : Tree) (parent child : NodeId) : Except TreeError Tree := do
  t.checkInsertable parent child
  let t ← t.detach child
  return t.linkLast parent child

/-- Puts a free node among the children of another, in front of one of them. -/
def linkBefore (t : Tree) (parent child reference : NodeId) : Tree :=
  let t := t.modify parent fun node =>
    { node with
      children := node.children.insertIdx (node.children.idxOf reference) child }
  let t := t.modify child fun node => { node with parent := some parent }
  t.relink parent

/-- Takes a node from where it is and puts it in front of the child `reference` of another. If it is
`reference` itself, it is taken out first, and then there is no place to put it. -/
def insertBefore (t : Tree) (parent child reference : NodeId) : Attempt :=
  match t.checkInsertable parent child with
  | .error e => ⟨t, some e⟩
  | .ok () =>
    if t.parent? reference != some parent then ⟨t, some (.notAChild parent reference)⟩
    else
      match t.detach child with
      | .error e => ⟨t, some e⟩
      | .ok t =>
        -- `reference` is still in the list unless it is the node that was just taken out.
        if (t.children parent).contains reference then ⟨t.linkBefore parent child reference, none⟩
        else ⟨t, some (.notAChild parent reference)⟩

/-- Appends nodes one after the other, as far as that is possible. -/
def appendAll (t : Tree) (parent : NodeId) : List NodeId → Attempt
  | [] => ⟨t, none⟩
  | child :: rest =>
    match t.append parent child with
    | .ok t => t.appendAll parent rest
    | .error e => ⟨t, some e⟩

/-- Moves the children of one node, in order, to the end of the children of another. -/
def moveChildren (t : Tree) (source target : NodeId) : Attempt :=
  if !t.contains source then ⟨t, some (.unknownNode source)⟩
  else t.appendAll target (t.children source)

/-! ## Data of a node -/

/-- Changes what a node is, if it is an element. -/
def modifyElement (t : Tree) (n : NodeId) (f : Element → Element) : Tree :=
  t.modify n fun node =>
    match node.data with
    | .element element => { node with data := .element (f element) }
    | _ => node

/-- Sets an attribute of an element. -/
def setAttribute (t : Tree) (n : NodeId) (name value : String) : Except TreeError Tree :=
  if !t.contains n then .error (.unknownNode n)
  else if !t.isElement n then .error (.notAnElement n)
  else .ok (t.modifyElement n fun element =>
    { element with attributes := element.attributes.insert name value })

/-- Removes an attribute of a node, and gives the value that it had. -/
def removeAttribute (t : Tree) (n : NodeId) (name : String) : Tree × Option String :=
  (t.modifyElement n fun element =>
    { element with attributes := element.attributes.erase name }, t.attribute? n name)

/-- Gives an element another tag name. No other node has one. -/
def rename? (t : Tree) (n : NodeId) (tagName : String) : Option Tree :=
  if t.isElement n then some (t.modifyElement n fun element => { element with tagName }) else none

/-- Replaces the character data of a text or comment. No other node has any. -/
def setContent? (t : Tree) (n : NodeId) (content : String) : Option Tree :=
  match t.data? n with
  | some (.text _) => some (t.modify n fun node => { node with data := .text content })
  | some (.comment _) => some (t.modify n fun node => { node with data := .comment content })
  | _ => none

end Tree

end TreeQuery
