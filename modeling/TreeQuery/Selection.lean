import TreeQuery.Query.Search

/-!
# Selections

A selection is a list of nodes, each once, together with the selection that it was derived from.
Every operation gives a new selection and leaves the old one as it was, so `back` can always return
to it.
-/

namespace TreeQuery

/-- A list of nodes with the history that led to it. -/
inductive Selection where
  /-- Nodes without a history. -/
  | start (nodes : List NodeId)
  /-- Nodes that were derived from an earlier selection, and the nodes that it had. -/
  | derived (nodes backup : List NodeId) (previous : Selection)
  deriving DecidableEq, Repr

namespace Selection

/-- The nodes in order. -/
def nodes : Selection → List NodeId
  | start nodes => nodes
  | derived nodes _ _ => nodes

/-- The selection that this one was derived from. -/
def previous? : Selection → Option Selection
  | start _ => none
  | derived _ _ previous => some previous

/-- The nodes that were selected before this selection was derived, none at the start. -/
def backup : Selection → List NodeId
  | start _ => []
  | derived _ backup _ => backup

/-- How many selections lie behind this one. -/
def depth : Selection → Nat
  | start _ => 0
  | derived _ _ previous => previous.depth + 1

/-- The selection of the document node. -/
def root : Selection :=
  start [.document]

/-- The selection of the nodes of a list, each once. -/
def ofNodes (nodes : List NodeId) : Selection :=
  start (NodeSet.ofList nodes).nodes

/-- The selection of other nodes that follows this one. -/
def derive (selection : Selection) (nodes : List NodeId) : Selection :=
  derived nodes selection.nodes selection

/-! ## Searching -/

/-- Whether a text has nothing but blanks. -/
def isBlankText (text : String) : Bool :=
  (Text.trim text.toList).isEmpty

/-- What a selector finds from any nodes. -/
def findFrom (settings : Settings) (selector : String) (context : List NodeId)
    (selection : Selection) : Query Selection := do
  let found ← Query.find settings (Selector.parse selector) context
  return selection.derive found

/-- What a selector finds from the selected nodes. -/
def find (settings : Settings) (selector : String) (selection : Selection) : Query Selection :=
  selection.findFrom settings selector selection.nodes

/-- The selected nodes and then what a selector finds in the document. A blank selector adds
nothing. -/
def add (settings : Settings) (selector : String) (selection : Selection) : Query Selection := do
  if isBlankText selector then return selection.derive selection.nodes
  else
    let found ← Query.find settings (Selector.parse selector) [.document]
    return selection.derive ((NodeSet.ofList selection.nodes).insertAll found).nodes

/-- The selected nodes that a selector keeps. -/
def filter (settings : Settings) (selector : String) (selection : Selection) :
    Query Selection := do
  let kept ← Query.keep settings (Selector.parse selector) selection.nodes
  return selection.derive kept

/-- The selected nodes that pass a test of their place and of the node. -/
def filterBy (test : Nat → NodeId → Bool) (selection : Selection) : Selection :=
  selection.derive ((selection.nodes.zipIdx.filter fun entry => test entry.2 entry.1).map (·.1))

/-- The selected nodes that are not in a list. -/
def without (nodes : List NodeId) (selection : Selection) : Selection :=
  selection.filterBy fun _ n => !nodes.contains n

/-- The selected nodes that a selector does not keep. -/
def exclude (settings : Settings) (selector : String) (selection : Selection) :
    Query Selection := do
  let kept ← Query.keep settings (Selector.parse selector) selection.nodes
  return selection.without kept

/-- Whether a selector keeps any of the selected nodes. -/
def isAny (settings : Settings) (selector : String) (selection : Selection) : Query Bool := do
  let kept ← Query.keep settings (Selector.parse selector) selection.nodes
  return !kept.isEmpty

/-! ## Places -/

/-- The node at a place, counted from 0. -/
def nth (place : Nat) (selection : Selection) : Selection :=
  selection.derive selection.nodes[place]?.toList

/-- The first node. -/
def first (selection : Selection) : Selection :=
  selection.derive selection.nodes.head?.toList

/-- The last node. -/
def last (selection : Selection) : Selection :=
  selection.derive selection.nodes.getLast?.toList

/-- The nodes from one index up to another. -/
def slice (start : Int64) (stop : Option Int64) (selection : Selection) : Selection :=
  selection.derive (pieceBetween selection.nodes start stop)

/-- The nodes in reverse order. -/
def reverse (selection : Selection) : Selection :=
  selection.derive selection.nodes.reverse

/-! ## Walks in the tree -/

/-- The selection of nodes that a walk has met, or of those that a selector keeps, if one is given
that is not blank. -/
def refine (settings : Settings) (selector? : Option String) (found : List NodeId)
    (selection : Selection) : Query Selection := do
  match selector? with
  | some selector =>
    if isBlankText selector then return selection.derive found
    else
      let kept ← Query.keep settings (Selector.parse selector) found
      return selection.derive kept
  | none => return selection.derive found

/-- The nodes that a step from each selected node meets, each once, refined by a selector. -/
def walk (settings : Settings) (step : Tree → NodeId → List NodeId) (selector? : Option String)
    (selection : Selection) : Query Selection := do
  let t ← Query.tree
  selection.refine settings selector? (NodeSet.ofList (selection.nodes.flatMap (step t))).nodes

/-- The children that are elements. -/
def children (settings : Settings) : Option String → Selection → Query Selection :=
  walk settings Tree.elementChildren

/-- All children, text and comments included. -/
def contents (selection : Selection) : Query Selection := do
  let t ← Query.tree
  return selection.derive (NodeSet.ofList (selection.nodes.flatMap t.children)).nodes

/-- The parents. -/
def parent (settings : Settings) : Option String → Selection → Query Selection :=
  walk settings fun t n => (t.parent? n).toList

/-- The ancestors below the first one that may stand as a root. -/
def parents (settings : Settings) : Option String → Selection → Query Selection :=
  walk settings fun t n => (t.ancestors n).takeWhile fun ancestor => !t.isRoot ancestor

/-- The element siblings: first those before any of the nodes, then those after any. -/
def siblings (settings : Settings) (selector? : Option String) (selection : Selection) :
    Query Selection := do
  let t ← Query.tree
  let before := selection.nodes.flatMap t.precedingElements
  let after := selection.nodes.flatMap t.followingElements
  selection.refine settings selector? (NodeSet.ofList (before ++ after)).nodes

/-- The next element siblings. -/
def next (settings : Settings) : Option String → Selection → Query Selection :=
  walk settings fun t n => (t.nextElement? n).toList

/-- The previous element siblings. -/
def prev (settings : Settings) : Option String → Selection → Query Selection :=
  walk settings fun t n => (t.previousElement? n).toList

/-- All later element siblings. -/
def nextAll (settings : Settings) : Option String → Selection → Query Selection :=
  walk settings Tree.followingElements

/-- All earlier element siblings, nearest first. -/
def prevAll (settings : Settings) : Option String → Selection → Query Selection :=
  walk settings Tree.precedingElements

/-! ## History -/

/-- The selection that this one was derived from, or this one if there is none. -/
def back (selection : Selection) : Selection :=
  selection.previous?.getD selection

/-- The selected nodes and then those of the selection that this one was derived from. -/
def andBack (selection : Selection) : Selection :=
  let earlier := (selection.previous?.map nodes).getD []
  selection.derive ((NodeSet.ofList selection.nodes).insertAll earlier).nodes

/-! ## Reading -/

/-- The place of a node, counted from 0. -/
def indexOf? (n : NodeId) (selection : Selection) : Option Nat :=
  selection.nodes.idxOf? n

/-- The text of all nodes, one behind the other. -/
def text (t : Tree) (selection : Selection) : String :=
  String.join (selection.nodes.map t.textContent)

/-- An attribute of the first node. -/
def attribute? (t : Tree) (name : String) (selection : Selection) : Option String :=
  selection.nodes.head?.bind fun n => t.attribute? n name

/-- Whether any of the nodes has the classes. -/
def hasClass (t : Tree) (names : String) (selection : Selection) : Bool :=
  selection.nodes.any fun n => t.hasClasses n names

/-- A short description of each node. -/
def describe (t : Tree) (selection : Selection) : List String :=
  selection.nodes.map t.describe

/-- The descriptions of the nodes in brackets. -/
def render (t : Tree) (selection : Selection) : String :=
  "[" ++ ", ".intercalate (selection.describe t) ++ "]"

end Selection

end TreeQuery
