import TreeQuery.Tree.Basic

/-!
# Walks

The nodes above, beside and below a node, each in the order in which a walk along the links meets
them. A walk in a tree meets no node twice, so it takes no more steps than there are nodes; that
number bounds the walks here. The steps of the walks stand by themselves too, as iterators that
nothing bounds.
-/

namespace TreeQuery.Tree

/-! ## Walks within a bound -/

/-- The nodes met by following `step` from `start`, for at most `bound` steps. -/
def chase (step : NodeId → Option NodeId) : (bound : Nat) → (start : Option NodeId) → List NodeId
  | 0, _ | _, none => []
  | bound + 1, some n => n :: chase step bound (step n)

/-- The ancestors of a node, from its parent upwards. -/
def ancestors (t : Tree) (n : NodeId) : List NodeId :=
  chase t.parent? t.size (t.parent? n)

/-- The siblings before a node, nearest first. -/
def precedingSiblings (t : Tree) (n : NodeId) : List NodeId :=
  chase t.previous? t.size (t.previous? n)

/-- The siblings after a node, nearest first. -/
def followingSiblings (t : Tree) (n : NodeId) : List NodeId :=
  chase t.next? t.size (t.next? n)

/-- The nodes met in pre-order from a stack of nodes still to visit, for at most `bound` nodes. -/
def visit (t : Tree) : (bound : Nat) → (stack : List NodeId) → List NodeId
  | 0, _ | _, [] => []
  | bound + 1, n :: stack => n :: visit t bound (t.children n ++ stack)

/-- The nodes below a node in document order. -/
def descendants (t : Tree) (n : NodeId) : List NodeId :=
  t.visit t.size (t.children n)

/-! ## Steps of a walk

A walk whose bound is left out is an iterator: a state, and a step that gives a node and the next
state, or nothing at the end. -/

/-- The iterator that follows a link: it gives the node at hand and goes on to where the link
leads. -/
def along (link : NodeId → Option NodeId) (current : Option NodeId) :
    Option (NodeId × Option NodeId) :=
  current.map fun n => (n, link n)

/-- The iterator over what lies below a node: it takes the topmost node off the stack, gives it, and
puts its children in its place. -/
def unstack (t : Tree) : List NodeId → Option (NodeId × List NodeId)
  | [] => none
  | n :: stack => some (n, t.children n ++ stack)

/-! ## What the walks tell -/

/-- Whether a node lies below another. -/
def isDescendantOf (t : Tree) (n ancestor : NodeId) : Bool :=
  (t.ancestors n).contains ancestor

/-- The topmost of a node and its ancestors. -/
def top (t : Tree) (n : NodeId) : NodeId :=
  (t.ancestors n).getLastD n

/-- The nodes that hang from the document node, itself first, in document order. -/
def documentOrder (t : Tree) : List NodeId :=
  .document :: t.descendants .document

/-- The character data of a text or comment, and of another node that of the texts below it. -/
def textContent (t : Tree) (n : NodeId) : String :=
  match t.data? n with
  | some (.text content) | some (.comment content) => content
  | some (.element _) | some .document => String.join ((t.descendants n).filterMap t.text?)
  | none => ""

/-- The element siblings before a node, nearest first. -/
def precedingElements (t : Tree) (n : NodeId) : List NodeId :=
  (t.precedingSiblings n).filter t.isElement

/-- The element siblings after a node, nearest first. -/
def followingElements (t : Tree) (n : NodeId) : List NodeId :=
  (t.followingSiblings n).filter t.isElement

/-- The nearest element sibling before a node. -/
def previousElement? (t : Tree) (n : NodeId) : Option NodeId :=
  (t.precedingSiblings n).find? t.isElement

/-- The nearest element sibling after a node. -/
def nextElement? (t : Tree) (n : NodeId) : Option NodeId :=
  (t.followingSiblings n).find? t.isElement

end TreeQuery.Tree
