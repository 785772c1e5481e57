import TreeQuery.Path.Basic
import TreeQuery.Tree.Error
import TreeQuery.Tree.Walk

/-!
# Positional paths

The path from the document node to an element that gives, for each element on the way, its name and
its place among the siblings of that name, such as `/html[1]/body[1]/div[3]`.
-/

namespace TreeQuery.Tree

/-- The place of an element among its siblings of the same name, counted from 1. -/
def positionOf (t : Tree) (n : NodeId) (element : Element) : Nat :=
  1 + ((t.precedingSiblings n).filter fun sibling =>
    match t.element? sibling with
    | some other => t.sameName other.tagName element.tagName
    | none => false).length

/-- The step from its parent to an element. -/
def positionalStep (t : Tree) (n : NodeId) (element : Element) : Step :=
  { axis := .child
    test := .named element.tagName
    predicates := [.position (t.positionOf n element)] }

/-- Climbs from `n` along `chain`, the node where the climb stands and all above it, to the document
node. `steps` lead from where the climb stands down to `n`. -/
def climb (t : Tree) (n : NodeId) : (chain : List NodeId) → (steps : List Step) →
    Except TreeError (List Step)
  | [], _ => .error (.unrooted n)
  | current :: above, steps =>
    if t.isDocument current then
      -- A document other than node 0 is the root of a tree that no path leads into.
      if current = .document then .ok steps else .error (.unrooted n)
    else
      match t.element? current with
      | none => .error (.notAnElement current)
      | some element => t.climb n above (t.positionalStep current element :: steps)

/-- The positional path of a node. -/
def positionalPath (t : Tree) (n : NodeId) : Except TreeError LocationPath :=
  if !t.contains n then .error (.unknownNode n)
  else (t.climb n (n :: t.ancestors n) []).map LocationPath.root.join

end TreeQuery.Tree
