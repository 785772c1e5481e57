import TreeQuery.Tree.Basic

/-!
# Errors of tree operations

What can stop an operation on a tree, and the sentence that reports it.
-/

namespace TreeQuery

/-- What stopped an operation on a tree. -/
inductive TreeError where
  /-- There is no node of that number. -/
  | unknownNode (n : NodeId)
  /-- The second node is not among the children of the first. -/
  | notAChild (parent child : NodeId)
  /-- The first node would come to lie below itself if the second were put under it. -/
  | cycle (parent child : NodeId)
  /-- The walk upwards from the node does not end at the document node. -/
  | unrooted (n : NodeId)
  /-- The node is not an element. -/
  | notAnElement (n : NodeId)
  /-- A document stands below the top of the markup for a tree. -/
  | nestedDocument
  deriving DecidableEq, Repr

/-- A node as a message names it. -/
def NodeId.render (n : NodeId) : String :=
  "#" ++ toString n

/-- The sentence that reports an error. -/
def TreeError.message : TreeError → String
  | unknownNode n => "node " ++ NodeId.render n ++ " does not exist in this tree"
  | notAChild parent child =>
    "node " ++ NodeId.render child ++ " is not a child of " ++ NodeId.render parent
  | cycle parent child =>
    "inserting " ++ NodeId.render child ++ " under " ++ NodeId.render parent ++
      " would create a cycle"
  | unrooted n => "node " ++ NodeId.render n ++ " is not connected to the document"
  | notAnElement n => "node " ++ NodeId.render n ++ " is not an element"
  | nestedDocument => "invalid document: document node nested inside the tree"

end TreeQuery
