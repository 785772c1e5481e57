import TreeQuery.NodeSet
import TreeQuery.Path.Basic
import TreeQuery.Tree.Error
import TreeQuery.Tree.Walk

/-!
# Evaluation of a path

`Tree.evaluate` gives the nodes that a path leads to, each once. The nodes found from several nodes
are put in document order after each step. Those found from one node stay as the step lists them,
which for a step along `descendant` is parent by parent.
-/

namespace TreeQuery

namespace Tree

/-- Whether a node passes a test. On the axis `self` any node passes the test `any`; on the other
axes only elements pass. -/
def passes (t : Tree) (onSelf : Bool) (test : NameTest) (n : NodeId) : Bool :=
  match t.element? n with
  | none => onSelf && test == .any
  | some element =>
    match test with
    | .any => true
    | .named name => t.sameName element.tagName name
    | .localName name => t.sameName element.localName name
    | .qualified qualifier localName =>
      element.qualifier? == some qualifier && element.localName == localName

/-- The nodes that a predicate keeps. -/
def keep (t : Tree) (nodes : List NodeId) : Predicate → List NodeId
  | .position k => if k = 0 then [] else (nodes[k - 1]?).toList
  | .hasAttribute name => nodes.filter fun n => t.hasAttribute n name
  | .attributeIs name value => nodes.filter fun n => t.attribute? n name == some value

/-- The nodes that pass all predicates, from left to right. -/
def keepAll (t : Tree) (predicates : List Predicate) (nodes : List NodeId) : List NodeId :=
  predicates.foldl t.keep nodes

/-- The children of a node that a step selects. -/
def selectChildren (t : Tree) (step : Step) (n : NodeId) : List NodeId :=
  t.keepAll step.predicates ((t.children n).filter (t.passes false step.test))

/-- The nodes that a step selects from one node. -/
def select (t : Tree) (step : Step) (n : NodeId) : List NodeId :=
  match step.axis with
  | .self => if t.passes true step.test n then t.keepAll step.predicates [n] else []
  | .child => t.selectChildren step n
  | .descendant => (n :: t.descendants n).flatMap (t.selectChildren step)

/-- The nodes in document order, and after them those that do not hang from the document node, as
they are listed. -/
def sortNodes (t : Tree) (nodes : List NodeId) : List NodeId :=
  let order := t.documentOrder
  order.filter nodes.contains ++ nodes.filter fun n => !order.contains n

/-- The nodes that a step selects from any of several nodes. -/
def selectFrom (t : Tree) (step : Step) (nodes : List NodeId) : List NodeId :=
  let found := (NodeSet.ofList (nodes.flatMap (t.select step))).nodes
  -- From one node the nodes stay as the step lists them.
  if 1 < nodes.length && 1 < found.length then t.sortNodes found else found

/-- The nodes that steps lead to from several nodes. -/
def follow (t : Tree) : List Step → List NodeId → List NodeId
  | [], nodes => nodes
  | step :: steps, nodes => t.follow steps (t.selectFrom step nodes)

/-- The nodes that a path leads to. An absolute path starts at the document node and a relative one
at `context`, which must exist in either case. -/
def evaluate (t : Tree) (path : LocationPath) (context : NodeId) : Except TreeError (List NodeId) :=
  if !t.contains context then .error (.unknownNode context)
  else .ok (t.follow path.steps [if path.absolute then .document else context])

end Tree

end TreeQuery
