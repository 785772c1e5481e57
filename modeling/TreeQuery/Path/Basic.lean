/-!
# Location paths

A location path is a list of steps. Each step goes from a node along an axis, keeps the nodes that
pass a test of their names, and filters them by predicates from left to right.
-/

namespace TreeQuery

/-- The direction of a step. -/
inductive Axis where
  /-- To the children of the node. -/
  | child
  /-- To the children of the node and of each node below it, so that positions count per parent. -/
  | descendant
  /-- To the node itself. -/
  | self
  deriving DecidableEq, Repr

/-- A test of a node's name. -/
inductive NameTest where
  /-- Any element, and on the axis `self` any node. -/
  | any
  /-- An element of that tag name. -/
  | named (name : String)
  /-- An element of that local name. -/
  | localName (name : String)
  /-- An element with exactly that qualifier and that local name. -/
  | qualified (qualifier localName : String)
  deriving DecidableEq, Repr

/-- A filter of the nodes that a step has found so far. -/
inductive Predicate where
  /-- Keeps the elements that have the attribute. -/
  | hasAttribute (name : String)
  /-- Keeps the elements whose attribute has the value. -/
  | attributeIs (name value : String)
  /-- Keeps the node at that place, counted from 1. -/
  | position (k : Nat)
  deriving DecidableEq, Repr

/-- One step of a path. -/
structure Step where
  /-- The direction. -/
  axis : Axis
  /-- The test of names. -/
  test : NameTest
  /-- The filters, in the order of their use. -/
  predicates : List Predicate := []
  deriving DecidableEq, Repr

/-- A location path. -/
structure LocationPath where
  /-- Whether the path starts at the document node and not at the node that it is given. -/
  absolute : Bool := false
  /-- The steps from left to right. -/
  steps : List Step := []
  deriving DecidableEq, Repr

namespace LocationPath

/-- The path to the document node. -/
def root : LocationPath :=
  { absolute := true }

/-- The path with more steps at its end. -/
def join (path : LocationPath) (steps : List Step) : LocationPath :=
  { path with steps := path.steps ++ steps }

end LocationPath

/-! ## Text of a path -/

/-- The text of a test. -/
def NameTest.render : NameTest → String
  | any => "*"
  | named name => name
  | localName name => "*[local-name()='" ++ name ++ "']"
  | qualified qualifier name => qualifier ++ ":" ++ name

/-- The text of a predicate. -/
def Predicate.render : Predicate → String
  | hasAttribute name => "[@" ++ name ++ "]"
  | attributeIs name value => "[@" ++ name ++ "='" ++ value ++ "']"
  | position k => "[" ++ toString k ++ "]"

/-- What stands in front of a step. The first step of a relative path has no slash, or a point
before its two slashes. -/
def Axis.separator (leading : Bool) : Axis → String
  | child => if leading then "" else "/"
  | descendant => if leading then ".//" else "//"
  | self => if leading then "self::" else "/self::"

/-- The text of a step. -/
def Step.render (leading : Bool) (step : Step) : String :=
  step.axis.separator leading ++ step.test.render ++ String.join (step.predicates.map (·.render))

/-- The text of a path. -/
def LocationPath.render (path : LocationPath) : String :=
  match path.absolute, path.steps with
  | true, [] => "/"
  | false, [] => ""
  | absolute, step :: steps =>
    step.render (!absolute) ++ String.join (steps.map (·.render false))

end TreeQuery
