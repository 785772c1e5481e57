import TreeQuery.Path.Basic
import TreeQuery.Selector.Match

/-!
# Drafts of paths

A search reads a group token by token and turns as many tokens as it can into steps of a location
path. The steps drawn up so far, and the axis of a combinator that waits for its step, are a
`Draft`. A token for which paths have no words tells the search what to do in its place.
-/

namespace TreeQuery

/-- A path that is being drawn up. -/
structure Draft where
  /-- The steps so far. -/
  steps : List Step := []
  /-- The axis of a combinator that has no step yet. -/
  axis? : Option Axis := none
  deriving DecidableEq, Repr

namespace Draft

/-- Whether there is no step. An axis alone does not count. -/
def isEmpty (draft : Draft) : Bool :=
  draft.steps.isEmpty

/-- The draft with one step more, along the waiting axis, or on the node itself if none waits. -/
def addStep (draft : Draft) (test : NameTest) : Draft :=
  { steps := draft.steps ++ [{ axis := draft.axis?.getD .self, test }] }

/-- The steps with a predicate added to the last one. -/
def refineLast (predicate : Predicate) : List Step → List Step
  | [] => []
  | [step] => [{ step with predicates := step.predicates ++ [predicate] }]
  | step :: steps => step :: refineLast predicate steps

/-- The draft with a predicate added to its last step. Behind a combinator, and at the start, the
predicate gets a step of its own that any element passes. -/
def addPredicate (draft : Draft) (predicate : Predicate) : Draft :=
  let draft := if draft.axis?.isSome || draft.isEmpty then draft.addStep .any else draft
  { draft with steps := refineLast predicate draft.steps }

/-- The draft with a step that any element passes for the axis that waits, if one does. -/
def closeAxis (draft : Draft) : Draft :=
  if draft.axis?.isSome then draft.addStep .any else draft

/-- The draft without the axis that waits. -/
def clearAxis (draft : Draft) : Draft :=
  { draft with axis? := none }

end Draft

/-- A test of single nodes that follows the evaluation of a draft. -/
inductive Narrowing where
  /-- The node has the classes. -/
  | classes (names : String)
  /-- The node passes the test of an attribute. -/
  | attr (test : AttributeTest)
  deriving DecidableEq, Repr

/-- What a search does about a token. -/
inductive Outcome where
  /-- The token is in the draft. -/
  | structural
  /-- Evaluate the draft, then keep the nodes that pass the test. -/
  | narrow (narrowing : Narrowing)
  /-- Evaluate the draft, then turn to the token. -/
  | procedural
  /-- Skip the token. -/
  | unrecognized
  deriving DecidableEq, Repr

/-- Whether a node passes the test. -/
def Narrowing.holds (t : Tree) (n : NodeId) : Narrowing → Bool
  | classes names => t.hasClasses n names
  | attr test => t.passesTest n test

/-- Whether a text is a type selector: `*`, or a name with bars and hyphens. -/
def isTypeSelector (name : String) : Bool :=
  name == "*" ||
    (!name.isEmpty && name.toList.all fun c => Selector.isWordChar c || c == '|' || c == '-')

/-- The test of names that a type selector asks for. -/
def NameTest.ofTag (settings : Settings) (name : String) : NameTest :=
  if name == "*" then .any
  else
    match barParts? name with
    | some (qualifier, name) =>
      if settings.namespaceAware then .qualified qualifier name
      else .named (qualifier ++ ":" ++ name)
    | none => if settings.namespaceAware then .localName name else .named name

/-- Takes a token into a draft as far as paths have words for it. -/
def Draft.add (settings : Settings) (draft : Draft) : Token → Outcome × Draft
  | .tag name =>
    if isTypeSelector name then (.structural, draft.addStep (.ofTag settings name))
    else (.unrecognized, draft)
  | .id name => (.structural, draft.addPredicate (.attributeIs "id" name))
  | .child => (.structural, { draft with axis? := some .child })
  | .descendant => (.structural, { draft with axis? := some .descendant })
  | .attr test =>
    match test.comparison with
    | .present => (.structural, draft.addPredicate (.hasAttribute test.name))
    | .equal => (.structural, draft.addPredicate (.attributeIs test.name test.value))
    | _ => (.narrow (.attr test), draft.addPredicate (.hasAttribute test.name))
  | .classes names => (.narrow (.classes names), draft.addPredicate (.hasAttribute "class"))
  | .adjacent _ | .general _ | .pseudoClass _ _ => (.procedural, draft)

end TreeQuery
