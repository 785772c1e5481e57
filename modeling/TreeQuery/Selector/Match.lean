import TreeQuery.NodeSet
import TreeQuery.Number.Bounded
import TreeQuery.Query.Settings
import TreeQuery.Selector.Parse
import TreeQuery.Tree.Walk

/-!
# Tests of single nodes

Whether a node passes a token, or all tokens of a group, by itself: its name, its id, its classes
and its attributes. Pseudo-classes look at lists of nodes and count as passed here.
-/

namespace TreeQuery

namespace Tree

/-- Whether a node is an element that has every one of the classes that points separate. -/
def hasClasses (t : Tree) (n : NodeId) (names : String) : Bool :=
  match t.element? n with
  | none => false
  | some element =>
    (names.toList.splitOnP (· == '.')).all fun name => element.classes.contains (String.ofList name)

end Tree

/-- Whether an attribute of the value `actual` compares as asked with the value `wanted`. -/
def Comparison.holds (comparison : Comparison) (actual wanted : List Char) : Bool :=
  match comparison with
  | present => true
  | equal => actual == wanted
  | startsWith => wanted.isPrefixOf actual
  | contains => Text.occursIn wanted actual
  | endsWith => wanted.isSuffixOf actual
  | word => (Text.words actual).contains wanted
  | dashed => actual == wanted || (wanted ++ ['-']).isPrefixOf actual

namespace Tree

/-- Whether a node is an element with an attribute that passes a test. -/
def passesTest (t : Tree) (n : NodeId) (test : AttributeTest) : Bool :=
  match t.attribute? n test.name with
  | none => false
  | some actual => test.comparison.holds actual.toList test.value.toList

/-- The next element sibling of a node, if it is accepted. -/
def adjacentSibling? (t : Tree) (n : NodeId) (accept : NodeId → Bool) : Option NodeId :=
  (t.nextElement? n).filter accept

/-- The later element siblings of a node that are accepted, nearest first. -/
def generalSiblings (t : Tree) (n : NodeId) (accept : NodeId → Bool) : List NodeId :=
  (t.followingElements n).filter accept

end Tree

/-- A type selector cut at its first bar. -/
def barParts? (name : String) : Option (String × String) :=
  (Text.splitOnce '|' name.toList).map fun parts => (String.ofList parts.1, String.ofList parts.2)

namespace Tree

/-- Whether an element passes a type selector other than `*`. -/
def passesTag (t : Tree) (settings : Settings) (element : Element) (name : String) : Bool :=
  match barParts? name with
  | some (qualifier, localName) => t.sameName element.tagName (qualifier ++ ":" ++ localName)
  | none =>
    if settings.namespaceAware then t.sameName element.localName name
    else t.sameName element.tagName name

end Tree

/-- The type code that a token asks for. The test `[nodeType=N]` looks at no attribute but at the
type of the node, whatever it is. -/
def Token.typeCode? : Token → Option Int64
  | attr test =>
    if test.name == "nodeType" && test.comparison == .equal then
      some (Bounded.read test.value.toList)
    else none
  | _ => none

namespace Tree

/-- Whether an element passes a token. -/
def elementPasses (t : Tree) (settings : Settings) (n : NodeId) (element : Element) :
    Token → Bool
  | .tag name => name == "*" || t.passesTag settings element name
  | .id name => (element.id?.getD "") == name
  | .classes names => t.hasClasses n names
  | .attr test => t.passesTest n test
  | .pseudoClass _ _ => true
  | .child | .descendant | .adjacent _ | .general _ => false

/-- Whether a node that is no element passes a token. No test of its attributes stops it. -/
def otherPasses : Token → Bool
  | .attr _ => true
  | _ => false

/-- Whether a node passes every one of the tokens. -/
def passesAll (t : Tree) (settings : Settings) (n : NodeId) (tokens : List Token) : Bool :=
  match t.data? n with
  | none => false
  | some data =>
    tokens.all fun token =>
      match token.typeCode? with
      | some code => code == Int64.ofNat data.code
      | none =>
        match data with
        | .element element => t.elementPasses settings n element token
        | _ => otherPasses token

end Tree

/-- A group without the combinator that leads to its first compound. -/
def Group.simpleTokens : Group → List Token
  | [] => []
  | token :: tokens => if token.isCombinator then tokens else token :: tokens

namespace Tree

/-- Whether a node passes the tokens of a group that is not empty. -/
def passesSelector (t : Tree) (settings : Settings) (n : NodeId) (selector : Selector) : Bool :=
  (selector.groups.filter fun group => !group.isEmpty).any fun group =>
    t.passesAll settings n group.simpleTokens

/-- Whether a node passes the test after `+` or `~`. An empty test is passed by every node. -/
def acceptsSibling (t : Tree) (settings : Settings) (sub : Selector) (n : NodeId) : Bool :=
  sub.groups.all List.isEmpty || t.passesSelector settings n sub

/-- The siblings of several nodes to which a sibling combinator leads. -/
def siblingsOf (t : Tree) (settings : Settings) (token : Token) (nodes : List NodeId) :
    List NodeId :=
  match token with
  | .adjacent sub =>
    let accept := t.acceptsSibling settings (Selector.parse sub)
    (NodeSet.ofList (nodes.filterMap fun n => t.adjacentSibling? n accept)).nodes
  | .general sub =>
    let accept := t.acceptsSibling settings (Selector.parse sub)
    (NodeSet.ofList (nodes.flatMap fun n => t.generalSiblings n accept)).nodes
  | _ => nodes

end Tree

end TreeQuery
