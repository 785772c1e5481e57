import TreeQuery.Number.Piece
import TreeQuery.Number.Progression
import TreeQuery.Selector.Match
import TreeQuery.Text.Lowercase

/-!
# Pseudo-classes

A pseudo-class narrows a list of nodes. Some look at each node by itself (`holds`), some at the
places of the nodes in the list (`byPlace?`), and two run a nested selector, which is the business
of the search.
-/

namespace TreeQuery

/-- The pseudo-classes. -/
inductive PseudoClass where
  /-- Even places in the list, counted from 0. -/
  | even
  /-- Odd places in the list. -/
  | odd
  /-- One place in the list. -/
  | eq
  /-- The places after a given one. -/
  | gt
  /-- The places up to a given one. -/
  | lt
  /-- The first place. -/
  | first
  /-- The last place. -/
  | last
  /-- Nodes whose text contains a text, without regard to case. -/
  | contains
  /-- Nodes that a selector does not keep. -/
  | not
  /-- A piece of the list. -/
  | slice
  /-- Elements below which a selector finds something. -/
  | has
  /-- Elements at certain places among their siblings. -/
  | nthChild
  /-- Submit buttons. -/
  | submit
  /-- Reset buttons. -/
  | reset
  /-- Input elements. -/
  | input
  /-- Password fields. -/
  | password
  /-- Check boxes. -/
  | checkbox
  /-- Radio buttons. -/
  | radio
  /-- Hidden inputs. -/
  | hidden
  /-- Image inputs. -/
  | image
  /-- File inputs. -/
  | file
  /-- Elements with children. -/
  | parent
  /-- Nodes other than elements, and elements without children. -/
  | empty
  /-- Elements with no element before them. -/
  | firstChild
  /-- Elements with no element after them. -/
  | lastChild
  /-- Elements with no element beside them. -/
  | onlyChild
  /-- Headings. -/
  | header
  /-- Elements that are disabled. -/
  | disabled
  /-- Elements that are checked. -/
  | checked
  /-- Elements that are selected. -/
  | selected
  /-- Elements that are not disabled. -/
  | enabled
  deriving DecidableEq, Repr

namespace PseudoClass

/-- All pseudo-classes. -/
def all : List PseudoClass :=
  [even, odd, eq, gt, lt, first, last, contains, not, slice, has, nthChild, submit, reset, input,
    password, checkbox, radio, hidden, image, file, parent, empty, firstChild, lastChild,
    onlyChild, header, disabled, checked, selected, enabled]

/-- The name of a pseudo-class in a selector. -/
def name : PseudoClass → String
  | even => "even"
  | odd => "odd"
  | eq => "eq"
  | gt => "gt"
  | lt => "lt"
  | first => "first"
  | last => "last"
  | contains => "contains"
  | not => "not"
  | slice => "slice"
  | has => "has"
  | nthChild => "nth-child"
  | submit => "submit"
  | reset => "reset"
  | input => "input"
  | password => "password"
  | checkbox => "checkbox"
  | radio => "radio"
  | hidden => "hidden"
  | image => "image"
  | file => "file"
  | parent => "parent"
  | empty => "empty"
  | firstChild => "first-child"
  | lastChild => "last-child"
  | onlyChild => "only-child"
  | header => "header"
  | disabled => "disabled"
  | checked => "checked"
  | selected => "selected"
  | enabled => "enabled"

/-- The pseudo-class of a name. -/
def ofName? (name : String) : Option PseudoClass :=
  all.find? fun pseudoClass => pseudoClass.name == name

/-! ## Places in the list -/

/-- The nodes at the places that pass a test. -/
def keepPlaces (test : Nat → Bool) (nodes : List NodeId) : List NodeId :=
  (nodes.zipIdx.filter fun entry => test entry.2).map (·.1)

/-- The text with one space less behind each comma that has a space behind it. -/
def tightenCommas : List Char → List Char
  | [] => []
  | ',' :: ' ' :: cs => ',' :: tightenCommas cs
  | c :: cs => c :: tightenCommas cs

/-- The piece of a list whose start and end a text gives, with a comma between them. -/
def sliceOf (nodes : List NodeId) (argument : List Char) : List NodeId :=
  match (tightenCommas argument).splitOnP (· == ',') with
  | start :: stop :: _ => pieceBetween nodes (Bounded.read start) (some (Bounded.read stop))
  | [start] => pieceBetween nodes (Bounded.read start) none
  | [] => nodes

/-- What a pseudo-class keeps that looks at the places in the list and at nothing else. -/
def byPlace? (argument : List Char) (nodes : List NodeId) : PseudoClass → Option (List NodeId)
  | even => some (keepPlaces (· % 2 == 0) nodes)
  | odd => some (keepPlaces (· % 2 == 1) nodes)
  | eq =>
    let place := Bounded.read argument
    some (if place < 0 then [] else (nodes[place.toNatClampNeg]?).toList)
  | gt => some (piece nodes (Bounded.saturatingAdd (Bounded.read argument) 1) none)
  -- The node at the place itself counts as before it.
  | lt => some (piece nodes 0 (some (Bounded.saturatingAdd (Bounded.read argument) 1)))
  | first => some nodes.head?.toList
  | last => some nodes.getLast?.toList
  | slice => some (sliceOf nodes argument)
  | _ => none

/-! ## Single nodes -/

/-- Whether a node is an element of that name. -/
def isTag (t : Tree) (n : NodeId) (name : String) : Bool :=
  match t.element? n with
  | some element => t.sameName element.tagName name
  | none => false

/-- Whether a node is an input element whose type has that name. -/
def isInputOf (t : Tree) (n : NodeId) (type : String) : Bool :=
  isTag t n "input" && t.attribute? n "type" == some type

/-- Whether a node is an input element or a button whose type has that name. -/
def isButtonOf (t : Tree) (n : NodeId) (type : String) : Bool :=
  (isTag t n "input" || isTag t n "button") && t.attribute? n "type" == some type

/-- Whether a text is part of a node's text, without regard to case. -/
def hasText (t : Tree) (n : NodeId) (argument : List Char) : Bool :=
  argument.isEmpty ||
    Text.occursIn (Text.lowercase argument) (Text.lowercase (t.textContent n).toList)

/-- Whether a node passes a pseudo-class that looks at each node by itself. The others keep every
node as far as this test goes. -/
def holds (settings : Settings) (t : Tree) (argument : List Char) (n : NodeId) :
    PseudoClass → Bool
  | contains => hasText t n argument
  | submit => isButtonOf t n "submit"
  | reset => isButtonOf t n "reset"
  | input => isTag t n "input"
  | password => isInputOf t n "password"
  | checkbox => isInputOf t n "checkbox"
  | radio => isInputOf t n "radio"
  | hidden => isInputOf t n "hidden"
  | image => isInputOf t n "image"
  | file => isInputOf t n "file"
  | parent => t.isElement n && !(t.children n).isEmpty
  | empty => !t.isElement n || (t.children n).isEmpty
  | firstChild => t.isElement n && (t.previousElement? n).isNone
  | lastChild => t.isElement n && (t.nextElement? n).isNone
  | onlyChild => t.isElement n && (t.previousElement? n).isNone && (t.nextElement? n).isNone
  | header =>
    match t.element? n with
    | some element => settings.isHeader element.localName
    | none => false
  | disabled => t.hasAttribute n "disabled"
  | checked => t.hasAttribute n "checked"
  | selected => t.hasAttribute n "selected"
  | enabled => t.isElement n && !t.hasAttribute n "disabled"
  | even | odd | eq | gt | lt | first | last | not | slice | has | nthChild => true

/-- The place of a node among the elements of its parent, counted from 1. -/
def placeAmongElements (t : Tree) (n : NodeId) : Nat :=
  (t.precedingElements n).length + 1

/-- Whether a node is an element whose place among its siblings is in a progression. -/
def isNthChild (t : Tree) (progression : Progression) (n : NodeId) : Bool :=
  t.isElement n && progression.contains (Int64.ofNat (placeAmongElements t n))

/-- The argument of a pseudo-class without blanks and quotes around it. -/
def argumentOf (argument : Option String) : List Char :=
  match argument with
  | some text => Text.unquote (Text.trim text.toList)
  | none => []

end PseudoClass

end TreeQuery
