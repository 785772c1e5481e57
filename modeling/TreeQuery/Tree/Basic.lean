import TreeQuery.Text.AsciiCase
import TreeQuery.Text.Blank
import TreeQuery.Text.Occurrence
import TreeQuery.Tree.Attributes

/-!
# Trees

A tree is an arena of nodes. A node is known by its place in the arena, its `NodeId`, and never
leaves the arena: a node that is taken out of its parent's list merely has no parent. Node 0 is the
document node. Each node stores its parent, the list of its children, and its neighbours in its
parent's list; `Tree.Edit` keeps the four in agreement.
-/

namespace TreeQuery

/-- The place of a node in the arena. -/
abbrev NodeId :=
  Nat

/-- The document node. -/
abbrev NodeId.document : NodeId :=
  0

/-- The kind of markup that a tree stands for. -/
inductive Flavour where
  /-- HTML: names are compared without regard to ASCII case. -/
  | html
  /-- HTML in XML syntax. -/
  | xhtml
  /-- XML: names may carry a qualifier. -/
  | xml
  deriving DecidableEq, Repr, Inhabited

namespace Flavour

/-- Whether the case of names matters. -/
def caseSensitive : Flavour → Bool
  | html => false
  | xhtml | xml => true

/-- Whether a selector names elements by their local names. -/
def namespaceAware : Flavour → Bool
  | xml => true
  | html | xhtml => false

/-- The name of the flavour. -/
def name : Flavour → String
  | html => "html"
  | xhtml => "xhtml"
  | xml => "xml"

/-- The flavour of that name. -/
def ofName? : String → Option Flavour
  | "html" => some html
  | "xhtml" => some xhtml
  | "xml" => some xml
  | _ => none

/-- Whether an element's name is the name asked for. -/
def sameName (flavour : Flavour) (actual wanted : String) : Bool :=
  if flavour.caseSensitive then actual == wanted else Text.sameName actual wanted

end Flavour

/-- An element. -/
structure Element where
  /-- The tag name, qualifier included. -/
  tagName : String
  /-- The attributes. -/
  attributes : Attributes
  deriving DecidableEq, Inhabited

namespace Element

/-- The parts of the tag name before and after its first colon, if it has one. -/
def nameParts? (element : Element) : Option (String × String) :=
  (Text.splitOnce ':' element.tagName.toList).map fun parts =>
    (String.ofList parts.1, String.ofList parts.2)

/-- What stands before the first colon of the tag name, if it has one. -/
def qualifier? (element : Element) : Option String :=
  element.nameParts?.map (·.1)

/-- What stands after the first colon of the tag name, or the whole name if it has none. -/
def localName (element : Element) : String :=
  (element.nameParts?.map (·.2)).getD element.tagName

/-- The value of the attribute `id`. -/
def id? (element : Element) : Option String :=
  element.attributes.get? "id"

/-- The words of the attribute `class`, in order and with repetitions. -/
def classes (element : Element) : List String :=
  match element.attributes.get? "class" with
  | some value => (Text.words value.toList).map String.ofList
  | none => []

end Element

/-- What a node is. -/
inductive NodeData where
  /-- A document. -/
  | document
  /-- An element. -/
  | element (element : Element)
  /-- A run of character data. -/
  | text (content : String)
  /-- A comment. -/
  | comment (content : String)
  deriving DecidableEq, Inhabited

/-- The number by which the document object model knows the type of a node. -/
def NodeData.code : NodeData → Nat
  | element _ => 1
  | text _ => 3
  | comment _ => 8
  | document => 9

/-- A node and its links. -/
structure Node where
  /-- What the node is. -/
  data : NodeData
  /-- The parent, none for a node that stands free. -/
  parent : Option NodeId := none
  /-- The children in order. -/
  children : List NodeId := []
  /-- The neighbour before the node among its parent's children. -/
  previous : Option NodeId := none
  /-- The neighbour after the node among its parent's children. -/
  next : Option NodeId := none
  deriving DecidableEq, Inhabited

/-- A forest of nodes over the document node. -/
structure Tree where
  /-- The kind of markup. -/
  flavour : Flavour
  /-- The nodes, each at the place that is its `NodeId`. -/
  nodes : Array Node
  deriving DecidableEq, Inhabited

namespace Tree

/-- The tree that is the document node alone. -/
def empty (flavour : Flavour) : Tree :=
  ⟨flavour, #[{ data := .document }]⟩

/-- The number of nodes, attached or not. -/
def size (t : Tree) : Nat :=
  t.nodes.size

/-- Whether there is a node of that number. -/
def contains (t : Tree) (n : NodeId) : Bool :=
  n < t.size

/-- What a node is. -/
def data? (t : Tree) (n : NodeId) : Option NodeData :=
  t.nodes[n]?.map (·.data)

/-- The parent of a node. -/
def parent? (t : Tree) (n : NodeId) : Option NodeId :=
  t.nodes[n]?.bind (·.parent)

/-- The children of a node in order. -/
def children (t : Tree) (n : NodeId) : List NodeId :=
  (t.nodes[n]?.map (·.children)).getD []

/-- The neighbour before a node. -/
def previous? (t : Tree) (n : NodeId) : Option NodeId :=
  t.nodes[n]?.bind (·.previous)

/-- The neighbour after a node. -/
def next? (t : Tree) (n : NodeId) : Option NodeId :=
  t.nodes[n]?.bind (·.next)

/-- The element that a node is. -/
def element? (t : Tree) (n : NodeId) : Option Element :=
  match t.data? n with
  | some (.element element) => some element
  | _ => none

/-- The character data of a text node. -/
def text? (t : Tree) (n : NodeId) : Option String :=
  match t.data? n with
  | some (.text content) => some content
  | _ => none

/-- Whether a node is an element. -/
def isElement (t : Tree) (n : NodeId) : Bool :=
  (t.element? n).isSome

/-- Whether a node is a document. -/
def isDocument (t : Tree) (n : NodeId) : Bool :=
  match t.data? n with
  | some .document => true
  | _ => false

/-- The children of a node that are elements, in order. -/
def elementChildren (t : Tree) (n : NodeId) : List NodeId :=
  (t.children n).filter t.isElement

/-- The value of an attribute of an element. Other nodes have no attributes. -/
def attribute? (t : Tree) (n : NodeId) (name : String) : Option String :=
  (t.element? n).bind (·.attributes.get? name)

/-- Whether a node is an element with that attribute. -/
def hasAttribute (t : Tree) (n : NodeId) (name : String) : Bool :=
  (t.attribute? n name).isSome

/-- Whether an element's name is the name asked for, under the tree's rule for case. -/
def sameName (t : Tree) (actual wanted : String) : Bool :=
  t.flavour.sameName actual wanted

/-- The first element among the document node's children. -/
def documentElement? (t : Tree) : Option NodeId :=
  (t.children .document).find? t.isElement

/-- The first child of the document element that is a `body` or a `frameset`. -/
def body? (t : Tree) : Option NodeId :=
  t.documentElement?.bind fun top =>
    (t.children top).find? fun child =>
      match t.element? child with
      | some element =>
        Text.sameName element.tagName "body" || Text.sameName element.tagName "frameset"
      | none => false

/-- Whether a node may stand as the root of a tree of its own: a document, the document element, or
an `html` element of an HTML tree. -/
def isRoot (t : Tree) (n : NodeId) : Bool :=
  t.isDocument n || t.documentElement? == some n ||
    (!t.flavour.caseSensitive &&
      match t.element? n with
      | some element => Text.sameName element.tagName "html"
      | none => false)

end Tree

end TreeQuery
