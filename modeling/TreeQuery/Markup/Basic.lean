import TreeQuery.Tree.Edit

/-!
# Markup

A piece of markup as a value of its own: a node with its data and, in order, the markup of its
children. `Markup.build?` makes a tree of it, with the nodes numbered in document order, and
`Tree.markup?` gives the markup of a node of a tree.
-/

namespace TreeQuery

/-- A node together with all that lies below it. -/
inductive Markup where
  /-- A document. -/
  | document (children : List Markup)
  /-- An element. -/
  | element (tagName : String) (attributes : Attributes) (children : List Markup)
  /-- A run of character data. -/
  | text (content : String)
  /-- A comment. -/
  | comment (content : String)

namespace Markup

/-! ## From markup to a tree -/

mutual

/-- Puts markup last among the children of a node. A document cannot stand there. -/
def addTo? (t : Tree) (parent : NodeId) : Markup → Except TreeError Tree
  | document _ => .error .nestedDocument
  | element tagName attributes children => do
    let (t, n) := t.alloc (.element ⟨tagName, attributes⟩)
    let t ← addAllTo? t n children
    t.append parent n
  | text content =>
    let (t, n) := t.createText content
    t.append parent n
  | comment content =>
    let (t, n) := t.createComment content
    t.append parent n

/-- Puts pieces of markup, in order, last among the children of a node. -/
def addAllTo? (t : Tree) (parent : NodeId) : List Markup → Except TreeError Tree
  | [] => .ok t
  | piece :: pieces => do
    let t ← addTo? t parent piece
    addAllTo? t parent pieces

end

/-- What markup puts under the document node: a document its children, and another node itself. -/
def topLevel : Markup → List Markup
  | document children => children
  | piece => [piece]

/-- The tree of a piece of markup. -/
def build? (flavour : Flavour) (markup : Markup) : Except TreeError Tree :=
  addAllTo? (.empty flavour) .document markup.topLevel

end Markup

/-! ## From a tree to markup -/

/-- The markup of a node, for nodes nested at most `bound` deep. -/
def Tree.markupWithin? (t : Tree) : (bound : Nat) → NodeId → Except TreeError Markup
  | 0, n => .error (.unknownNode n)
  | bound + 1, n =>
    match t.data? n with
    | none => .error (.unknownNode n)
    | some .document => return .document (← (t.children n).mapM (t.markupWithin? bound))
    | some (.element element) =>
      return .element element.tagName element.attributes
        (← (t.children n).mapM (t.markupWithin? bound))
    | some (.text content) => return .text content
    | some (.comment content) => return .comment content

/-- The markup of a node. In a tree, no nodes nest deeper than there are nodes. -/
def Tree.markup? (t : Tree) (n : NodeId) : Except TreeError Markup :=
  t.markupWithin? (t.size + 1) n

end TreeQuery
