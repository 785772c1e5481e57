import TreeQuery.Json.Reader
import TreeQuery.Json.Writer
import TreeQuery.Markup.Basic

/-!
# Markup as JSON text

A node is written as an object whose member `type` tells what it is:

    {"type":"element","tagName":"li","attributes":{"class":"a"},
     "children":[{"type":"text","content":"1"}]}

It may also be read from an array that holds the type and then the other parts in this order, of
which those that may be missing can be left out at the end. Members of other names are skipped, but
every part of the text must denote a value, and arrays and objects may nest 127 deep. A tree is
written and read as the markup of its nodes (`Tree.exportText?`, `Tree.parse?`).
-/

namespace TreeQuery.Markup

/-- How deep arrays and objects may nest in the text of a piece of markup. -/
def maxDepth : Nat :=
  127

/-! ## Writing -/

/-- The member that lists children, left out if there are none. -/
def childrenMember (children : List Json) : List (String × Json) :=
  if children.isEmpty then [] else [("children", .array children)]

mutual

/-- The JSON value of a piece of markup. -/
def toJson : Markup → Json
  | document children =>
    .object (("type", .string "document") :: childrenMember (allToJson children))
  | element tagName attributes children =>
    .object (("type", .string "element") :: ("tagName", .string tagName) ::
      ("attributes", .object (attributes.bindings.map fun b => (b.1, .string b.2))) ::
      childrenMember (allToJson children))
  | text content => .object [("type", .string "text"), ("content", .string content)]
  | comment content => .object [("type", .string "comment"), ("content", .string content)]

/-- The JSON values of pieces of markup. -/
def allToJson : List Markup → List Json
  | [] => []
  | piece :: pieces => piece.toJson :: allToJson pieces

end

/-! ## Reading -/

/-- What a node is, without its data. -/
inductive Tag where
  /-- A document. -/
  | document
  /-- An element. -/
  | element
  /-- A run of character data. -/
  | text
  /-- A comment. -/
  | comment
  deriving DecidableEq, Repr

/-- The tag that a value of the member `type` names. Below the top, a tag may also be given by its
place in the list of tags. -/
def Tag.ofJson? (nested : Bool) : Json → Option Tag
  | .string "document" => some document
  | .string "element" => some element
  | .string "text" => some text
  | .string "comment" => some comment
  | .number n => if nested then n.toNat?.bind ([document, element, text, comment][·]?) else none
  | _ => none

/-- The binding that a member of an object gives. -/
def binding? (member : String × Json) : Option (String × String) :=
  member.2.string?.map fun value => (member.1, value)

/-- The attributes that a value lists. If a name is repeated, its last value counts. -/
def attributes? : Json → Option Attributes
  | .object members => (members.mapM binding?).map .ofList
  | _ => none

/-- A node read from its tag and its parts, each of which may be missing. -/
def assemble? (tag : Tag) (tagName attributes content : Option Json)
    (children : Option (Option (List Markup))) : Option Markup :=
  match tag with
  | .document => (children.getD (some [])).map document
  | .element => do
    let tagName ← tagName.bind Json.string?
    let attributes ← (attributes.map attributes?).getD (some .empty)
    let children ← children.getD (some [])
    return element tagName attributes children
  | .text => (content.bind Json.string?).map text
  | .comment => (content.bind Json.string?).map comment

/-- Whether a list gives at most one of each part that a node of that tag has. -/
def partsOnce (tag : Tag) (names : List String) : Bool :=
  let parts :=
    match tag with
    | .document => ["children"]
    | .element => ["tagName", "attributes", "children"]
    | .text | .comment => ["content"]
  ("type" :: parts).all fun part => names.count part ≤ 1

mutual

/-- The markup that a JSON value gives, without regard to nesting. -/
def ofJson? (nested : Bool) : Json → Option Markup
  | .object members => do
    -- The tag decides which members are parts of the node; the others are skipped.
    let tag ← (members.lookup "type").bind (Tag.ofJson? nested)
    if partsOnce tag (members.map (·.1)) then
      assemble? tag (members.lookup "tagName") (members.lookup "attributes")
        (members.lookup "content") (childrenOf? members)
    else none
  | .array (tag :: parts) => do
    let tag ← Tag.ofJson? nested tag
    match tag, parts with
    | .document, [] => some (document [])
    | .document, [children] => (listOf? children).map document
    | .element, [tagName] => assemble? tag (some tagName) none none none
    | .element, [tagName, attributes] => assemble? tag (some tagName) (some attributes) none none
    | .element, [tagName, attributes, children] =>
      assemble? tag (some tagName) (some attributes) none (some (listOf? children))
    | .text, [content] => assemble? tag none none (some content) none
    | .comment, [content] => assemble? tag none none (some content) none
    | _, _ => none
  | _ => none

/-- The children that the member `children` lists, if there is such a member. -/
def childrenOf? : List (String × Json) → Option (Option (List Markup))
  | [] => none
  | (name, value) :: members =>
    if name == "children" then some (listOf? value) else childrenOf? members

/-- The pieces of markup that an array holds. -/
def listOf? : Json → Option (List Markup)
  | .array items => allOf? items
  | _ => none

/-- The pieces of markup that JSON values give. -/
def allOf? : List Json → Option (List Markup)
  | [] => some []
  | item :: items => do
    let piece ← ofJson? true item
    let pieces ← allOf? items
    return piece :: pieces

end

/-- The markup that a text gives. -/
def read? (text : String) : Option Markup := do
  let value ← Json.read? text.toList
  if value.isReadable && value.depth ≤ maxDepth then ofJson? false value else none

end TreeQuery.Markup

namespace TreeQuery.Tree

/-! ## Trees as text -/

/-- The text of a node, with what lies below it. -/
def exportText? (t : Tree) (n : NodeId) : Except TreeError String :=
  (t.markup? n).map fun piece => piece.toJson.compact

/-- The tree that a text gives. -/
def parse? (flavour : Flavour) (text : String) : Option Tree :=
  (Markup.read? text).bind fun piece => (piece.build? flavour).toOption

end TreeQuery.Tree
