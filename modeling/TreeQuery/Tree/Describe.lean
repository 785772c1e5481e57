import TreeQuery.Tree.Error

/-!
# Short descriptions of nodes

One line that tells a reader which node is meant, such as `li#main.item.active[name="x"]` or
`Text:hello`.
-/

namespace TreeQuery

/-- The number of characters of a text that a description shows. -/
def shownLength : Nat :=
  15

/-- An attribute with the start of its value, left out if the value is empty. -/
def Element.describeValue (element : Element) (name : String) : String :=
  match element.attributes.get? name with
  | some value =>
    if value.isEmpty then ""
    else
      let shown := (value.toList.filter (· != '\n')).take shownLength
      "[" ++ name ++ "=\"" ++ String.ofList shown ++ "\"]"
  | none => ""

/-- An attribute that stands for a state, if it is there. -/
def Element.describeState (element : Element) (name : String) : String :=
  if element.attributes.contains name then "[" ++ name ++ "]" else ""

/-- The tag name, the id and the classes of an element, and the attributes that tell form controls
apart. -/
def Element.describe (element : Element) : String :=
  let id :=
    match element.id? with
    | some id => if id.isEmpty then "" else "#" ++ id
    | none => ""
  element.tagName ++ id ++ String.join (element.classes.map ("." ++ ·)) ++
    element.describeValue "name" ++ element.describeValue "value" ++
    element.describeState "selected" ++ element.describeState "checked"

/-- A short description of a node. -/
def Tree.describe (t : Tree) (n : NodeId) : String :=
  match t.data? n with
  | some (.element element) => element.describe
  | some (.text content) =>
    let line := (Text.trim content.toList).map fun c => if c == '\n' then ' ' else c
    "Text:" ++ String.ofList (line.take shownLength)
  | some (.comment _) => "Comment"
  | some .document => "Document"
  | none => "Missing" ++ NodeId.render n

end TreeQuery
