import TreeQuery.Markup.Json
import TreeQuery.Selection

/-!
# Documents

A document is a tree together with the settings under which it is searched. A registry holds open
documents under numbers that it never gives out twice.
-/

namespace TreeQuery

/-- A tree and the settings of searches in it. -/
structure Document where
  /-- The tree. -/
  tree : Tree
  /-- The settings. -/
  settings : Settings
  deriving Inhabited

namespace Document

/-- The document of a tree, with the settings that suit its kind of markup. -/
def ofTree (t : Tree) : Document :=
  ⟨t, .ofFlavour t.flavour⟩

/-- A session that works on a document, with the warnings given so far and an empty log. -/
def session (document : Document) (warnings : Warnings) : Session :=
  { tree := document.tree, warnings }

/-- What a selector finds in the document. -/
def find (document : Document) (selector : String) : Query Selection :=
  Selection.root.find document.settings selector

end Document

/-- The number under which a document is held. -/
abbrev DocumentId :=
  Nat

/-- The name of a document. -/
def DocumentId.render (id : DocumentId) : String :=
  "doc-" ++ toString id

/-- The open documents. -/
structure Registry where
  /-- The documents with their numbers, oldest first. -/
  documents : List (DocumentId × Document) := []
  /-- The number for the next document. -/
  nextId : DocumentId := 0
  /-- The open document that was added last. -/
  last? : Option DocumentId := none

namespace Registry

/-- The registry without documents. -/
def empty : Registry :=
  {}

/-- The numbers of the open documents, oldest first. -/
def ids (registry : Registry) : List DocumentId :=
  registry.documents.map (·.1)

/-- The number of open documents. -/
def size (registry : Registry) : Nat :=
  registry.documents.length

/-- Adds a document and gives the number under which it is held. -/
def insert (registry : Registry) (document : Document) : Registry × DocumentId :=
  ({ documents := registry.documents ++ [(registry.nextId, document)]
     nextId := registry.nextId + 1
     last? := some registry.nextId }, registry.nextId)

/-- The document of that number. -/
def get? (registry : Registry) (id : DocumentId) : Option Document :=
  registry.documents.lookup id

/-- Changes the document of that number, if it is open. -/
def update (registry : Registry) (id : DocumentId) (f : Document → Document) : Registry :=
  { registry with
    documents := registry.documents.map fun entry =>
      if entry.1 == id then (entry.1, f entry.2) else entry }

/-- Closes the document of that number and gives it back. -/
def remove (registry : Registry) (id : DocumentId) : Registry × Option Document :=
  match registry.get? id with
  | none => (registry, none)
  | some document =>
    let documents := registry.documents.filter fun entry => entry.1 != id
    let last? :=
      if registry.last? == some id then documents.getLast?.map (·.1) else registry.last?
    ({ registry with documents, last? }, some document)

/-- Closes all documents. The numbers given out stay given out. -/
def clear (registry : Registry) : Registry :=
  { registry with documents := [], last? := none }

end Registry

end TreeQuery
