import TreeQuery.Json.Reader
import TreeQuery.Tree.Basic

/-!
# Settings

What a search can be told about a document beside its tree. Settings are read from a JSON object
whose members may all be missing, or from an array that gives them in order; what they leave out is
as in `Settings.default`.
-/

namespace TreeQuery

/-- The settings of a document. -/
structure Settings where
  /-- Whether type selectors name local names, and names with a bar qualified ones. -/
  namespaceAware : Bool
  /-- Whether the nodes that a path leads to are described in the log. -/
  debug : Bool
  /-- The names of the elements that `:header` keeps. -/
  headerTags : List String
  deriving DecidableEq, Repr

namespace Settings

/-- The settings that hold where nothing else is said. -/
def default : Settings :=
  { namespaceAware := false
    debug := false
    headerTags := ["h1", "h2", "h3", "h4", "h5", "h6", "h7"] }

/-- Where nothing is said of the settings, they are the default ones. -/
instance : Inhabited Settings :=
  ⟨default⟩

/-- The settings that suit a kind of markup. -/
def ofFlavour (flavour : Flavour) : Settings :=
  { default with namespaceAware := flavour.namespaceAware }

/-- Whether an element of that name is a header. -/
def isHeader (settings : Settings) (name : String) : Bool :=
  settings.headerTags.any fun header => Text.sameName header name

/-- The settings with the parts that are given in place of the default ones. A part that is given
but has not the right type is refused. -/
def ofParts? (namespaceAware debug headerTags : Option Json) : Option Settings := do
  let namespaceAware ← (namespaceAware.map Json.bool?).getD (some default.namespaceAware)
  let debug ← (debug.map Json.bool?).getD (some default.debug)
  let headerTags ← (headerTags.map Json.strings?).getD (some default.headerTags)
  return { namespaceAware, debug, headerTags }

/-- The settings that a JSON value gives. Members of other names are skipped. -/
def ofJson? : Json → Option Settings
  | .object members => do
    let namespaceAware ← Json.lone? "namespace_aware" members
    let debug ← Json.lone? "debug" members
    let headerTags ← Json.lone? "header_tags" members
    ofParts? namespaceAware debug headerTags
  | .array [] => ofParts? none none none
  | .array [namespaceAware] => ofParts? (some namespaceAware) none none
  | .array [namespaceAware, debug] => ofParts? (some namespaceAware) (some debug) none
  | .array [namespaceAware, debug, headerTags] =>
    ofParts? (some namespaceAware) (some debug) (some headerTags)
  | _ => none

/-- The settings that a text gives. -/
def read? (text : String) : Option Settings :=
  (Json.read? text.toList).bind ofJson?

/-- The JSON value of settings, with all members. -/
def toJson (settings : Settings) : Json :=
  .object [("namespace_aware", .bool settings.namespaceAware), ("debug", .bool settings.debug),
    ("header_tags", .array (settings.headerTags.map .string))]

end Settings

/-- The kind of markup that a JSON value names: the name alone, or an object with that name and
`null`. -/
def Flavour.ofJson? : Json → Option Flavour
  | .string name => ofName? name
  | .object [(name, .null)] => ofName? name
  | _ => none

end TreeQuery
