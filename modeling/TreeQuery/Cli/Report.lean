import TreeQuery.Cli.Arguments
import TreeQuery.Document

/-!
# Running a command

The program reads a document, and settings if a file of them is named, runs its selectors, and
prints either a line for each match or the matches as JSON. Files are given as a function from
names to texts, so that a run is a function as well.
-/

namespace TreeQuery.Cli

/-- What makes a run fail. -/
inductive Failure where
  /-- A file cannot be read. -/
  | reading (file : String)
  /-- The text of a file is not what it should be. -/
  | parsing (file : String)
  /-- The selector for the document fails. -/
  | searching (selector : String) (cause : QueryError)
  /-- The selector that matches must pass fails. -/
  | filtering (selector : String) (cause : QueryError)
  /-- The selector that matches must not pass fails. -/
  | excluding (selector : String) (cause : QueryError)
  /-- A match cannot be written as JSON. -/
  | exporting (cause : TreeError)
  deriving DecidableEq, Repr

/-- The sentence that reports a failure. -/
def Failure.message : Failure → String
  | reading file => "Error: reading " ++ file
  | parsing file => "Error: parsing " ++ file
  | searching selector _ => "Error: running selector '" ++ selector ++ "'"
  | filtering selector _ => "Error: filtering with '" ++ selector ++ "'"
  | excluding selector _ => "Error: excluding '" ++ selector ++ "'"
  | exporting cause => "Error: " ++ cause.message

/-- What a run gives. -/
structure Report where
  /-- What it prints, or what makes it fail. -/
  result : Except Failure String
  /-- What it logs. -/
  log : Array Event := #[]

/-! ## Printing -/

/-- A control sequence of the terminal. -/
def escape (code : String) : String :=
  "\x1b[" ++ code ++ "m"

/-- A text in a faint colour. -/
def dimmed (text : String) : String :=
  escape "2" ++ text ++ escape "0"

/-- A text in green. -/
def green (text : String) : String :=
  escape "32" ++ text ++ escape "39"

/-- A text in bold letters. -/
def bold (text : String) : String :=
  escape "1" ++ text ++ escape "0"

/-- A number with blanks in front of it, up to that width. -/
def alignRight (width n : Nat) : String :=
  let digits := toString n
  String.ofList (List.replicate (width - digits.length) ' ') ++ digits

/-- The lines of a match: its place and description, and its text if that is asked for and not
blank. -/
def matchLines (t : Tree) (withText : Bool) (place : Nat) (n : NodeId) : String :=
  let content := String.ofList (Text.trim (t.textContent n).toList)
  dimmed (alignRight 3 place) ++ " " ++ green (t.describe n) ++ "\n" ++
    if withText && !content.isEmpty then "    " ++ content ++ "\n" else ""

/-- The last line: how many matches there are. -/
def countLine (count : Nat) : String :=
  bold (toString count) ++ (if count == 1 then " match\n" else " matches\n")

/-- The lines of all matches. -/
def printMatches (t : Tree) (withText : Bool) (nodes : List NodeId) : String :=
  String.join (nodes.zipIdx.map fun entry => matchLines t withText entry.2 entry.1) ++
    countLine nodes.length

/-- The matches as JSON. -/
def printJson (t : Tree) (nodes : List NodeId) : Except TreeError String := do
  let pieces ← nodes.mapM t.markup?
  return (Json.array (Markup.allToJson pieces)).pretty ++ "\n"

/-! ## Running -/

/-- The document that a run works on. An option that is set prevails over the file of settings. -/
def load (read : String → Option String) (file : String) (options : Options) :
    Except Failure Document := do
  let some source := read file | .error (.reading file)
  let flavour := if options.xml then Flavour.xml else .html
  let some markup := Markup.read? source | .error (.parsing file)
  let .ok tree := markup.build? flavour | .error (.parsing file)
  let settings ←
    match options.config with
    | none => pure (Settings.ofFlavour flavour)
    | some config =>
      let some text := read config | .error (.reading config)
      let some settings := Settings.read? text | .error (.parsing config)
      pure settings
  return ⟨tree, { settings with
    namespaceAware := settings.namespaceAware || options.xml
    debug := settings.debug || options.debug }⟩

/-- A stage of a run: its error becomes a failure. -/
def stage {α : Type} (failure : QueryError → Failure) (query : Query α) (session : Session) :
    Except Failure α × Session :=
  match query session with
  | .ok a session => (.ok a, session)
  | .error e session => (.error (failure e), session)

/-- What a stage gives that follows others, if it is asked for. -/
def optionalStage (failure : String → QueryError → Failure)
    (query : String → Selection → Query Selection) (selector? : Option String) :
    Except Failure Selection × Session → Except Failure Selection × Session
  | (.ok selection, session) =>
    match selector? with
    | some selector => stage (failure selector) (query selector selection) session
    | none => (.ok selection, session)
  | failed => failed

/-- Prints the matches as the options ask. -/
def print (t : Tree) (options : Options) (selection : Selection) : Except Failure String :=
  if options.json then
    match printJson t selection.nodes with
    | .ok text => .ok text
    | .error e => .error (.exporting e)
  else .ok (printMatches t options.text selection.nodes)

/-- Runs the selector on the file. -/
def run (read : String → Option String) (file selector : String) (options : Options) : Report :=
  match load read file options with
  | .error failure => { result := .error failure }
  | .ok document =>
    let settings := document.settings
    let found := stage (Failure.searching selector) (document.find selector)
      (document.session .none)
    let filtered :=
      optionalStage .filtering (Selection.filter settings) options.filter found
    let (result, session) :=
      optionalStage .excluding (Selection.exclude settings) options.exclude filtered
    { result := result.bind (print session.tree options), log := session.log }

end TreeQuery.Cli
