import TreeQuery.Cli.Report

/-!
# The program

The outer layer of the command line: it reads the files that are named, prints the report of the
run, and sets the exit code. A wrong usage ends with 2 and a failure with 1.
-/

namespace TreeQuery.Cli

/-- How the program is called. -/
def usage : String :=
  "Usage: tree-query [OPTIONS] <FILE> <SELECTOR>\n\n" ++
  "  --filter <SEL>   keep only matches that also match this selector\n" ++
  "  --not <SEL>      drop matches that match this selector\n" ++
  "  --xml            read the document as XML\n" ++
  "  --debug          log a description of every match of a path\n" ++
  "  --config <FILE>  read settings from a JSON file\n" ++
  "  --text           print the text of each match\n" ++
  "  --json           print the matches as JSON\n" ++
  "  -v, --verbose    log more\n"

/-- The text of a file, if it can be read. -/
def readFile? (name : String) : IO (Option String) := do
  try
    return some (← IO.FS.readFile name)
  catch _ =>
    return none

/-- Whether an event is logged at that verbosity. -/
def isLogged (verbosity : Nat) (event : Event) : Bool :=
  event.isWarning || logLevel verbosity == "debug" || logLevel verbosity == "trace"

/-- Runs a command. -/
def execute : Command → IO UInt32
  | .help => do
    IO.print usage
    return 0
  | .version => do
    IO.println "tree-query 0.1.0"
    return 0
  | .run file selector options => do
    let names := file :: options.config.toList
    let texts ← names.mapM readFile?
    let report := run (fun name => ((names.zip texts).lookup name).join) file selector options
    for event in report.log do
      if isLogged options.verbosity event then IO.eprintln event.render
    match report.result with
    | .ok text =>
      IO.print text
      return 0
    | .error failure =>
      IO.eprintln failure.message
      return 1

end TreeQuery.Cli

/-- The entry point of the program. -/
def main (arguments : List String) : IO UInt32 :=
  match TreeQuery.Cli.Command.parse arguments with
  | .ok command => TreeQuery.Cli.execute command
  | .error e => do
    IO.eprintln ("error: " ++ e.message)
    return 2
