/-!
# Arguments of the command line

    tree-query FILE SELECTOR [--filter SEL] [--not SEL] [--xml] [--debug] [--config FILE]
               [--text | --json] [-v]...

Options may stand anywhere, the value of an option behind it or behind an equals sign. Everything
behind `--` is a file or a selector. An argument that starts with a hyphen and is longer than that
is never taken for a value.
-/

namespace TreeQuery.Cli

/-- What is wrong with the arguments. -/
inductive UsageError where
  /-- There is no such option. -/
  | unknown (argument : String)
  /-- An option may be given once. -/
  | repeated (option : String)
  /-- An option needs a value, and a file needs a name. -/
  | missingValue (option : String)
  /-- An option has no value. -/
  | unwantedValue (option : String)
  /-- There is a file and a selector, and nothing behind them. -/
  | unexpected (argument : String)
  /-- The file or the selector is missing. -/
  | missing (name : String)
  /-- Two options exclude each other. -/
  | conflict (option other : String)
  deriving DecidableEq, Repr

/-- The sentence that reports an error. -/
def UsageError.message : UsageError → String
  | unknown argument => "unexpected argument '" ++ argument ++ "' found"
  | repeated option => "the argument '" ++ option ++ "' cannot be used multiple times"
  | missingValue option => "a value is required for '" ++ option ++ "' but none was supplied"
  | unwantedValue option => "unexpected value for '" ++ option ++ "' found; no more were expected"
  | unexpected argument => "unexpected argument '" ++ argument ++ "' found"
  | missing name => "the required argument <" ++ name ++ "> was not provided"
  | conflict option other =>
    "the argument '" ++ option ++ "' cannot be used with '" ++ other ++ "'"

/-- What the arguments have said so far. -/
structure Options where
  /-- The file and the selector. -/
  positional : List String := []
  /-- Keep only matches that this selector keeps. -/
  filter : Option String := none
  /-- Drop the matches that this selector keeps. -/
  exclude : Option String := none
  /-- The file that settings are read from. -/
  config : Option String := none
  /-- Read the document as XML. -/
  xml : Bool := false
  /-- Describe the matches of each path in the log. -/
  debug : Bool := false
  /-- Print the text of each match. -/
  text : Bool := false
  /-- Print the matches as JSON. -/
  json : Bool := false
  /-- How often a longer log was asked for. -/
  verbosity : Nat := 0
  deriving DecidableEq, Repr

/-- What the program is asked to do. -/
inductive Command where
  /-- Print the usage. -/
  | help
  /-- Print the version. -/
  | version
  /-- Run the selector on the file. -/
  | run (file selector : String) (options : Options)
  deriving DecidableEq, Repr

namespace Options

/-- Takes a file or a selector. -/
def addPositional (options : Options) (argument : String) : Except UsageError Options :=
  match options.positional with
  | [] =>
    if argument.isEmpty then .error (.missingValue "<FILE>")
    else .ok { options with positional := [argument] }
  | [file] => .ok { options with positional := [file, argument] }
  | _ => .error (.unexpected argument)

/-- Takes files and selectors. -/
def addAllPositional (options : Options) (arguments : List String) : Except UsageError Options :=
  arguments.foldlM addPositional options

/-- Whether an option of that name has a value. -/
def takesValue (name : String) : Bool :=
  name == "filter" || name == "not" || name == "config"

/-- Sets an option that has a value. -/
def setValue (options : Options) (name value : String) : Except UsageError Options :=
  match name with
  | "filter" =>
    if options.filter.isSome then .error (.repeated "--filter")
    else .ok { options with filter := some value }
  | "not" =>
    if options.exclude.isSome then .error (.repeated "--not")
    else .ok { options with exclude := some value }
  | "config" =>
    if options.config.isSome then .error (.repeated "--config")
    else if value.isEmpty then .error (.missingValue "--config")
    else .ok { options with config := some value }
  | name => .error (.unknown ("--" ++ name))

/-- Sets an option that has no value. -/
def setFlag (options : Options) (name : String) : Except UsageError Options :=
  match name with
  | "xml" => if options.xml then .error (.repeated "--xml") else .ok { options with xml := true }
  | "debug" =>
    if options.debug then .error (.repeated "--debug") else .ok { options with debug := true }
  | "text" =>
    if options.text then .error (.repeated "--text") else .ok { options with text := true }
  | "json" =>
    if options.json then .error (.repeated "--json") else .ok { options with json := true }
  | "verbose" => .ok { options with verbosity := options.verbosity + 1 }
  | name => .error (.unknown ("--" ++ name))

/-- What stands in an argument behind two hyphens: a name, and a value if there is an equals
sign. -/
def longParts (argument : List Char) : String × Option String :=
  match argument.span (· != '=') with
  | (name, []) => (String.ofList name, none)
  | (name, _ :: value) => (String.ofList name, some (String.ofList value))

/-- Whether an argument can be the value of the option in front of it. -/
def isValue (argument : String) : Bool :=
  match argument.toList with
  | '-' :: _ :: _ => false
  | _ => true

/-- Takes the letters of an argument behind one hyphen. The answer `none` is a call for help or
version, given as a command. -/
def setLetters (options : Options) : List Char → Except UsageError (Options ⊕ Command)
  | [] => .ok (.inl options)
  | 'v' :: letters => setLetters { options with verbosity := options.verbosity + 1 } letters
  | 'h' :: _ => .ok (.inr .help)
  | 'V' :: _ => .ok (.inr .version)
  | letter :: _ => .error (.unknown ("-" ++ String.ofList [letter]))

/-- The command that complete options make. -/
def finish (options : Options) : Except UsageError Command :=
  match options.positional with
  | [file, selector] =>
    if options.json && options.text then .error (.conflict "--json" "--text")
    else .ok (.run file selector options)
  | [_] => .error (.missing "SELECTOR")
  | _ => .error (.missing "FILE")

/-- Takes arguments from left to right. -/
def scan (options : Options) : List String → Except UsageError Command
  | [] => options.finish
  | argument :: arguments =>
    match argument.toList with
    -- Nothing behind two hyphens is an option.
    | ['-', '-'] => do
      let options ← options.addAllPositional arguments
      options.finish
    | '-' :: '-' :: long =>
      match longParts long with
      | ("help", none) => .ok .help
      | ("version", none) => .ok .version
      | (name, attached?) =>
        if takesValue name then
          match attached? with
          | some value => do
            let options ← options.setValue name value
            scan options arguments
          | none =>
            match arguments with
            | [] => .error (.missingValue ("--" ++ name))
            | value :: rest =>
              if isValue value then do
                let options ← options.setValue name value
                scan options rest
              else .error (.missingValue ("--" ++ name))
        else do
          let set ← options.setFlag name
          if attached?.isSome then .error (.unwantedValue ("--" ++ name))
          else scan set arguments
    | '-' :: letter :: letters => do
      match ← options.setLetters (letter :: letters) with
      | .inl options => scan options arguments
      | .inr command => return command
    | _ => do
      let options ← options.addPositional argument
      scan options arguments

end Options

/-- The command that arguments make. -/
def Command.parse (arguments : List String) : Except UsageError Command :=
  Options.scan {} arguments

end TreeQuery.Cli
