/-!
# Warnings

A selector is never refused. What a search cannot make sense of is skipped with a warning, and the
same warning is not given twice.
-/

namespace TreeQuery

/-- What a search skips. -/
inductive Warning where
  /-- A type selector that is no name. -/
  | unrecognizedToken (text : String)
  /-- A pseudo-class of an unknown name. -/
  | unsupportedPseudoClass (name : String)
  /-- An argument of `:nth-child` that is no progression. -/
  | malformedPosition (argument : String)
  deriving DecidableEq, Repr

namespace Warning

/-- The part of the search that gives a warning. -/
def component : Warning → String
  | unrecognizedToken _ => "selector"
  | unsupportedPseudoClass _ | malformedPosition _ => "pseudo-class"

/-- The sentence of a warning. -/
def message : Warning → String
  | unrecognizedToken text => "unrecognized token '" ++ text ++ "'"
  | unsupportedPseudoClass name => "unsupported pseudo-class ':" ++ name ++ "'"
  | malformedPosition argument => "malformed :nth-child(" ++ argument ++ ")"

end Warning

/-- The warnings given so far, each by the line that names its component and its message. -/
structure Warnings where
  /-- The lines of the warnings. -/
  given : List String
  deriving DecidableEq, Repr

namespace Warnings

/-- No warnings given. -/
def none : Warnings :=
  ⟨[]⟩

/-- At the start no warning has been given. -/
instance : Inhabited Warnings :=
  ⟨none⟩

/-- The line of a warning. -/
def line (component message : String) : String :=
  "[" ++ component ++ "] " ++ message

/-- Gives a warning unless its line has been given before, and tells whether it is given now. -/
def giveOnce (warnings : Warnings) (component message : String) : Bool × Warnings :=
  if warnings.given.contains (line component message) then (false, warnings)
  else (true, ⟨line component message :: warnings.given⟩)

end Warnings

/-! ## How much is logged -/

/-- The level of the log that a count of requests for more of it asks for. -/
def logLevel : Nat → String
  | 0 => "warn"
  | 1 => "info"
  | 2 => "debug"
  | _ => "trace"

end TreeQuery
