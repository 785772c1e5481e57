/-!
# Selectors

A selector is a list of groups, which commas separate, and a group is a list of tokens. The parts
of a compound such as `div#main.a` are tokens of their own, and so are the combinators between
compounds. The argument of a pseudo-class and what stands after `+` or `~` are kept as text.
-/

namespace TreeQuery

/-- How the value of an attribute is compared with the value asked for. -/
inductive Comparison where
  /-- The attribute is there. -/
  | present
  /-- It has the value. -/
  | equal
  /-- Its value starts with the one asked for. -/
  | startsWith
  /-- Its value contains the one asked for. -/
  | contains
  /-- Its value ends with the one asked for. -/
  | endsWith
  /-- One of the words of its value is the one asked for. -/
  | word
  /-- Its value is the one asked for, or starts with it and a hyphen. -/
  | dashed
  deriving DecidableEq, Repr

namespace Comparison

/-- The comparison that a character in front of the equals sign asks for. -/
def ofMarker? : Char → Option Comparison
  | '^' => some startsWith
  | '*' => some contains
  | '$' => some endsWith
  | '~' => some word
  | '|' => some dashed
  | _ => none

/-- Whether a predicate of a location path can make the comparison. -/
def isStructural : Comparison → Bool
  | present | equal => true
  | _ => false

/-- What stands between the name and the value. -/
def symbol : Comparison → String
  | present => ""
  | equal => "="
  | startsWith => "^="
  | contains => "*="
  | endsWith => "$="
  | word => "~="
  | dashed => "|="

end Comparison

/-- A test of an attribute. -/
structure AttributeTest where
  /-- The name of the attribute. -/
  name : String
  /-- The comparison. -/
  comparison : Comparison
  /-- The value asked for, empty if only the presence is. -/
  value : String
  deriving DecidableEq, Repr

/-- A part of a selector. -/
inductive Token where
  /-- A type selector: a name, `*`, or two names with a bar between them. -/
  | tag (name : String)
  /-- An id. -/
  | id (name : String)
  /-- Class names with points between them. -/
  | classes (names : String)
  /-- A test of an attribute. -/
  | attr (test : AttributeTest)
  /-- A pseudo-class, with the text between its parentheses if it has any. -/
  | pseudoClass (name : String) (argument : Option String)
  /-- The combinator `>`. -/
  | child
  /-- The combinator that white space stands for. -/
  | descendant
  /-- The combinator `+` and the test of the next element sibling. -/
  | adjacent (sub : String)
  /-- The combinator `~` and the test of the element siblings that follow. -/
  | general (sub : String)
  deriving DecidableEq, Repr

/-- The tokens between two commas. -/
abbrev Group :=
  List Token

/-- A selector: its groups in order. -/
structure Selector where
  /-- The groups. -/
  groups : List Group
  deriving DecidableEq, Repr

/-! ## Text of a selector -/

/-- The text of a test. -/
def AttributeTest.render (test : AttributeTest) : String :=
  match test.comparison with
  | .present => "[" ++ test.name ++ "]"
  | comparison => "[" ++ test.name ++ comparison.symbol ++ "\"" ++ test.value ++ "\"]"

namespace Token

/-- Whether a token leads from a node to nodes below it. -/
def isCombinator : Token → Bool
  | child | descendant => true
  | _ => false

/-- The text of a token. -/
def render : Token → String
  | tag name => name
  | id name => "#" ++ name
  | classes names => "." ++ names
  | attr test => test.render
  | pseudoClass name none => ":" ++ name
  | pseudoClass name (some argument) => ":" ++ name ++ "(" ++ argument ++ ")"
  | child => ">"
  | descendant => " "
  | adjacent sub => "+" ++ sub
  | general sub => "~" ++ sub

/-- How much text is nested in a token: more than the argument, for a pseudo-class, and nothing for
another token. -/
def weight : Token → Nat
  | pseudoClass _ argument => (argument.getD "").length + 1
  | _ => 0

end Token

/-- How much text is nested in the tokens of a group. -/
def Group.weight : Group → Nat
  | [] => 0
  | token :: tokens => token.weight + weight tokens

/-- How much text is nested in the tokens of several groups. -/
def Group.totalWeight : List Group → Nat
  | [] => 0
  | group :: groups => group.weight + totalWeight groups

/-- How much text is nested in the tokens of a selector. -/
def Selector.weight (selector : Selector) : Nat :=
  Group.totalWeight selector.groups

/-- The text of a group. -/
def Group.render (group : Group) : String :=
  String.join (group.map Token.render)

/-- The text of a selector. -/
def Selector.render (selector : Selector) : String :=
  ",".intercalate (selector.groups.map Group.render)

end TreeQuery
