import TreeQuery.Json.Basic

/-!
# Writing JSON text

A value is written on one line, or spread over lines with two blanks for each level. Inside a
string a backslash stands in front of quotes, backslashes and control characters, and in front of
nothing else.
-/

namespace TreeQuery.Json

/-- A hexadecimal digit in lower case. -/
def hexDigit (n : Nat) : Char :=
  if n < 10 then Char.ofNat ('0'.toNat + n) else Char.ofNat ('a'.toNat + (n - 10))

/-- A character as it is written inside a string. -/
def escape (c : Char) : List Char :=
  if c == '"' then ['\\', '"']
  else if c == '\\' then ['\\', '\\']
  else if c == '\x08' then ['\\', 'b']
  else if c == '\t' then ['\\', 't']
  else if c == '\n' then ['\\', 'n']
  else if c == '\x0c' then ['\\', 'f']
  else if c == '\r' then ['\\', 'r']
  else if c.toNat < 0x20 then
    ['\\', 'u', '0', '0', hexDigit (c.toNat / 16), hexDigit (c.toNat % 16)]
  else [c]

/-- A string in quotes. -/
def quote (s : String) : List Char :=
  '"' :: s.toList.flatMap escape ++ ['"']

/-- A number as it is written. -/
def Number.write (n : Number) : List Char :=
  (if n.negative then ['-'] else []) ++ n.whole ++
    (if n.fraction.isEmpty then [] else '.' :: n.fraction) ++
    (match n.exponent with
      | none => []
      | some e => 'e' :: (toString e).toList)

/-- How the parts of a value are laid out: `none` is all on one line, and `some level` is a line for
each item, at that level of nesting. -/
abbrev Layout :=
  Option Nat

/-- The layout of what is nested one level deeper. -/
def Layout.inner (layout : Layout) : Layout :=
  layout.map (· + 1)

/-- What stands in front of an item. -/
def Layout.lineBreak : Layout → List Char
  | none => []
  | some level => '\n' :: List.replicate (2 * level) ' '

/-- What stands between the name and the value of a member. -/
def Layout.colon : Layout → List Char
  | none => [':']
  | some _ => [':', ' ']

mutual

/-- A value in a layout. -/
def write (layout : Layout) : Json → List Char
  | .null => "null".toList
  | .bool true => "true".toList
  | .bool false => "false".toList
  | .number n => n.write
  | .string s => quote s
  | .unreadable => "1e999".toList
  | .array [] => ['[', ']']
  | .array (item :: items) =>
    '[' :: layout.inner.lineBreak ++ write layout.inner item ++ writeItems layout items
  | .object [] => ['\x7b', '\x7d']
  | .object ((name, value) :: members) =>
    '\x7b' :: layout.inner.lineBreak ++ quote name ++ layout.colon ++ write layout.inner value ++
      writeMembers layout members

/-- The items of an array after the first one, and its closing bracket. -/
def writeItems (layout : Layout) : List Json → List Char
  | [] => layout.lineBreak ++ [']']
  | item :: items =>
    ',' :: layout.inner.lineBreak ++ write layout.inner item ++ writeItems layout items

/-- The members of an object after the first one, and its closing brace. -/
def writeMembers (layout : Layout) : List (String × Json) → List Char
  | [] => layout.lineBreak ++ ['\x7d']
  | (name, value) :: members =>
    ',' :: layout.inner.lineBreak ++ quote name ++ layout.colon ++ write layout.inner value ++
      writeMembers layout members

end

/-- A value on one line. -/
def compact (value : Json) : String :=
  String.ofList (write none value)

/-- A value spread over lines. -/
def pretty (value : Json) : String :=
  String.ofList (write (some 0) value)

end TreeQuery.Json
