import TreeQuery.Json.Number

/-!
# JSON values

The values of JSON text. Objects keep their members in the order in which they are written,
repeated names included. Some texts are well formed and yet denote nothing: a string with half of a
surrogate pair, a number beyond the largest double, an object with such a name. They are
`unreadable`; whoever skips over a value need not mind, and whoever asks for one refuses it.
-/

namespace TreeQuery

/-- A JSON value. -/
inductive Json where
  /-- The literal `null`. -/
  | null
  /-- The literals `true` and `false`. -/
  | bool (value : Bool)
  /-- A number, as it is written. -/
  | number (value : Json.Number)
  /-- A string. -/
  | string (value : String)
  /-- A well-formed text that denotes no value. -/
  | unreadable
  /-- An array. -/
  | array (items : List Json)
  /-- An object: its members in order, repeated names included. -/
  | object (members : List (String × Json))
  deriving Repr

namespace Json

/-- The value of an integer. -/
def int (i : Int) : Json :=
  .number (.ofInt i)

mutual

/-- How many arrays and objects are nested in a value. -/
def depth : Json → Nat
  | array items => depthItems items + 1
  | object members => depthMembers members + 1
  | _ => 0

/-- How many arrays and objects are nested in any one of the items. -/
def depthItems : List Json → Nat
  | [] => 0
  | item :: items => max item.depth (depthItems items)

/-- How many arrays and objects are nested in any one of the members. -/
def depthMembers : List (String × Json) → Nat
  | [] => 0
  | (_, value) :: members => max value.depth (depthMembers members)

end

mutual

/-- Whether every part of a value denotes one. -/
def isReadable : Json → Bool
  | unreadable => false
  | array items => areReadable items
  | object members => areReadableMembers members
  | _ => true

/-- Whether every part of every item denotes a value. -/
def areReadable : List Json → Bool
  | [] => true
  | item :: items => item.isReadable && areReadable items

/-- Whether every part of every member denotes a value. -/
def areReadableMembers : List (String × Json) → Bool
  | [] => true
  | (_, value) :: members => value.isReadable && areReadableMembers members

end

/-- The value of the member of that name: `some none` if there is no such member, and `none` if
there are several. -/
def lone? (name : String) (members : List (String × Json)) : Option (Option Json) :=
  match members.filter fun member => member.1 == name with
  | [] => some none
  | [member] => some (some member.2)
  | _ => none

/-- The string that a value is. -/
def string? : Json → Option String
  | string value => some value
  | _ => none

/-- The truth value that a value is. -/
def bool? : Json → Option Bool
  | bool value => some value
  | _ => none

/-- The list of strings that a value is. -/
def strings? : Json → Option (List String)
  | array items => items.mapM string?
  | _ => none

end Json

end TreeQuery
