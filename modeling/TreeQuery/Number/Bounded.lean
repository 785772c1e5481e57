import TreeQuery.Text.Blank

/-!
# Bounded integers

Positions in selectors are integers of 64 bits. Where a result may leave that range it is either
brought back to the nearest end of the range or refused, as the name of the operation says.
`read` takes an integer off the front of any text.
-/

namespace TreeQuery.Bounded

/-- The integer of 64 bits that is nearest to `i`. -/
def saturate (i : Int) : Int64 :=
  if i < Int64.minValue.toInt then Int64.minValue
  else if Int64.maxValue.toInt < i then Int64.maxValue
  else Int64.ofInt i

/-- The integer `i`, if it has 64 bits. -/
def ofInt? (i : Int) : Option Int64 :=
  if Int64.minValue.toInt ≤ i && i ≤ Int64.maxValue.toInt then some (Int64.ofInt i) else none

/-- The sum, brought into range. -/
def saturatingAdd (a b : Int64) : Int64 :=
  saturate (a.toInt + b.toInt)

/-- The difference, brought into range. -/
def saturatingSub (a b : Int64) : Int64 :=
  saturate (a.toInt - b.toInt)

/-- The product, brought into range. -/
def saturatingMul (a b : Int64) : Int64 :=
  saturate (a.toInt * b.toInt)

/-- The difference, if it is in range. -/
def checkedSub? (a b : Int64) : Option Int64 :=
  ofInt? (a.toInt - b.toInt)

/-- The value of a decimal digit. -/
def digit (c : Char) : Int64 :=
  Int64.ofNat (c.toNat - '0'.toNat)

/-- The value of the decimal digits at the start of a text, brought into range digit by digit. -/
def magnitude (cs : List Char) : Int64 :=
  (cs.takeWhile Char.isDigit).foldl
    (fun value c => saturatingAdd (saturatingMul value 10) (digit c)) 0

/-- The integer at the start of a text: blanks, one sign and digits, each of which may be missing.
Without digits it is 0. -/
def read (cs : List Char) : Int64 :=
  match Text.trimStart cs with
  | '-' :: rest => -magnitude rest
  | '+' :: rest => magnitude rest
  | rest => magnitude rest

/-- The integer that a text writes with digits and at most one sign in front of them, and with
nothing else, if it is in range. -/
def readAll? (cs : List Char) : Option Int64 :=
  let (negative, digits) :=
    match cs with
    | '-' :: rest => (true, rest)
    | '+' :: rest => (false, rest)
    | rest => (false, rest)
  if digits.isEmpty || !digits.all Char.isDigit then none
  else
    let value : Nat := digits.foldl (fun value c => value * 10 + (c.toNat - '0'.toNat)) 0
    ofInt? (if negative then -(value : Int) else value)

end TreeQuery.Bounded
