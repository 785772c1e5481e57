/-!
# Numbers of JSON text

A number is kept as it is written. Its size matters in one place: a number beyond the largest
double denotes nothing, and `isFinite` tells which those are. The digits are first cut to those
that fit in 64 bits, and the rest of the value is a power of ten; both are rounded to doubles, and
so is their product.
-/

namespace TreeQuery.Json

/-- A number as JSON text writes it. -/
structure Number where
  /-- Whether a minus sign stands in front. -/
  negative : Bool
  /-- The digits before the point. -/
  whole : List Char
  /-- The digits after the point, none if there is no point. -/
  fraction : List Char
  /-- The power of ten that the number is scaled by, if one is written. -/
  exponent : Option Int
  deriving DecidableEq, Repr

namespace Number

/-- The value of a decimal digit. -/
def digit (c : Char) : Nat :=
  c.toNat - '0'.toNat

/-- The value of a run of decimal digits. -/
def digits (cs : List Char) : Nat :=
  cs.foldl (fun n c => n * 10 + digit c) 0

/-- The number that an integer is written as. -/
def ofInt (i : Int) : Number :=
  ⟨i < 0, (toString i.natAbs).toList, [], none⟩

/-- The integer that is written without point and exponent, if that is how the number is
written. -/
def toInt? (n : Number) : Option Int :=
  match n.fraction, n.exponent with
  | [], none => some (if n.negative then -(digits n.whole : Int) else digits n.whole)
  | _, _ => none

/-- The first number that takes more than 64 bits. -/
def wordBound : Nat :=
  0x10000000000000000

/-- The natural number of 64 bits that is written without sign, point and exponent, if that is
how the number is written. -/
def toNat? (n : Number) : Option Nat :=
  match n.negative, n.fraction, n.exponent with
  | false, [], none => if digits n.whole < wordBound then some (digits n.whole) else none
  | _, _, _ => none

/-- Digits are taken into the significand as long as it fits in 64 bits. Gives the significand
and the number of digits left out. -/
def takeWhole (significand : Nat) : List Char → Nat × Nat
  | [] => (significand, 0)
  | c :: cs =>
    if significand * 10 + digit c < wordBound then takeWhole (significand * 10 + digit c) cs
    else (significand, cs.length + 1)

/-- Digits after the point are taken into the significand as long as it fits in 64 bits. Gives
the significand and the number of digits taken. -/
def takeFraction (significand taken : Nat) : List Char → Nat × Nat
  | [] => (significand, taken)
  | c :: cs =>
    if significand * 10 + digit c < wordBound then
      takeFraction (significand * 10 + digit c) (taken + 1) cs
    else (significand, taken)

/-- The significand of 64 bits and the power of ten that together give the size of a number. -/
def scaled (n : Number) : Nat × Int :=
  let (significand, left) := takeWhole 0 n.whole
  let (significand, taken) := takeFraction significand 0 n.fraction
  (significand, (left : Int) - taken + n.exponent.getD 0)

/-- The double nearest to a natural number, a tie going to the even significand. -/
def roundToDouble (n : Nat) : Nat :=
  let shift := n.log2 - 52
  if shift = 0 then n
  else
    let quotient := n >>> shift
    let remainder := n % (1 <<< shift)
    let half := 1 <<< (shift - 1)
    let up := half < remainder || (remainder == half && quotient % 2 == 1)
    (if up then quotient + 1 else quotient) <<< shift

/-- Whether the number is in the range of a double. -/
def isFinite (n : Number) : Bool :=
  let (significand, power) := n.scaled
  if significand == 0 || power ≤ 0 then true
  else if 308 < power then false
  else
    -- Both factors are rounded before they are multiplied, and the product once more.
    let scale := roundToDouble (Nat.pow 10 power.toNat)
    roundToDouble (roundToDouble significand * scale) < (1 <<< 1024)

end Number

end TreeQuery.Json
