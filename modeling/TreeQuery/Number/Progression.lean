import TreeQuery.Number.Bounded
import TreeQuery.Text.AsciiCase
import TreeQuery.Text.Occurrence

/-!
# Arithmetic progressions of positions

The argument of `:nth-child`: `even`, `odd`, a number, or the terms of an expression such as
`2n+1`. White space and the case of letters do not matter.
-/

namespace TreeQuery

/-- The positions `a * n + b` for the natural numbers `n`. -/
structure Progression where
  /-- The coefficient of `n`. -/
  a : Int64
  /-- The offset. -/
  b : Int64
  deriving DecidableEq, Repr

namespace Progression

/-- The coefficient in front of the letter `n`, 1 if no digits are written. -/
def coefficient? : List Char → Option Int64
  | [] | ['+'] => some 1
  | ['-'] => some (-1)
  | cs => Bounded.readAll? cs

/-- The offset behind the letter `n`, which starts with a sign if there is one. -/
def offset? : List Char → Option Int64
  | [] => some 0
  | c :: cs => if c == '+' || c == '-' then Bounded.readAll? (c :: cs) else none

/-- The progression that a text without white space and capitals writes. -/
def ofExpression? (cs : List Char) : Option Progression :=
  if cs == "even".toList then some ⟨2, 0⟩
  else if cs == "odd".toList then some ⟨2, 1⟩
  else
    match Text.splitOnce 'n' cs with
    | none => (Bounded.readAll? cs).map fun b => ⟨0, b⟩
    | some (front, back) => do
      let a ← coefficient? front
      let b ← offset? back
      return ⟨a, b⟩

/-- The progression that a text writes. -/
def parse? (cs : List Char) : Option Progression :=
  ofExpression? (Text.asciiLower (cs.filter fun c => !Text.isBlank c))

/-- Whether a position, counted from 1, is in the progression. A negative coefficient takes all
positions up to the offset. -/
def contains (progression : Progression) (position : Int64) : Bool :=
  if progression.a == 0 then position == progression.b
  else if 0 < progression.a then
    match Bounded.checkedSub? position progression.b with
    | some distance => 0 ≤ distance && distance % progression.a == 0
    | none => false
  else position ≤ progression.b

end Progression

end TreeQuery
