import TreeQuery.Text.Alphanumeric
import TreeQuery.Text.CaseTables

/-!
# Lower case

The lower-case form of a text by the full Unicode mapping. Two letters need more than the simple
mapping: `U+0130` becomes two characters, and a capital sigma becomes the final form where it ends
a word, that is, where a cased letter stands before it and none after it, with the characters that
case ignores skipped on both sides.
-/

namespace TreeQuery.Text

/-- The Unicode property `Cased`. -/
def isCased (c : Char) : Bool :=
  inRanges casedRanges c.toNat

/-- The Unicode property `Case_Ignorable`. -/
def isCaseIgnorable (c : Char) : Bool :=
  inRanges caseIgnorableRanges c.toNat

/-- Whether a letter belongs to a run of letters with lower-case forms. -/
def LowercaseRun.holds (run : LowercaseRun) (n : Nat) : Bool :=
  run.first ≤ n && n ≤ run.last && (n - run.first) % run.stride == 0

/-- The lower-case form of one character outside any word. -/
def lowerChar (c : Char) : List Char :=
  let n := c.toNat
  if n < 0x80 then [c.toLower]
  else if n == 0x130 then ['i', '\u0307']
  else
    match lowercaseRuns.find? (·.holds n) with
    | some run => [Char.ofNat (n + run.distance).toNat]
    | none => [c]

/-- Whether the first character that case does not ignore is cased. -/
def startsCased (cs : List Char) : Bool :=
  match cs.dropWhile isCaseIgnorable with
  | [] => false
  | c :: _ => isCased c

/-- The lower-case form of the text `cs`, where `before` holds the characters in front of it from
the nearest to the farthest. -/
def lowerAfter (before : List Char) : List Char → List Char
  | [] => []
  | c :: cs =>
    let lower :=
      -- Only the sigma looks at the characters around it.
      if c == 'Σ' then [if startsCased before && !startsCased cs then 'ς' else 'σ']
      else lowerChar c
    lower ++ lowerAfter (c :: before) cs

/-- The lower-case form of a text. -/
def lowercase (cs : List Char) : List Char :=
  lowerAfter [] cs

end TreeQuery.Text
