import TreeQuery.Selector.Token
import TreeQuery.Text.Alphanumeric
import TreeQuery.Text.Blank
import TreeQuery.Text.Occurrence
import TreeQuery.Text.Quoted

/-!
# Scanning a selector

The characters that make up the parts of a selector, the removal of white space that says nothing,
and the reading of one part. A character that no part starts with is skipped, and a bracket or
parenthesis that is never closed reaches to the end of the text, so that every text can be read.
-/

namespace TreeQuery.Selector

/-! ## Characters -/

/-- A letter, a digit or an underscore. -/
def isWordChar (c : Char) : Bool :=
  Text.isAlphanumeric c || c == '_'

/-- A character of a type selector. -/
def isTagChar (c : Char) : Bool :=
  isWordChar c || c == '*' || c == '|' || c == '-'

/-- A character of an id or of the name of a pseudo-class. -/
def isIdChar (c : Char) : Bool :=
  isWordChar c || c == '-'

/-- A character of a list of class names. -/
def isClassChar (c : Char) : Bool :=
  isWordChar c || c == '.' || c == '-'

/-- A character of the test after `+` or `~`. -/
def isSiblingChar (c : Char) : Bool :=
  isClassChar c || c == '*'

/-- A combinator that needs no white space around it. -/
def isTight (c : Char) : Bool :=
  c == '>' || c == '+' || c == '~'

/-! ## White space -/

/-- The text with one space for each run of blanks, and none for a run next to a tight combinator.
`tight` says whether such a combinator was the last character written, and `pending` whether blanks
have been read since. -/
def squeeze (tight pending : Bool) : List Char → List Char
  | [] => if pending && !tight then [' '] else []
  | c :: cs =>
    if Text.isBlank c then squeeze tight true cs
    else if pending && !tight && !isTight c then ' ' :: c :: squeeze (isTight c) false cs
    else c :: squeeze (isTight c) false cs

/-- The text without white space that says nothing. -/
def normalize (cs : List Char) : List Char :=
  Text.trim (squeeze false false cs)

/-- Squeezing blanks does not lengthen a text, apart from a blank that is still pending. -/
theorem length_squeeze_le (tight pending : Bool) (cs : List Char) :
    (squeeze tight pending cs).length ≤ cs.length + pending.toNat := by
  induction cs generalizing tight pending with
  | nil => cases tight <;> cases pending <;> simp [squeeze]
  | cons c cs ih =>
    rw [squeeze]
    split
    -- A blank is not written, but one may now be pending.
    · have := ih tight true
      simp only [Bool.toNat_true, List.length_cons] at *
      omega
    · have := ih (isTight c) false
      simp only [Bool.toNat_false] at this
      split
      -- The pending blank is written in front of the character.
      · next h =>
        have hp : pending = true := by
          cases pending
          · simp at h
          · rfl
        simp only [hp, Bool.toNat_true, List.length_cons]
        omega
      · simp only [List.length_cons]
        omega

/-- Removing white space does not lengthen a text. -/
theorem length_normalize_le (cs : List Char) : (normalize cs).length ≤ cs.length := by
  have := length_squeeze_le false false cs
  exact Nat.le_trans (Text.length_trim_le _) (by simpa using this)

/-! ## Parts of a selector -/

/-- What stands inside a bracket that has just been opened, up to the mark that closes it, and the
text after that mark. `depth` marks inside it are open as well. -/
def balanced (opening closing : Char) (depth : Nat) : List Char → List Char × List Char
  | [] => ([], [])
  | c :: cs =>
    if c = opening then
      let (inner, rest) := balanced opening closing (depth + 1) cs
      (c :: inner, rest)
    else if c = closing then
      if depth = 0 then ([], cs)
      else
        let (inner, rest) := balanced opening closing (depth - 1) cs
        (c :: inner, rest)
    else
      let (inner, rest) := balanced opening closing depth cs
      (c :: inner, rest)

/-- What stands between brackets and what comes behind them are together no longer than the text. -/
theorem length_balanced_le (opening closing : Char) (depth : Nat) (cs : List Char) :
    (balanced opening closing depth cs).1.length + (balanced opening closing depth cs).2.length ≤
      cs.length := by
  induction cs generalizing depth with
  | nil => simp [balanced]
  | cons c cs ih =>
    rw [balanced]
    split
    -- An opening bracket goes one level down, a closing one goes one level up or ends the part, and
    -- any other character leaves the level as it is.
    · have := ih (depth + 1)
      simp only [List.length_cons]
      omega
    · split
      · split
        · simp
        · have := ih (depth - 1)
          simp only [List.length_cons]
          omega
      · have := ih depth
        simp only [List.length_cons]
        omega

/-- The test that stands between brackets. -/
def attributeTest (span : List Char) : AttributeTest :=
  match Text.splitOnce '=' span with
  | none => ⟨String.ofList (Text.trim span), .present, ""⟩
  | some (front, back) =>
    let front := Text.trim front
    let value := String.ofList (Text.unquote (Text.trim back))
    match front.getLast?.bind Comparison.ofMarker? with
    | some comparison => ⟨String.ofList (Text.trimEnd front.dropLast), comparison, value⟩
    | none => ⟨String.ofList front, .equal, value⟩

/-- A part of the text of a selector. -/
inductive Lexeme where
  /-- A token. -/
  | token (token : Token)
  /-- A comma, which ends a group. -/
  | comma
  /-- A character that no part starts with. -/
  | skipped (c : Char)
  deriving DecidableEq, Repr

/-- The pseudo-class after a colon, and the text after it. -/
def pseudoClass (cs : List Char) : Token × List Char :=
  let name := String.ofList (cs.takeWhile isIdChar)
  match cs.dropWhile isIdChar with
  | '(' :: tail =>
    let (argument, rest) := balanced '(' ')' 0 tail
    (.pseudoClass name (some (String.ofList argument)), rest)
  | rest => (.pseudoClass name none, rest)

/-- The test after `+` or `~`, and the text after it. -/
def siblingTest (cs : List Char) : String × List Char :=
  let tail := cs.dropWhile (· == ' ')
  (String.ofList (tail.takeWhile isSiblingChar), tail.dropWhile isSiblingChar)

/-- The part that starts with the character `c`, where `cs` stands after that character, and the
text after the part. -/
def lexeme (c : Char) (cs : List Char) : Lexeme × List Char :=
  if isTagChar c then
    (.token (.tag (String.ofList (c :: cs.takeWhile isTagChar))), cs.dropWhile isTagChar)
  else
    match c with
    | '#' => (.token (.id (String.ofList (cs.takeWhile isIdChar))), cs.dropWhile isIdChar)
    | '.' =>
      (.token (.classes (String.ofList (cs.takeWhile isClassChar))), cs.dropWhile isClassChar)
    | '[' =>
      let (span, rest) := balanced '[' ']' 0 cs
      (.token (.attr (attributeTest span)), rest)
    | ':' =>
      let (token, rest) := pseudoClass cs
      (.token token, rest)
    | '+' =>
      let (sub, rest) := siblingTest cs
      (.token (.adjacent sub), rest)
    | '~' =>
      let (sub, rest) := siblingTest cs
      (.token (.general sub), rest)
    | '>' => (.token .child, cs)
    | ' ' => (.token .descendant, cs)
    | ',' => (.comma, cs.dropWhile (· == ' '))
    | c => (.skipped c, cs)

/-- How much text is nested in a part. -/
def Lexeme.weight : Lexeme → Nat
  | token t => t.weight
  | comma | skipped _ => 0

/-- A pseudo-class weighs no more than the characters that it takes and its colon. -/
theorem weight_pseudoClass_add_le (cs : List Char) :
    (pseudoClass cs).1.weight + (pseudoClass cs).2.length ≤ cs.length + 1 := by
  have hdrop := Text.length_dropWhile_le isIdChar cs
  rw [pseudoClass]
  split
  · next tail heq =>
    have hbal := length_balanced_le '(' ')' 0 tail
    rw [heq, List.length_cons] at hdrop
    simp only [Token.weight, Option.getD_some, String.length_ofList]
    omega
  · simp only [Token.weight, Option.getD_none, String.length_empty]
    omega

/-- A sibling test does not lengthen the text that is left. -/
theorem length_siblingTest_le (cs : List Char) : (siblingTest cs).2.length ≤ cs.length :=
  Nat.le_trans (Text.length_dropWhile_le _ _) (Text.length_dropWhile_le _ _)

/-- The text nested in a part is taken from the text of the part. -/
theorem weight_lexeme_add_le (c : Char) (cs : List Char) :
    (lexeme c cs).1.weight + (lexeme c cs).2.length ≤ cs.length + 1 := by
  -- All parts but one hold no nested text, and leave no more than what stands behind `c`.
  have key : ∀ {rest : List Char}, rest.length ≤ cs.length → 0 + rest.length ≤ cs.length + 1 :=
    fun h => by omega
  unfold lexeme
  split
  · exact key (Text.length_dropWhile_le isTagChar cs)
  · split
    · exact key (Text.length_dropWhile_le isIdChar cs)
    · exact key (Text.length_dropWhile_le isClassChar cs)
    · exact key (Nat.le_trans (Nat.le_add_left _ _) (length_balanced_le '[' ']' 0 cs))
    · exact weight_pseudoClass_add_le cs
    · exact key (length_siblingTest_le cs)
    · exact key (length_siblingTest_le cs)
    · exact key (Nat.le_refl _)
    · exact key (Nat.le_refl _)
    · exact key (Text.length_dropWhile_le (· == ' ') cs)
    · exact key (Nat.le_refl _)

/-- A pseudo-class does not lengthen the text that is left. -/
theorem length_pseudoClass_le (cs : List Char) : (pseudoClass cs).2.length ≤ cs.length := by
  have := weight_pseudoClass_add_le cs
  have : 0 < (pseudoClass cs).1.weight := by
    rw [pseudoClass]
    split <;> simp [Token.weight]
  omega

/-- What is left behind a part is no longer than what stood behind its first character. -/
theorem length_lexeme_le (c : Char) (cs : List Char) : (lexeme c cs).2.length ≤ cs.length := by
  unfold lexeme
  split
  · exact Text.length_dropWhile_le isTagChar cs
  · split
    · exact Text.length_dropWhile_le isIdChar cs
    · exact Text.length_dropWhile_le isClassChar cs
    · exact Nat.le_trans (Nat.le_add_left _ _) (length_balanced_le '[' ']' 0 cs)
    · exact length_pseudoClass_le cs
    · exact length_siblingTest_le cs
    · exact length_siblingTest_le cs
    · exact Nat.le_refl _
    · exact Nat.le_refl _
    · exact Text.length_dropWhile_le (· == ' ') cs
    · exact Nat.le_refl _

end TreeQuery.Selector
