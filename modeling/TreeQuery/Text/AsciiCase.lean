/-!
# ASCII case

Comparison of names that tells the letters `a` to `z` from no other but `A` to `Z`.
-/

namespace TreeQuery.Text

/-- The text with the letters `A` to `Z` in lower case and all else as it is. -/
def asciiLower (cs : List Char) : List Char :=
  cs.map Char.toLower

/-- Whether two names are the same up to the case of ASCII letters. -/
def sameName (a b : String) : Bool :=
  asciiLower a.toList == asciiLower b.toList

/-- A name is the same as itself. -/
theorem sameName_self (a : String) : sameName a a = true := by
  simp [sameName]

end TreeQuery.Text
