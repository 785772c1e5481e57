/-!
# Quotes around a value

A value may be put between two double or two single quotes, which do not belong to it.
-/

namespace TreeQuery.Text

/-- What stands between two quotes of one kind that open and close a text. -/
def between? (mark : Char) : List Char → Option (List Char)
  | [] => none
  | c :: cs => if c = mark && cs.getLast? = some mark then some cs.dropLast else none

/-- The text without the quotes around it, if there are any. One pair is taken off. -/
def unquote (cs : List Char) : List Char :=
  (between? '"' cs).getD ((between? '\'' cs).getD cs)

/-- What stands between two marks is no longer than the text with them. -/
theorem length_le_of_between? {mark : Char} {cs inner : List Char}
    (h : between? mark cs = some inner) : inner.length ≤ cs.length := by
  cases cs with
  | nil => simp [between?] at h
  | cons c cs =>
    rw [between?] at h
    split at h
    · simp only [Option.some.injEq] at h
      rw [← h, List.length_dropLast, List.length_cons]
      omega
    · simp at h

/-- Taking quotes off does not lengthen a text. -/
theorem length_unquote_le (cs : List Char) : (unquote cs).length ≤ cs.length := by
  rw [unquote]
  cases hd : between? '"' cs with
  | some inner => exact length_le_of_between? hd
  | none =>
    cases hs : between? '\'' cs with
    | some inner => exact length_le_of_between? hs
    | none => exact Nat.le_refl _

end TreeQuery.Text
