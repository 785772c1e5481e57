import Mathlib.Tactic.Common
import TreeQuery.Selector.Scan

/-!
# Characters of names

No letter and no digit is blank (`isAlphanumeric_eq_false`), so no character of a word is
(`isBlank_eq_false_of_isWordChar`). A scanner takes a run of characters off the front in one piece
(`takeWhile_run`, `dropWhile_run`), and no character of their kind follows (`head?_dropWhile`).
-/

namespace TreeQuery

namespace Text

/-- The blank characters above ASCII as ranges, with both ends included. -/
def blankRanges : List (Nat × Nat) :=
  [(0x85, 0x85), (0xA0, 0xA0), (0x1680, 0x1680), (0x2000, 0x200A), (0x2028, 0x2029),
    (0x202F, 0x202F), (0x205F, 0x205F), (0x3000, 0x3000)]

/-- A blank character above ASCII lies in one of the ranges. -/
theorem exists_blankRange {c : Char} (h : isBlank c = true) (hc : ¬ c.toNat < 0x80) :
    ∃ range ∈ blankRanges, range.1 ≤ c.toNat ∧ c.toNat ≤ range.2 := by
  unfold isBlank at h
  unfold blankRanges
  simp only [Bool.or_eq_true, Bool.and_eq_true, decide_eq_true_eq, beq_iff_eq] at h
  simp only [List.mem_cons, List.not_mem_nil, or_false, exists_eq_or_imp, exists_eq_left]
  omega

/-- The table of letters and digits leaves the blank characters out. -/
theorem blankRanges_disjoint :
    (blankRanges.all fun blank => alphanumericRanges.all fun range =>
      decide (range.2 < blank.1) || decide (blank.2 < range.1)) = true := by
  decide +kernel

/-- The letters and digits of core's class start at the digit 0. -/
theorem le_toNat_of_isAlphanum {c : Char} (h : c.isAlphanum = true) : 0x30 ≤ c.toNat := by
  delta Char.isAlphanum Char.isAlpha Char.isUpper Char.isLower Char.isDigit at h
  simp only [Bool.or_eq_true, Bool.and_eq_true, decide_eq_true_eq, ge_iff_le,
    UInt32.le_iff_toNat_le] at h
  have hval : c.toNat = c.val.toNat := rfl
  rcases h with (h | h) | h <;> (have hle := h.1; simp at hle; omega)

/-- No letter or digit is blank. -/
theorem isAlphanumeric_eq_false {c : Char} (h : isBlank c = true) : isAlphanumeric c = false := by
  unfold isAlphanumeric
  split_ifs with hc
  -- An ASCII blank comes before the digit 0, and so before all letters and digits.
  · rw [Bool.eq_false_iff]
    intro halphanum
    have hle := le_toNat_of_isAlphanum halphanum
    unfold isBlank at h
    simp only [Bool.or_eq_true, Bool.and_eq_true, decide_eq_true_eq, beq_iff_eq] at h
    omega
  -- Another blank lies in one of the ranges of blanks, and these keep apart from those of letters.
  · obtain ⟨blank, hblank, hlow, hhigh⟩ := exists_blankRange h hc
    have hdisjoint := List.all_eq_true.mp (List.all_eq_true.mp blankRanges_disjoint blank hblank)
    unfold inRanges
    rw [Bool.eq_false_iff]
    intro hany
    obtain ⟨range, hrange, hin⟩ := List.any_eq_true.mp hany
    have hapart := hdisjoint range hrange
    simp only [Bool.or_eq_true, Bool.and_eq_true, decide_eq_true_eq] at hapart hin
    omega

end Text

/-! ## Runs of characters -/

section Runs

variable {p : Char → Bool} {run rest : List Char}

/-- A run that ends where no character of its kind follows is taken off in one piece. -/
theorem takeWhile_run (hrun : ∀ c ∈ run, p c = true) (hrest : ∀ c ∈ rest.head?, p c = false) :
    (run ++ rest).takeWhile p = run := by
  rw [List.takeWhile_append_of_pos hrun]
  cases rest with
  | nil => exact List.append_nil _
  | cons c rest =>
    rw [List.takeWhile_cons_of_neg (by simp [hrest c rfl]), List.append_nil]

/-- What is left behind such a run is the rest. -/
theorem dropWhile_run (hrun : ∀ c ∈ run, p c = true) (hrest : ∀ c ∈ rest.head?, p c = false) :
    (run ++ rest).dropWhile p = rest := by
  rw [List.dropWhile_append_of_pos hrun]
  cases rest with
  | nil => rfl
  | cons c rest => rw [List.dropWhile_cons_of_neg (by simp [hrest c rfl])]

/-- A run of characters ends where no character of its kind follows. -/
theorem head?_dropWhile (cs : List Char) : ∀ c ∈ (cs.dropWhile p).head?, p c = false := by
  intro c hc
  have hhead := List.head?_dropWhile_not p cs
  rw [hc] at hhead
  simpa using hhead

end Runs

namespace Selector

/-- No character of a word is blank. -/
theorem isBlank_eq_false_of_isWordChar {c : Char} (h : isWordChar c = true) :
    Text.isBlank c = false := by
  unfold isWordChar at h
  rcases Bool.or_eq_true_iff.mp h with h | h
  · rw [Bool.eq_false_iff]
    intro hblank
    rw [Text.isAlphanumeric_eq_false hblank] at h
    cases h
  · rw [beq_iff_eq.mp h]
    rfl

end Selector

end TreeQuery
