import Mathlib.Algebra.Ring.Int.Defs
import Mathlib.Algebra.Ring.Nat
import TreeQuery.Number.Piece
import TreeQuery.Proofs.Spacing

/-!
# What bounded integers stand for

The operations on integers of 64 bits, read over all integers. One that brings its result into range
is `nearest` to the exact result, and this is kept digit by digit when a number is read, so that
`read` gives the integer that a text writes, brought into range once (`toInt_read`). A list is held
in memory and has fewer than `2 ^ 63` items; then a piece of it is what the same rules give over all
integers (`piece_eq`).
-/

namespace TreeQuery.Bounded

variable {a b : Int64} {i : Int}

/-- The integer of 64 bits that is nearest to `i`, as one of all integers. -/
def nearest (i : Int) : Int :=
  max (-2 ^ 63) (min i (2 ^ 63 - 1))

/-- From 0 on, only the greatest integer in range bounds. -/
theorem nearest_of_nonneg (hi : 0 ≤ i) : nearest i = min i (2 ^ 63 - 1) := by
  unfold nearest
  omega

/-- Below 0, only the least integer in range bounds. -/
theorem nearest_of_neg (hi : i < 0) : nearest i = max (-2 ^ 63) i := by
  unfold nearest
  omega

/-- Bringing an integer into range gives the nearest one there. -/
theorem toInt_saturate (i : Int) : (saturate i).toInt = nearest i := by
  have hmin : Int64.minValue.toInt = -2 ^ 63 := rfl
  have hmax : Int64.maxValue.toInt = 2 ^ 63 - 1 := rfl
  unfold saturate nearest
  rw [hmin, hmax]
  split_ifs with hl hu
  · omega
  · omega
  · rw [Int64.toInt_ofInt_of_le (by omega) (by omega)]
    omega

/-- The bounded sum is the one nearest to the exact sum. -/
theorem toInt_saturatingAdd (a b : Int64) :
    (saturatingAdd a b).toInt = nearest (a.toInt + b.toInt) :=
  toInt_saturate _

/-- The bounded difference is the one nearest to the exact difference. -/
theorem toInt_saturatingSub (a b : Int64) :
    (saturatingSub a b).toInt = nearest (a.toInt - b.toInt) :=
  toInt_saturate _

/-- The bounded product is the one nearest to the exact product. -/
theorem toInt_saturatingMul (a b : Int64) :
    (saturatingMul a b).toInt = nearest (a.toInt * b.toInt) :=
  toInt_saturate _

/-! ## Operations that stay in range -/

/-- An integer in range is the remainder of itself. -/
theorem bmod_eq_self (hl : -2 ^ 63 ≤ i) (hu : i < 2 ^ 63) : i.bmod (2 ^ 64) = i :=
  Int.bmod_eq_of_le (by omega) (by omega)

/-- The sum of two integers with different signs is in range. -/
theorem toInt_add (ha : 0 ≤ a.toInt) (hb : b.toInt < 0) : (a + b).toInt = a.toInt + b.toInt := by
  have hle := b.le_toInt
  have hlt := a.toInt_lt
  rw [Int64.toInt_add, bmod_eq_self (by omega) (by omega)]

/-- Apart from the least one, the opposite of an integer is in range. -/
theorem toInt_neg (ha : 0 ≤ a.toInt) : (-a).toInt = -a.toInt := by
  have hlt := a.toInt_lt
  rw [Int64.toInt_neg, bmod_eq_self (by omega) (by omega)]

/-- The greater of two integers is so over all integers. -/
theorem toInt_max (a b : Int64) : (max a b).toInt = max a.toInt b.toInt := by
  have hmax : max a b = if a ≤ b then b else a := rfl
  simp only [hmax, Int64.le_iff_toInt_le]
  split_ifs <;> omega

/-- The smaller of two integers is so over all integers. -/
theorem toInt_min (a b : Int64) : (min a b).toInt = min a.toInt b.toInt := by
  have hmin : min a b = if a ≤ b then a else b := rfl
  simp only [hmin, Int64.le_iff_toInt_le]
  split_ifs <;> omega

/-! ## Reading -/

/-- The natural number that the decimal digits at the start of a text write. -/
def naturalAt (cs : List Char) : Nat :=
  Nat.ofDigitChars 10 (cs.takeWhile Char.isDigit) 0

/-- What a text writes at its start: behind blanks, with at most one sign, a magnitude. -/
def signed {α : Type} [Neg α] (magnitude : List Char → α) (cs : List Char) : α :=
  match Text.trimStart cs with
  | '-' :: rest => -magnitude rest
  | '+' :: rest => magnitude rest
  | rest => magnitude rest

/-- The integer that a text writes at its start. -/
def integerAt (cs : List Char) : Int :=
  signed (fun rest => naturalAt rest) cs

/-- Reading takes the digits together and then the sign. -/
theorem read_eq_signed (cs : List Char) : read cs = signed magnitude cs :=
  rfl

/-- A digit stands for its distance from the digit 0. -/
theorem toInt_digit {c : Char} (hc : c.isDigit = true) :
    (digit c).toInt = (c.toNat - '0'.toNat : Nat) := by
  have hle : c.toNat ≤ '9'.toNat := by
    simp only [Char.isDigit, Bool.and_eq_true, decide_eq_true_eq] at hc
    exact hc.2
  have h9 : '9'.toNat = 57 := rfl
  exact Int64.toInt_ofNat_of_lt (by omega)

/-- One more digit, behind a number that has been brought into range. -/
theorem toInt_appendDigit {c : Char} (hc : c.isDigit = true) {n : Nat}
    (ha : a.toInt = min (n : Int) (2 ^ 63 - 1)) :
    (saturatingAdd (saturatingMul a 10) (digit c)).toInt =
      min ((10 * n + (c.toNat - '0'.toNat) : Nat) : Int) (2 ^ 63 - 1) := by
  have hten : (10 : Int64).toInt = 10 := rfl
  rw [toInt_saturatingAdd, toInt_saturatingMul, toInt_digit hc, ha, hten]
  unfold nearest
  omega

/-- Bringing each digit into range brings the whole number into range. -/
theorem toInt_magnitude (cs : List Char) :
    (magnitude cs).toInt = min (naturalAt cs : Int) (2 ^ 63 - 1) := by
  -- The number read so far is in range, and so the induction needs it as an accumulator.
  suffices h : ∀ (digits : List Char) (a : Int64) (n : Nat), (∀ c ∈ digits, c.isDigit = true) →
      a.toInt = min (n : Int) (2 ^ 63 - 1) →
      (digits.foldl (fun value c => saturatingAdd (saturatingMul value 10) (digit c)) a).toInt =
        min (Nat.ofDigitChars 10 digits n : Int) (2 ^ 63 - 1) from
    h _ 0 0 (fun _ => List.mem_takeWhile_imp) rfl
  intro digits
  induction digits with
  | nil => exact fun a n _ ha => ha
  | cons c digits ih =>
    intro a n hdigits ha
    rw [List.foldl_cons, Nat.ofDigitChars_cons]
    exact ih _ _ (fun d hd => hdigits d (List.mem_cons_of_mem c hd))
      (toInt_appendDigit (hdigits c List.mem_cons_self) ha)

/-- The integer that is read is the one that the text writes, brought into range. The least integer
of 64 bits cannot be read: its opposite is out of range. -/
theorem toInt_read (cs : List Char) :
    (read cs).toInt = max (-(2 ^ 63 - 1)) (min (integerAt cs) (2 ^ 63 - 1)) := by
  rw [read_eq_signed, integerAt]
  unfold signed
  split
  -- A magnitude is not negative, so that its opposite is in range.
  · next rest _ =>
    have hmagnitude := toInt_magnitude rest
    rw [toInt_neg (by omega), hmagnitude]
    dsimp only
    omega
  · rw [toInt_magnitude]
    dsimp only
    omega
  · rw [toInt_magnitude]
    dsimp only
    omega

/-! ## Numerals -/

/-- The digits of a natural number. -/
theorem isDigit_of_mem_toDigits {n : Nat} {c : Char} (hc : c ∈ Nat.toDigits 10 n) :
    c.isDigit = true :=
  Nat.isDigit_of_mem_toDigits (by decide) (by decide) hc

/-- The digits of a natural number are read back to it. -/
theorem naturalAt_toDigits (n : Nat) : naturalAt (Nat.toDigits 10 n) = n := by
  have hdigits : (Nat.toDigits 10 n).takeWhile Char.isDigit = Nat.toDigits 10 n :=
    List.takeWhile_eq_self_iff.mpr fun _ => isDigit_of_mem_toDigits
  rw [naturalAt, hdigits, Nat.ofDigitChars_ten_toDigits]

/-- A digit is not blank. -/
theorem isBlank_eq_false_of_isDigit {c : Char} (hc : c.isDigit = true) :
    Text.isBlank c = false := by
  simp only [Char.isDigit, Bool.and_eq_true, decide_eq_true_eq] at hc
  have hge : 48 ≤ c.toNat := hc.1
  have hle : c.toNat ≤ 57 := hc.2
  simp only [Text.isBlank, Bool.or_eq_false_iff, Bool.and_eq_false_iff, decide_eq_false_iff_not,
    beq_eq_false_iff_ne]
  omega

/-- A text that starts with a digit writes a natural number. -/
theorem integerAt_of_isDigit {c : Char} (hc : c.isDigit = true) (cs : List Char) :
    integerAt (c :: cs) = naturalAt (c :: cs) := by
  have htrim : Text.trimStart (c :: cs) = c :: cs :=
    List.dropWhile_cons_of_neg (by simp [isBlank_eq_false_of_isDigit hc])
  unfold integerAt signed
  rw [htrim]
  split
  · next heq =>
    obtain ⟨rfl, -⟩ := List.cons.inj heq
    cases hc
  · next heq =>
    obtain ⟨rfl, -⟩ := List.cons.inj heq
    cases hc
  · rfl

/-- The digits of a natural number write it. -/
theorem integerAt_toDigits (n : Nat) : integerAt (Nat.toDigits 10 n) = n := by
  have hdigit : ∀ c ∈ Nat.toDigits 10 n, c.isDigit = true := fun _ => isDigit_of_mem_toDigits
  have hnatural := naturalAt_toDigits n
  cases hdigits : Nat.toDigits 10 n with
  | nil => exact absurd hdigits Nat.toDigits_ne_nil
  | cons c cs =>
    rw [hdigits] at hdigit hnatural
    rw [integerAt_of_isDigit (hdigit c List.mem_cons_self), hnatural]

/-- An integer from 0 on is written by the digits of its magnitude. -/
theorem toList_toString_of_nonneg (hi : 0 ≤ i) :
    (toString i).toList = Nat.toDigits 10 i.toNat := by
  rw [Int.toString_eq_repr, Int.repr_eq_if, if_pos hi, Nat.toList_repr]

/-- An integer below 0 is written by a sign and the digits of its magnitude. -/
theorem toList_toString_of_neg (hi : i < 0) :
    (toString i).toList = '-' :: Nat.toDigits 10 (-i).toNat := by
  rw [Int.toString_eq_repr, Int.repr_eq_if, if_neg (by omega), String.toList_append,
    Nat.toList_repr]
  rfl

/-- The text of an integer writes it. -/
theorem integerAt_toString (i : Int) : integerAt (toString i).toList = i := by
  obtain hi | hi := Int.lt_or_le i 0
  · rw [toList_toString_of_neg hi]
    change -(naturalAt (Nat.toDigits 10 (-i).toNat) : Int) = i
    rw [naturalAt_toDigits]
    omega
  · rw [toList_toString_of_nonneg hi, integerAt_toDigits]
    omega

/-- The text of an integer is made of digits and a sign. -/
theorem of_mem_toString {c : Char} (hc : c ∈ (toString i).toList) :
    c = '-' ∨ c.isDigit = true := by
  obtain hi | hi := Int.lt_or_le i 0
  · rw [toList_toString_of_neg hi, List.mem_cons] at hc
    exact hc.imp_right isDigit_of_mem_toDigits
  · rw [toList_toString_of_nonneg hi] at hc
    exact .inr (isDigit_of_mem_toDigits hc)

/-- Every integer is written by some characters. -/
theorem toList_toString_ne_nil (i : Int) : (toString i).toList ≠ [] := by
  obtain hi | hi := Int.lt_or_le i 0
  · rw [toList_toString_of_neg hi]
    exact List.cons_ne_nil _ _
  · rw [toList_toString_of_nonneg hi]
    exact Nat.toDigits_ne_nil

/-- Blanks in front of a number do not matter. -/
theorem integerAt_append {gap : List Char} (hgap : ∀ c ∈ gap, Text.isBlank c = true)
    (cs : List Char) : integerAt (gap ++ cs) = integerAt cs := by
  have htrim : Text.trimStart (gap ++ cs) = Text.trimStart cs :=
    List.dropWhile_append_of_pos hgap
  unfold integerAt signed
  rw [htrim]

end TreeQuery.Bounded

namespace TreeQuery

open Bounded

/-! ## Pieces -/

/-- The place that an index stands for in a list of that length. A negative index counts from the
end, and one outside the list stands for the end that is nearer. -/
def placeOf (length : Nat) (index : Int) : Nat :=
  (max 0 (min (if index < 0 then length + index else index) length)).toNat

/-- The place where a piece ends that starts at a place of a list of that length. A negative count
leaves out that many items at the end of the list, and without a count the piece reaches to the
end. -/
def stopOf (length start : Nat) : Option Int → Nat
  | none => length
  | some count =>
    if count < 0 then (max (length + count) start).toNat else (min (start + count) length).toNat

variable {length start : Int64} {size place : Nat}

/-- A length that is out of range counts as the largest in range. -/
theorem toInt_boundedLength {α : Type} (items : List α) :
    (boundedLength items).toInt = (min items.length (2 ^ 63 - 1) : Nat) := by
  rw [boundedLength, toInt_saturate, nearest]
  omega

/-- The start of a piece is where it is over all integers. -/
theorem toInt_pieceStart (hlength : length.toInt = size) (offset : Int64) :
    (pieceStart length offset).toInt = placeOf size offset.toInt := by
  have hzero : (0 : Int64).toInt = 0 := rfl
  unfold pieceStart placeOf
  simp only [Int64.lt_iff_toInt_lt, hzero]
  split_ifs with hoffset
  · rw [toInt_max, toInt_add (by omega) hoffset, hlength, hzero]
    omega
  · rw [toInt_min, hlength]
    omega

/-- The end of a piece is where it is over all integers. -/
theorem toInt_pieceEnd (hlength : length.toInt = size) (hstart : start.toInt = place)
    (count : Option Int64) :
    (pieceEnd length start count).toInt = stopOf size place (count.map Int64.toInt) := by
  cases count with
  | none => exact hlength
  | some count =>
    have hzero : (0 : Int64).toInt = 0 := rfl
    have hlt := length.toInt_lt
    simp only [pieceEnd, stopOf, Option.map_some, Int64.lt_iff_toInt_lt, hzero]
    split_ifs with hcount
    -- A negative count goes back from the end of the list, so the sum does not overflow.
    · rw [toInt_max, toInt_add (by omega) hcount, hlength, hstart]
      omega
    -- Otherwise the sum may be brought into range, which is still beyond the length of the list.
    · rw [toInt_min, toInt_saturatingAdd, hlength, hstart]
      unfold nearest
      omega

/-- A piece of a list, by the rules over all integers. Only the length of the list is brought into
range. -/
theorem piece_eq_of_size {α : Type} {items : List α} {size : Nat}
    (hsize : size = min items.length (2 ^ 63 - 1)) (offset : Int64) (count : Option Int64) :
    piece items offset count =
      (items.drop (placeOf size offset.toInt)).take
        (stopOf size (placeOf size offset.toInt) (count.map Int64.toInt) -
          placeOf size offset.toInt) := by
  have hlength := toInt_boundedLength items
  rw [← hsize] at hlength
  have hstart := toInt_pieceStart hlength offset
  have hend := toInt_pieceEnd hlength hstart count
  simp only [piece, ← Int64.toNat_toInt, hstart, hend, Int.toNat_natCast]

/-- A piece of a list that is held in memory, by the rules over all integers. -/
theorem piece_eq {α : Type} {items : List α} (h : items.length < 2 ^ 63) (offset : Int64)
    (count : Option Int64) :
    piece items offset count =
      (items.drop (placeOf items.length offset.toInt)).take
        (stopOf items.length (placeOf items.length offset.toInt) (count.map Int64.toInt) -
          placeOf items.length offset.toInt) :=
  piece_eq_of_size (by omega) offset count

end TreeQuery
