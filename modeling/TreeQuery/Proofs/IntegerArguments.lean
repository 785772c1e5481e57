import TreeQuery.Proofs.Progressions

/-!
# Integers in arguments

What a text says at its start is an integer of any size (`Opens`): blanks are skipped, and then
stand at most one sign and a run of digits. Reading gives this integer, brought into range. A piece
of a list is then taken with sums of which some are computed as they are. `read?` and `piece?`
compute so too, and give nothing where a result is out of range, as `checkedAdd?` does. They always
give what `read` and `piece` give, so no result ever is.
-/

namespace TreeQuery.Bounded

variable {a b : Int64} {i : Int} {cs digits rest : List Char}

/-! ## Results in range -/

/-- The sum, if it is in range. -/
def checkedAdd? (a b : Int64) : Option Int64 :=
  ofInt? (a.toInt + b.toInt)

/-- The opposite, if it is in range. -/
def checkedNeg? (a : Int64) : Option Int64 :=
  ofInt? (-a.toInt)

/-- The sum of two integers with different signs is computed. -/
theorem checkedAdd?_eq (ha : 0 ≤ a.toInt) (hb : b.toInt < 0) : checkedAdd? a b = some (a + b) :=
  ofInt?_eq_some_iff.mpr (toInt_add ha hb)

/-- The opposite of an integer from 0 on is computed. -/
theorem checkedNeg?_eq (ha : 0 ≤ a.toInt) : checkedNeg? a = some (-a) :=
  ofInt?_eq_some_iff.mpr (toInt_neg ha)

/-! ## Texts -/

/-- A run of digits, up to something that is none. -/
def Run (digits rest : List Char) : Prop :=
  (∀ c ∈ digits, c.isDigit = true) ∧ ∀ c ∈ rest.head?, c.isDigit = false

/-- A text opens with an integer: behind blanks, at most one sign and a run of digits. Without
digits the integer is 0. -/
inductive Opens : List Char → Int → Prop
  | blank {c : Char} {cs : List Char} {i : Int} (hc : Text.isBlank c = true) (h : Opens cs i) :
    Opens (c :: cs) i
  | minus {digits rest : List Char} (h : Run digits rest) :
    Opens ('-' :: (digits ++ rest)) (-valueOf digits)
  | plus {digits rest : List Char} (h : Run digits rest) :
    Opens ('+' :: (digits ++ rest)) (valueOf digits)
  | unsigned {digits rest : List Char} (h : Run digits rest)
    (hstart : ∀ c ∈ (digits ++ rest).head?, c ≠ '-' ∧ c ≠ '+' ∧ Text.isBlank c = false) :
    Opens (digits ++ rest) (valueOf digits)

/-- Every text has a run of digits at its front, which may be empty. -/
theorem exists_run (cs : List Char) : ∃ digits rest, cs = digits ++ rest ∧ Run digits rest :=
  ⟨cs.takeWhile Char.isDigit, cs.dropWhile Char.isDigit, List.takeWhile_append_dropWhile.symm,
    fun _ => List.mem_takeWhile_imp, head?_dropWhile cs⟩

/-- A text that starts with neither a blank nor a sign opens with its run of digits. -/
theorem exists_opens_unsigned
    (hstart : ∀ c ∈ cs.head?, c ≠ '-' ∧ c ≠ '+' ∧ Text.isBlank c = false) : ∃ i, Opens cs i := by
  obtain ⟨digits, rest, rfl, hrun⟩ := exists_run cs
  exact ⟨_, .unsigned hrun hstart⟩

/-- Every text opens with an integer. -/
theorem exists_opens (cs : List Char) : ∃ i, Opens cs i := by
  induction cs with
  | nil => exact exists_opens_unsigned fun _ hc => nomatch hc
  | cons c cs ih =>
    obtain ⟨digits, rest, hcs, hrun⟩ := exists_run cs
    -- Blanks are passed over, a sign opens an integer, and anything else is taken as it is.
    by_cases hblank : Text.isBlank c = true
    · obtain ⟨i, h⟩ := ih
      exact ⟨i, .blank hblank h⟩
    by_cases hminus : c = '-'
    · rw [hminus, hcs]
      exact ⟨_, .minus hrun⟩
    by_cases hplus : c = '+'
    · rw [hplus, hcs]
      exact ⟨_, .plus hrun⟩
    · refine exists_opens_unsigned fun d hd => ?_
      rw [← Option.some.inj hd]
      exact ⟨hminus, hplus, Bool.eq_false_iff.mpr hblank⟩

/-- The digits of a run are those that are read. -/
theorem naturalAt_run (h : Run digits rest) : naturalAt (digits ++ rest) = valueOf digits := by
  unfold naturalAt valueOf
  rw [takeWhile_run h.1 h.2]

/-- The integer that a text opens with is the one that it writes at its start. -/
theorem integerAt_of_opens (h : Opens cs i) : integerAt cs = i := by
  induction h with
  | @blank c cs i hc h ih =>
    -- A blank in front changes neither side.
    have hgap : ∀ d ∈ [c], Text.isBlank d = true := fun d hd => List.mem_singleton.mp hd ▸ hc
    rw [← ih, ← integerAt_append hgap cs, List.singleton_append]
  | minus h => exact congrArg (fun n : Nat => -(n : Int)) (naturalAt_run h)
  | plus h => exact congrArg (fun n : Nat => (n : Int)) (naturalAt_run h)
  -- Nothing is trimmed, and the text starts with no sign.
  | @unsigned digits rest h hstart =>
    have htrim : Text.trimStart (digits ++ rest) = digits ++ rest :=
      Text.trimStart_eq_self fun c hc => (hstart c hc).2.2
    rw [← naturalAt_run h]
    unfold integerAt signed
    rw [htrim]
    split
    · next heq => exact absurd rfl (hstart _ (heq ▸ rfl)).1
    · next heq => exact absurd rfl (hstart _ (heq ▸ rfl)).2.1
    · rfl

/-- The integer at the start of a text, where a sign is put in front only if the result is in
range. -/
def read? (cs : List Char) : Option Int64 :=
  match Text.trimStart cs with
  | '-' :: rest => checkedNeg? (magnitude rest)
  | '+' :: rest => some (magnitude rest)
  | rest => some (magnitude rest)

/-- Behind a minus sign, the opposite of the magnitude is read. -/
theorem read_of_minus (h : Text.trimStart cs = '-' :: rest) : read cs = -magnitude rest := by
  unfold read
  rw [h]
  rfl

/-- Behind a plus sign, the magnitude is read. -/
theorem read_of_plus (h : Text.trimStart cs = '+' :: rest) : read cs = magnitude rest := by
  unfold read
  rw [h]
  rfl

/-- Without a sign, the magnitude is read from the text itself. -/
theorem read_of_unsigned (hminus : ∀ rest, Text.trimStart cs ≠ '-' :: rest)
    (hplus : ∀ rest, Text.trimStart cs ≠ '+' :: rest) :
    read cs = magnitude (Text.trimStart cs) := by
  unfold read
  split
  · next rest h => exact absurd h (hminus rest)
  · next rest h => exact absurd h (hplus rest)
  · rfl

/-- A magnitude has an opposite in range. -/
theorem read?_eq (cs : List Char) : read? cs = some (read cs) := by
  unfold read?
  split
  · next rest h =>
    rw [read_of_minus h]
    exact checkedNeg?_eq (by rw [toInt_magnitude]; omega)
  · next rest h => rw [read_of_plus h]
  · next hminus hplus => rw [read_of_unsigned hminus hplus]

end TreeQuery.Bounded

namespace TreeQuery

open Bounded

variable {α : Type} {length start offset : Int64}

/-! ## Pieces -/

/-- Where a piece starts, if no sum is out of range. -/
def pieceStart? (length offset : Int64) : Option Int64 :=
  if offset < 0 then (checkedAdd? length offset).map (max · 0) else some (min offset length)

/-- Where a piece ends, if no sum is out of range that is not brought into it. -/
def pieceEnd? (length start : Int64) : Option Int64 → Option Int64
  | none => some length
  | some count =>
    if count < 0 then (checkedAdd? length count).map (max · start)
    else some (min (saturatingAdd start count) length)

/-- The place that an integer stands for, if it is not negative. -/
def index? (i : Int64) : Option Nat :=
  if 0 ≤ i then some i.toInt.toNat else none

/-- The piece of a list, if no sum is out of range. Ends that are no places give no items. -/
def piece? (items : List α) (offset : Int64) (count : Option Int64) : Option (List α) := do
  let length := boundedLength items
  let start ← pieceStart? length offset
  let stop ← pieceEnd? length start count
  match index? start, index? stop with
  | some start, some stop => return (items.drop start).take (stop - start)
  | _, _ => return []

/-- The start of a piece is computed without overflow. -/
theorem pieceStart?_eq (hlength : 0 ≤ length.toInt) (offset : Int64) :
    pieceStart? length offset = some (pieceStart length offset) := by
  unfold pieceStart? pieceStart
  split_ifs with hoffset
  · rw [checkedAdd?_eq hlength (Int64.lt_iff_toInt_lt.mp hoffset)]
    rfl
  · rfl

/-- The end of a piece is computed without overflow. -/
theorem pieceEnd?_eq (hlength : 0 ≤ length.toInt) (start : Int64) (count : Option Int64) :
    pieceEnd? length start count = some (pieceEnd length start count) := by
  cases count with
  | none => rfl
  | some count =>
    unfold pieceEnd? pieceEnd
    dsimp only
    split_ifs with hcount
    · rw [checkedAdd?_eq hlength (Int64.lt_iff_toInt_lt.mp hcount)]
      rfl
    · rfl

/-- An integer from 0 on is an index. -/
theorem index?_eq {i : Int64} (hi : 0 ≤ i.toInt) : index? i = some i.toNatClampNeg := by
  have hle : (0 : Int64) ≤ i := Int64.le_iff_toInt_le.mpr hi
  rw [index?, if_pos hle, ← Int64.toNat_toInt]

/-- No sum is ever out of range, and both ends are places. -/
theorem piece?_eq (items : List α) (offset : Int64) (count : Option Int64) :
    piece? items offset count = some (piece items offset count) := by
  have hlength := toInt_boundedLength items
  have hstart := toInt_pieceStart hlength offset
  have hend := toInt_pieceEnd hlength hstart count
  have hnonneg : 0 ≤ (boundedLength items).toInt := hlength ▸ Int.natCast_nonneg _
  unfold piece? piece
  dsimp only
  rw [pieceStart?_eq hnonneg, Option.bind_eq_bind, Option.bind_some, pieceEnd?_eq hnonneg,
    Option.bind_some, index?_eq (hstart ▸ Int.natCast_nonneg _),
    index?_eq (hend ▸ Int.natCast_nonneg _)]
  rfl

/-- **Integers in arguments are exact.** Every text opens with an integer, of any size, and what is
read is this integer, brought from below to `-(2 ^ 63 - 1)` and from above to `2 ^ 63 - 1`. For any
offset and count, the least ones of 64 bits included, no result is out of range on the way to a
piece of a list, and the piece is the one between the two places that the rules give over all
integers. A list held in memory has fewer than `2 ^ 63` items, so that its length is its size. -/
theorem arguments_exact (cs : List Char) (items : List α) (offset : Int64)
    (count : Option Int64) :
    (∃ i, Opens cs i) ∧
      (∀ i, Opens cs i → (read cs).toInt = max (-(2 ^ 63 - 1)) (min i (2 ^ 63 - 1))) ∧
      read? cs = some (read cs) ∧
      piece? items offset count = some (piece items offset count) ∧
      let size := min items.length (2 ^ 63 - 1)
      let place := placeOf size offset.toInt
      piece items offset count =
        (items.drop place).take (stopOf size place (count.map Int64.toInt) - place) := by
  refine ⟨exists_opens cs, fun i h => ?_, read?_eq cs, piece?_eq items offset count,
    piece_eq_of_size rfl offset count⟩
  rw [toInt_read, integerAt_of_opens h]

/-- For one, a number with more digits than 64 bits hold, and the least offset with the largest
count. -/
theorem arguments_exact_large :
    Opens " -99999999999999999999px".toList (-99999999999999999999) ∧
      (read " -99999999999999999999px".toList).toInt = -(2 ^ 63 - 1) ∧
      piece? [3, 1, 4] Int64.minValue (some Int64.maxValue) = some [3, 1, 4] := by
  have hrun : Run "99999999999999999999".toList "px".toList := by
    refine ⟨List.all_eq_true.mp rfl, fun c hc => ?_⟩
    rw [← Option.some.inj hc]
    rfl
  have hopens : Opens " -99999999999999999999px".toList (-99999999999999999999) :=
    .blank rfl (.minus hrun)
  obtain ⟨-, hread, -, hpiece, hexact⟩ := arguments_exact " -99999999999999999999px".toList
    [3, 1, 4] Int64.minValue (some Int64.maxValue)
  refine ⟨hopens, hread _ hopens, ?_⟩
  rw [hpiece, hexact]
  rfl

end TreeQuery
