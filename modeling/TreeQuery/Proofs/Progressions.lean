import Mathlib.Algebra.Order.Ring.Int
import TreeQuery.Number.Progression
import TreeQuery.Proofs.BoundedNumbers

/-!
# Progressions as they are written

`Written` is the grammar of the argument of `:nth-child`, with the coefficient and the offset that
each text stands for over all integers: `even`, `odd`, a number, or a coefficient, the letter `n`
and an offset. Reading splits a text at the first `n`, and takes `even`, which has one, beforehand;
it comes out at what the grammar says, if both numbers have 64 bits, and refuses every other text
(`ofExpression?_of_written`, `exists_written`). A position is in the progression that is read if it
is a term of it; with a coefficient below -1 all positions up to the offset are
(`contains_iff_term`, `contains_iff_of_neg`). The difference and the remainder that are computed for
this never leave the range of 64 bits where the position less the offset does not.
-/

namespace TreeQuery.Bounded

variable {a : Int64} {i : Int} {cs : List Char}

/-! ## Numerals -/

/-- An integer is taken for one of 64 bits exactly if it is one. -/
theorem ofInt?_eq_some_iff : ofInt? i = some a ↔ a.toInt = i := by
  have hmin : Int64.minValue.toInt = -2 ^ 63 := rfl
  have hmax : Int64.maxValue.toInt = 2 ^ 63 - 1 := rfl
  have hle := a.le_toInt
  have hlt := a.toInt_lt
  unfold ofInt?
  rw [hmin, hmax]
  constructor
  -- What is taken is in range, and so it stands for itself.
  · intro h
    split_ifs at h with hrange
    rw [Bool.and_eq_true, decide_eq_true_eq, decide_eq_true_eq] at hrange
    rw [← Option.some.inj h, Int64.toInt_ofInt_of_le (by omega) (by omega)]
  -- An integer of 64 bits passes the check of the range.
  · rintro rfl
    have hrange : (decide (-2 ^ 63 ≤ a.toInt) && decide (a.toInt ≤ 2 ^ 63 - 1)) = true := by
      rw [Bool.and_eq_true, decide_eq_true_eq, decide_eq_true_eq]
      omega
    rw [if_pos hrange, Int64.ofInt_toInt]

/-- A run of decimal digits. -/
def Digits (cs : List Char) : Prop :=
  cs ≠ [] ∧ ∀ c ∈ cs, c.isDigit = true

/-- The natural number that decimal digits write. -/
def valueOf (digits : List Char) : Nat :=
  Nat.ofDigitChars 10 digits 0

/-- A text writes an integer: digits, with at most one sign in front of them. -/
inductive Numeral : List Char → Int → Prop
  | unsigned {digits : List Char} (h : Digits digits) : Numeral digits (valueOf digits)
  | plus {digits : List Char} (h : Digits digits) : Numeral ('+' :: digits) (valueOf digits)
  | minus {digits : List Char} (h : Digits digits) : Numeral ('-' :: digits) (-valueOf digits)

/-- A numeral is made of digits and signs. -/
theorem Numeral.mem (h : Numeral cs i) : ∀ c ∈ cs, c = '+' ∨ c = '-' ∨ c.isDigit = true := by
  cases h with
  | unsigned h => exact fun c hc => .inr (.inr (h.2 c hc))
  | plus h =>
    exact List.forall_mem_cons.mpr ⟨.inl rfl, fun c hc => .inr (.inr (h.2 c hc))⟩
  | minus h =>
    exact List.forall_mem_cons.mpr ⟨.inr (.inl rfl), fun c hc => .inr (.inr (h.2 c hc))⟩

/-- A numeral has a digit. -/
theorem Numeral.exists_digit (h : Numeral cs i) : ∃ c ∈ cs, c.isDigit = true := by
  have hdigits : ∀ {digits}, Digits digits → ∃ c ∈ digits, c.isDigit = true := by
    intro digits ⟨hne, hall⟩
    obtain ⟨c, hc⟩ := List.exists_mem_of_ne_nil digits hne
    exact ⟨c, hc, hall c hc⟩
  cases h with
  | unsigned h => exact hdigits h
  | plus h | minus h =>
    obtain ⟨c, hc, hdigit⟩ := hdigits h
    exact ⟨c, List.mem_cons_of_mem _ hc, hdigit⟩

/-- What is read of digits behind a sign, or without one. -/
def readDigits? (negative : Bool) (digits : List Char) : Option Int64 :=
  if digits.isEmpty || !digits.all Char.isDigit then none
  else ofInt? (if negative then -(valueOf digits : Int) else valueOf digits)

/-- The sign that a text starts with, and what stands behind it. -/
theorem readAll?_eq (cs : List Char) :
    (∃ digits, cs = '-' :: digits ∧ readAll? cs = readDigits? true digits) ∨
      (∃ digits, cs = '+' :: digits ∧ readAll? cs = readDigits? false digits) ∨
        ((∀ c ∈ cs.head?, c ≠ '-' ∧ c ≠ '+') ∧ readAll? cs = readDigits? false cs) := by
  -- The number that is kept digit by digit is the value of the digits.
  have hvalue : ∀ digits : List Char,
      digits.foldl (fun value c => value * 10 + (c.toNat - '0'.toNat)) 0 = valueOf digits := by
    intro digits
    unfold valueOf Nat.ofDigitChars
    simp only [Nat.mul_comm]
  unfold readAll?
  simp only [hvalue]
  split
  · exact .inl ⟨_, rfl, rfl⟩
  · exact .inr (.inl ⟨_, rfl, rfl⟩)
  -- Neither of the two signs comes first, in a text with a first character.
  · next hminus hplus =>
    refine .inr (.inr ⟨fun c hc => ?_, rfl⟩)
    obtain ⟨rest, rfl⟩ := List.head?_eq_some_iff.mp hc
    constructor
    · rintro rfl
      exact hminus rest rfl
    · rintro rfl
      exact hplus rest rfl

/-- Digits are read as the number that they write, if it has 64 bits. -/
theorem readDigits?_of_digits (h : Digits cs) (negative : Bool) :
    readDigits? negative cs = ofInt? (if negative then -(valueOf cs : Int) else valueOf cs) := by
  have hdigits : (cs.isEmpty || !cs.all Char.isDigit) = false := by
    rw [Bool.or_eq_false_iff, List.isEmpty_eq_false_iff, Bool.not_eq_false', List.all_eq_true]
    exact h
  unfold readDigits?
  rw [hdigits, if_neg Bool.false_ne_true]

/-- Nothing but digits is read behind a sign. -/
theorem digits_of_readDigits? {negative : Bool} (h : readDigits? negative cs = some a) :
    Digits cs := by
  unfold readDigits? at h
  cases hdigits : cs.isEmpty || !cs.all Char.isDigit with
  | true =>
    rw [hdigits, if_pos rfl] at h
    cases h
  | false =>
    rwa [Bool.or_eq_false_iff, List.isEmpty_eq_false_iff, Bool.not_eq_false',
      List.all_eq_true] at hdigits

/-- A numeral is read as the integer that it writes, if it has 64 bits. -/
theorem readAll?_of_numeral (h : Numeral cs i) : readAll? cs = ofInt? i := by
  have hsign : ∀ {c : Char} {rest : List Char}, Digits (c :: rest) → c.isDigit = true :=
    fun hdigits => hdigits.2 _ List.mem_cons_self
  obtain ⟨digits, rfl, hread⟩ | ⟨digits, rfl, hread⟩ | ⟨hunsigned, hread⟩ := readAll?_eq cs
  · cases h with
    | unsigned h => cases hsign h
    | minus h => rw [hread, readDigits?_of_digits h, if_pos rfl]
  · cases h with
    | unsigned h => cases hsign h
    | plus h => rw [hread, readDigits?_of_digits h, if_neg Bool.false_ne_true]
  · cases h with
    | unsigned h => rw [hread, readDigits?_of_digits h, if_neg Bool.false_ne_true]
    | plus h => exact absurd rfl (hunsigned '+' rfl).2
    | minus h => exact absurd rfl (hunsigned '-' rfl).1

/-- Nothing but numerals is read. -/
theorem exists_numeral (h : readAll? cs = some a) : ∃ i, Numeral cs i := by
  obtain ⟨digits, rfl, hread⟩ | ⟨digits, rfl, hread⟩ | ⟨-, hread⟩ := readAll?_eq cs
  · exact ⟨_, .minus (digits_of_readDigits? (hread ▸ h))⟩
  · exact ⟨_, .plus (digits_of_readDigits? (hread ▸ h))⟩
  · exact ⟨_, .unsigned (digits_of_readDigits? (hread ▸ h))⟩

end TreeQuery.Bounded

namespace TreeQuery.Progression

open Bounded

variable {cs front back : List Char} {a b : Int} {progression : Progression}

/-! ## The grammar -/

/-- The coefficient that stands in front of the letter `n`: without digits it is 1, with the sign
that is there. -/
inductive Coefficient : List Char → Int → Prop
  | none : Coefficient [] 1
  | plus : Coefficient ['+'] 1
  | minus : Coefficient ['-'] (-1)
  | numeral {cs : List Char} {a : Int} (h : Numeral cs a) : Coefficient cs a

/-- The offset that stands behind the letter `n`: nothing, or a sign and digits. -/
inductive Offset : List Char → Int → Prop
  | none : Offset [] 0
  | numeral {c : Char} {cs : List Char} {b : Int} (hsign : c = '+' ∨ c = '-')
      (h : Numeral (c :: cs) b) : Offset (c :: cs) b

/-- A text without white space and capitals writes a progression, given by its coefficient and its
offset over all integers. -/
inductive Written : List Char → Int → Int → Prop
  | even : Written "even".toList 2 0
  | odd : Written "odd".toList 2 1
  | numeral {cs : List Char} {b : Int} (h : Numeral cs b) : Written cs 0 b
  | expression {front back : List Char} {a b : Int} (hfront : Coefficient front a)
      (hback : Offset back b) : Written (front ++ 'n' :: back) a b

/-- A coefficient is made of digits and signs. -/
theorem Coefficient.mem (h : Coefficient cs a) :
    ∀ c ∈ cs, c = '+' ∨ c = '-' ∨ c.isDigit = true := by
  cases h with
  | none => exact fun c hc => nomatch hc
  | plus => exact List.forall_mem_singleton.mpr (.inl rfl)
  | minus => exact List.forall_mem_singleton.mpr (.inr (.inl rfl))
  | numeral h => exact h.mem

/-- A sign alone is no numeral. -/
theorem not_numeral_of_sign (hcs : ∀ c ∈ cs, c = '+' ∨ c = '-') : ¬ Numeral cs a := by
  intro h
  obtain ⟨c, hc, hdigit⟩ := h.exists_digit
  rcases hcs c hc with rfl | rfl
  · cases hdigit
  · cases hdigit

/-- A coefficient is read as the one that is written, if it has 64 bits. -/
theorem coefficient?_of_coefficient (h : Coefficient cs a) : coefficient? cs = ofInt? a := by
  cases h with
  | none => rfl
  | plus => rfl
  | minus => rfl
  | numeral h =>
    rw [← readAll?_of_numeral h]
    unfold coefficient?
    split
    · exact absurd h (not_numeral_of_sign nofun)
    · exact absurd h (not_numeral_of_sign (List.forall_mem_singleton.mpr (.inl rfl)))
    · exact absurd h (not_numeral_of_sign (List.forall_mem_singleton.mpr (.inr rfl)))
    · rfl

/-- Nothing else is read as a coefficient. -/
theorem exists_coefficient {i : Int64} (h : coefficient? cs = some i) : ∃ a, Coefficient cs a := by
  unfold coefficient? at h
  split at h
  · exact ⟨1, .none⟩
  · exact ⟨1, .plus⟩
  · exact ⟨-1, .minus⟩
  · exact (exists_numeral h).imp fun _ hnumeral => .numeral hnumeral

/-- An offset is read as the one that is written, if it has 64 bits. -/
theorem offset?_of_offset (h : Offset cs b) : offset? cs = ofInt? b := by
  cases h with
  | none => rfl
  | @numeral c rest _ hsign h =>
    have hc : (c == '+' || c == '-') = true := by simpa using hsign
    rw [← readAll?_of_numeral h, offset?, if_pos hc]

/-- Nothing else is read as an offset. -/
theorem exists_offset {i : Int64} (h : offset? cs = some i) : ∃ b, Offset cs b := by
  cases cs with
  | nil => exact ⟨0, .none⟩
  | cons c rest =>
    rw [offset?] at h
    split_ifs at h with hc
    rw [Bool.or_eq_true, beq_iff_eq, beq_iff_eq] at hc
    exact (exists_numeral h).imp fun _ hnumeral => .numeral hc hnumeral

/-! ## Reading -/

/-- The progression with that coefficient and that offset, if both have 64 bits. -/
def ofInts? (a b : Int) : Option Progression := do
  let a ← ofInt? a
  let b ← ofInt? b
  return ⟨a, b⟩

/-- A progression is made of two integers exactly if both are of 64 bits. -/
theorem ofInts?_eq_some_iff :
    ofInts? a b = some progression ↔ progression.a.toInt = a ∧ progression.b.toInt = b := by
  have hbind : ofInts? a b = some progression ↔
      ∃ i, ofInt? a = some i ∧ ∃ j, ofInt? b = some j ∧ some ⟨i, j⟩ = some progression :=
    Option.bind_eq_some_iff.trans
      (exists_congr fun i => and_congr_right fun _ => Option.bind_eq_some_iff)
  simp only [hbind, ofInt?_eq_some_iff, Option.some.injEq]
  constructor
  · rintro ⟨i, hi, j, hj, rfl⟩
    exact ⟨hi, hj⟩
  · rintro ⟨ha, hb⟩
    exact ⟨progression.a, ha, progression.b, hb, rfl⟩

/-- No letter of the grammar is a digit or a sign. -/
theorem ne_letter {c : Char} (hc : c = '+' ∨ c = '-' ∨ c.isDigit = true) :
    c ≠ 'n' ∧ c ≠ 'e' ∧ c ≠ 'o' := by
  rcases hc with rfl | rfl | hc
  · decide
  · decide
  · refine ⟨?_, ?_, ?_⟩ <;>
    · rintro rfl
      cases hc

/-- A text that starts with neither of the two letters is no word. -/
theorem ofExpression?_of_head (he : cs.head? ≠ some 'e') (ho : cs.head? ≠ some 'o') :
    ofExpression? cs =
      match Text.splitOnce 'n' cs with
      | none => (readAll? cs).map fun b => ⟨0, b⟩
      | some (front, back) => do
        let a ← coefficient? front
        let b ← offset? back
        return ⟨a, b⟩ := by
  have heven : ¬ (cs == "even".toList) = true := fun heq => he (by rw [beq_iff_eq.mp heq]; rfl)
  have hodd : ¬ (cs == "odd".toList) = true := fun heq => ho (by rw [beq_iff_eq.mp heq]; rfl)
  unfold ofExpression?
  exact (if_neg heven).trans (if_neg hodd)

/-- A text in the grammar is read as the progression that it writes, if the numbers have 64 bits. -/
theorem ofExpression?_of_written (h : Written cs a b) : ofExpression? cs = ofInts? a b := by
  cases h with
  | even => rfl
  | odd => rfl
  | numeral h =>
    -- There is no letter to split the text at.
    have hmem := fun c hc => ne_letter (h.mem c hc)
    have hsplit : Text.splitOnce 'n' cs = none :=
      Text.splitOnce_eq_none_iff.mpr fun hn => absurd rfl (hmem _ hn).1
    rw [ofExpression?_of_head (fun he => absurd rfl (hmem _ (List.mem_of_head? he)).2.1)
      (fun ho => absurd rfl (hmem _ (List.mem_of_head? ho)).2.2), hsplit]
    have hzero : ofInt? 0 = some 0 := rfl
    simp only [readAll?_of_numeral h, ofInts?, hzero, Option.map_eq_bind]
    rfl
  | @expression front back _ _ hfront hback =>
    -- The coefficient has no letter, so the first `n` is the one behind it.
    have hmem := fun c hc => ne_letter (hfront.mem c hc)
    have hhead : ∀ c, (front ++ 'n' :: back).head? = some c → c ≠ 'e' ∧ c ≠ 'o' := by
      intro c hc
      cases front with
      | nil =>
        obtain rfl : 'n' = c := Option.some.inj hc
        decide
      | cons d front =>
        obtain rfl : d = c := Option.some.inj hc
        exact (hmem d List.mem_cons_self).2
    have hsplit : Text.splitOnce 'n' (front ++ 'n' :: back) = some (front, back) :=
      Text.splitOnce_append (fun hn => absurd rfl (hmem _ hn).1) back
    rw [ofExpression?_of_head (fun he => absurd rfl (hhead _ he).1)
      (fun ho => absurd rfl (hhead _ ho).2), hsplit]
    simp only [coefficient?_of_coefficient hfront, offset?_of_offset hback]
    rfl

/-- Nothing else is read. -/
theorem exists_written (h : ofExpression? cs = some progression) : ∃ a b, Written cs a b := by
  unfold ofExpression? at h
  -- The two words.
  split_ifs at h with heven hodd
  · rw [beq_iff_eq.mp heven]
    exact ⟨2, 0, .even⟩
  · rw [beq_iff_eq.mp hodd]
    exact ⟨2, 1, .odd⟩
  -- A text without the letter `n` is a numeral, and one with it has a coefficient in front of it
  -- and an offset behind it.
  split at h
  · obtain ⟨i, hread, -⟩ := Option.map_eq_some_iff.mp h
    obtain ⟨b, hb⟩ := exists_numeral hread
    exact ⟨0, b, .numeral hb⟩
  · next front back hsplit =>
    obtain ⟨i, hi, h⟩ := Option.bind_eq_some_iff.mp h
    obtain ⟨j, hj, -⟩ := Option.bind_eq_some_iff.mp h
    obtain ⟨a, ha⟩ := exists_coefficient hi
    obtain ⟨b, hb⟩ := exists_offset hj
    rw [(Text.eq_of_splitOnce hsplit).1]
    exact ⟨a, b, .expression ha hb⟩

/-! ## Positions -/

variable {position : Int64}

/-- With a positive coefficient the terms of a progression are the positions that a multiple of the
coefficient separates from the offset. -/
theorem exists_term_iff {a b p : Int} (ha : 0 < a) :
    (∃ n : Nat, p = a * n + b) ↔ 0 ≤ p - b ∧ a ∣ p - b := by
  constructor
  · rintro ⟨n, rfl⟩
    have hmul : 0 ≤ a * n := Int.mul_nonneg ha.le (Int.natCast_nonneg n)
    have hsub : a * n + b - b = a * n := by omega
    rw [hsub]
    exact ⟨hmul, Int.dvd_mul_right a n⟩
  · rintro ⟨hnonneg, k, hk⟩
    have hk0 : 0 ≤ k := by
      by_contra hneg
      have hlt : a * k < 0 := Int.mul_neg_of_pos_of_neg ha (by omega)
      omega
    obtain ⟨n, rfl⟩ := Int.eq_ofNat_of_zero_le hk0
    exact ⟨n, by omega⟩

/-- With a positive coefficient a position is in the progression if it is a term of it. The
difference that is tested has 64 bits: the position is positive, and not too far behind the
offset. -/
theorem contains_iff_of_pos (ha : 0 < progression.a.toInt) (hposition : 1 ≤ position.toInt)
    (hfits : position.toInt - progression.b.toInt ≤ 2 ^ 63 - 1) :
    progression.contains position = true ↔
      ∃ n : Nat, position.toInt = progression.a.toInt * n + progression.b.toInt := by
  have hzero : (0 : Int64).toInt = 0 := rfl
  have hlt := progression.b.toInt_lt
  -- The coefficient is neither zero nor negative, so the third rule applies.
  have hne : ¬ (progression.a == 0) = true := by
    rw [beq_iff_eq, ← Int64.toInt_inj, hzero]
    omega
  have hpos : 0 < progression.a := by
    rw [Int64.lt_iff_toInt_lt, hzero]
    exact ha
  -- The difference has 64 bits, so the test computes it as it is over all integers.
  obtain ⟨distance, hsub, hdistance⟩ : ∃ distance,
      checkedSub? position progression.b = some distance ∧
        distance.toInt = position.toInt - progression.b.toInt := by
    have hexact := Int64.toInt_ofInt_of_le (n := position.toInt - progression.b.toInt) (by omega)
      (by omega)
    exact ⟨_, ofInt?_eq_some_iff.mpr hexact, hexact⟩
  -- What is left is the test of terms: the difference is not negative, and the coefficient divides
  -- it.
  unfold contains
  rw [if_neg hne, if_pos hpos, hsub, exists_term_iff ha, ← hdistance]
  dsimp only
  rw [Bool.and_eq_true, decide_eq_true_eq, beq_iff_eq, Int64.le_iff_toInt_le, ← Int64.toInt_inj,
    Int64.toInt_mod, hzero, Int.dvd_iff_tmod_eq_zero]

/-- Without a coefficient the progression is the offset alone. -/
theorem contains_iff_of_zero (ha : progression.a.toInt = 0) :
    progression.contains position = true ↔ position.toInt = progression.b.toInt := by
  have hzero : (progression.a == 0) = true := by
    rw [beq_iff_eq, ← Int64.toInt_inj]
    exact ha
  unfold contains
  rw [if_pos hzero, beq_iff_eq, Int64.toInt_inj]

/-- With a negative coefficient all positions up to the offset are in the progression. -/
theorem contains_iff_of_neg (ha : progression.a.toInt < 0) :
    progression.contains position = true ↔ position.toInt ≤ progression.b.toInt := by
  have hzero : (0 : Int64).toInt = 0 := rfl
  have hne : ¬ (progression.a == 0) = true := by
    rw [beq_iff_eq, ← Int64.toInt_inj, hzero]
    omega
  have hpos : ¬ 0 < progression.a := by
    rw [Int64.lt_iff_toInt_lt, hzero]
    omega
  unfold contains
  rw [if_neg hne, if_neg hpos, decide_eq_true_eq, Int64.le_iff_toInt_le]

/-- With a coefficient of at least -1 the positions in the progression are its terms. -/
theorem contains_iff_term (ha : -1 ≤ progression.a.toInt) (hposition : 1 ≤ position.toInt)
    (hfits : position.toInt - progression.b.toInt ≤ 2 ^ 63 - 1) :
    progression.contains position = true ↔
      ∃ n : Nat, position.toInt = progression.a.toInt * n + progression.b.toInt := by
  obtain hneg | hzero | hpos : progression.a.toInt = -1 ∨ progression.a.toInt = 0 ∨
      0 < progression.a.toInt := by omega
  · -- Counting down by ones meets every position up to the offset.
    rw [contains_iff_of_neg (by omega), hneg]
    constructor
    · intro hle
      exact ⟨(progression.b.toInt - position.toInt).toNat, by omega⟩
    · rintro ⟨n, hn⟩
      omega
  -- With the coefficient 0 only the offset is a term.
  · rw [contains_iff_of_zero hzero, hzero]
    simp
  · exact contains_iff_of_pos hpos hposition hfits

/-- The text without white space, and with small letters in the place of the capitals `A` to `Z`. -/
def bare (cs : List Char) : List Char :=
  Text.asciiLower (cs.filter fun c => !Text.isBlank c)

/-- **The progressions of `:nth-child`.** A text that is in the grammar, white space and the case of
letters aside, is read as the progression that it writes if both numbers have 64 bits, and is
refused otherwise, as is every other text. A position that is not too far behind the offset is in a
progression exactly if it is a term of it; but with a coefficient below -1 all positions up to the
offset are, the terms among them. -/
theorem parsed_and_contained :
    (∀ (cs : List Char) (a b : Int), Written (bare cs) a b → ∀ progression,
      parse? cs = some progression ↔ progression.a.toInt = a ∧ progression.b.toInt = b) ∧
    (∀ cs : List Char, (∀ a b, ¬ Written (bare cs) a b) → parse? cs = none) ∧
    ∀ (progression : Progression) (position : Int64), 1 ≤ position.toInt →
      position.toInt - progression.b.toInt ≤ 2 ^ 63 - 1 →
        (-1 ≤ progression.a.toInt → (progression.contains position = true ↔
          ∃ n : Nat, position.toInt = progression.a.toInt * n + progression.b.toInt)) ∧
        (progression.a.toInt < -1 →
          (progression.contains position = true ↔ position.toInt ≤ progression.b.toInt) ∧
          ((∃ n : Nat, position.toInt = progression.a.toInt * n + progression.b.toInt) →
            progression.contains position = true)) := by
  refine ⟨fun cs a b hwritten progression => ?_, fun cs hnone => ?_,
    fun progression position hposition hfits => ⟨fun ha => ?_, fun ha => ?_⟩⟩
  -- A text in the grammar is read as its two numbers, if they are of 64 bits.
  · have hparse : parse? cs = ofInts? a b := ofExpression?_of_written hwritten
    rw [hparse, ofInts?_eq_some_iff]
  -- What is read has been written in the grammar.
  · refine Option.eq_none_iff_forall_ne_some.mpr fun progression hparse => ?_
    obtain ⟨a, b, hwritten⟩ := exists_written hparse
    exact hnone a b hwritten
  · exact contains_iff_term ha hposition hfits
  -- Below -1 the test asks only for the side of the offset, and the terms are on that side.
  · have hcontains : progression.contains position = true ↔
        position.toInt ≤ progression.b.toInt := contains_iff_of_neg (by omega)
    refine ⟨hcontains, ?_⟩
    rintro ⟨n, hn⟩
    have hle : progression.a.toInt * n ≤ 0 :=
      Int.mul_nonpos_of_nonpos_of_nonneg (by omega) (Int.natCast_nonneg n)
    exact hcontains.mpr (by omega)

/-- For one, `-2N + 7` is read and `2n1` is not, and 5 is a term of both `3n-1` and `-2n+7`. -/
theorem parsed_and_contained_terms :
    (Written (bare "-2N + 7".toList) (-2) 7 ∧ parse? "-2N + 7".toList = some ⟨-2, 7⟩) ∧
    ((∀ a b, ¬ Written (bare "2n1".toList) a b) ∧ parse? "2n1".toList = none) ∧
    (contains ⟨3, -1⟩ 5 = true ↔ ∃ n : Nat, (5 : Int) = 3 * n + -1) ∧
    (contains ⟨-2, 7⟩ 5 = true ↔ (5 : Int) ≤ 7) ∧
    (∃ n : Nat, (5 : Int) = -2 * n + 7) ∧ contains ⟨-2, 7⟩ 5 = true := by
  obtain ⟨hread, hrefused, hpositions⟩ := parsed_and_contained
  have hdigits : ∀ c : Char, c.isDigit = true → Digits [c] := fun c hc =>
    ⟨List.cons_ne_nil _ _, List.forall_mem_singleton.mpr hc⟩
  have hwritten : Written (bare "-2N + 7".toList) (-2) 7 :=
    @Written.expression "-2".toList "+7".toList (-2) 7
      (.numeral (.minus (hdigits '2' rfl))) (.numeral (.inl rfl) (.plus (hdigits '7' rfl)))
  have hunwritten : ∀ a b, ¬ Written (bare "2n1".toList) a b := by
    intro a b h
    generalize hcs : bare "2n1".toList = cs at h
    cases h with
    | even => exact absurd hcs (by decide)
    | odd => exact absurd hcs (by decide)
    | numeral h => exact absurd rfl (ne_letter (h.mem 'n' (hcs ▸ by decide))).1
    | @expression front back _ _ hfront hback =>
      -- The text is cut at its only `n`, and what stands behind has no sign.
      have hcut : Text.splitOnce 'n' (front ++ 'n' :: back) = some (front, back) :=
        Text.splitOnce_append (fun hn => absurd rfl (ne_letter (hfront.mem _ hn)).1) back
      have hback' : back = ['1'] := by
        rw [← hcs] at hcut
        exact (Prod.mk.inj (Option.some.inj hcut)).2.symm
      subst hback'
      cases hback with
      | numeral hsign => exact absurd hsign (by decide)
  obtain ⟨hterm, -⟩ := hpositions ⟨3, -1⟩ 5 (by decide) (by decide)
  obtain ⟨-, hbelow⟩ := hpositions ⟨-2, 7⟩ 5 (by decide) (by decide)
  obtain ⟨hle, hterms⟩ := hbelow (by decide)
  have hfive : ∃ n : Nat, (5 : Int) = -2 * n + 7 := ⟨1, rfl⟩
  exact ⟨⟨hwritten, (hread _ _ _ hwritten ⟨-2, 7⟩).mpr ⟨rfl, rfl⟩⟩,
    ⟨hunwritten, hrefused _ hunwritten⟩, hterm (by decide), hle, hfive, hterms hfive⟩

end TreeQuery.Progression
