import TreeQuery.Json.Basic
import TreeQuery.Text.Blank

/-!
# Reading JSON text

`read?` gives the value that a text writes, if the text is well formed from its first character to
its last. Each reader takes its part off the front of the text and gives what is left, which is
shorter. The grammar sets no limit to nesting; a caller that wants one looks at `Json.depth`.
-/

namespace TreeQuery.Json

/-- The blanks that may stand between the parts of a JSON text. -/
def isGap (c : Char) : Bool :=
  c == ' ' || c == '\t' || c == '\n' || c == '\r'

/-- The text after the blanks at its start. -/
def skipGap (cs : List Char) : List Char :=
  cs.dropWhile isGap

/-- Skipping a gap does not lengthen a text. -/
theorem length_skipGap_le (cs : List Char) : (skipGap cs).length ≤ cs.length :=
  Text.length_dropWhile_le isGap cs

/-! ## Strings -/

/-- What a string is written with: characters, and code units given by their number. -/
inductive StringUnit where
  /-- A character, plain or after a backslash. -/
  | char (c : Char)
  /-- A UTF-16 code unit, written as four hexadecimal digits. -/
  | code (n : Nat)
  deriving DecidableEq, Repr

/-- The value of a hexadecimal digit. -/
def hexDigit? (c : Char) : Option Nat :=
  if c.isDigit then some (c.toNat - '0'.toNat)
  else if 'a' ≤ c && c ≤ 'f' then some (c.toNat - 'a'.toNat + 10)
  else if 'A' ≤ c && c ≤ 'F' then some (c.toNat - 'A'.toNat + 10)
  else none

/-- The number that four hexadecimal digits write. -/
def hexNumber? (a b c d : Char) : Option Nat := do
  let a ← hexDigit? a
  let b ← hexDigit? b
  let c ← hexDigit? c
  let d ← hexDigit? d
  return ((a * 16 + b) * 16 + c) * 16 + d

/-- The character that a letter after a backslash stands for. -/
def escaped? : Char → Option Char
  | '"' => some '"'
  | '\\' => some '\\'
  | '/' => some '/'
  | 'b' => some '\x08'
  | 'f' => some '\x0c'
  | 'n' => some '\n'
  | 'r' => some '\r'
  | 't' => some '\t'
  | _ => none

/-- The units of a string up to its closing quote, and the text after the quote. A control
character must not stand in a string. -/
def stringUnits? : List Char → Option (List StringUnit × List Char)
  | [] => none
  | '"' :: cs => some ([], cs)
  | '\\' :: 'u' :: a :: b :: c :: d :: cs => do
    let n ← hexNumber? a b c d
    let (units, rest) ← stringUnits? cs
    return (.code n :: units, rest)
  | '\\' :: e :: cs => do
    let c ← escaped? e
    let (units, rest) ← stringUnits? cs
    return (.char c :: units, rest)
  | c :: cs =>
    -- A backslash that has come this far starts no escape.
    if c == '\\' || c.toNat < 0x20 then none
    else do
      let (units, rest) ← stringUnits? cs
      return (.char c :: units, rest)

/-- The text that units write. A code unit of a surrogate pair counts only together with the other
one of its pair. -/
def joinUnits? : List StringUnit → Option (List Char)
  | [] => some []
  | .char c :: units => (joinUnits? units).map (c :: ·)
  | .code high :: .code low :: units =>
    if 0xD800 ≤ high && high ≤ 0xDBFF then
      -- The first half of a pair: the second must follow at once.
      if 0xDC00 ≤ low && low ≤ 0xDFFF then
        (joinUnits? units).map
          (Char.ofNat ((high - 0xD800) * 0x400 + (low - 0xDC00) + 0x10000) :: ·)
      else none
    else if 0xDC00 ≤ high && high ≤ 0xDFFF then none
    else (joinUnits? (.code low :: units)).map (Char.ofNat high :: ·)
  | .code n :: units =>
    if 0xD800 ≤ n && n ≤ 0xDFFF then none else (joinUnits? units).map (Char.ofNat n :: ·)

/-- A string takes its closing quote at least. -/
theorem length_of_stringUnits? {cs rest : List Char} {units : List StringUnit}
    (h : stringUnits? cs = some (units, rest)) : rest.length < cs.length := by
  -- The cases are those of the reader: the end of the text, the closing quote, a code unit in
  -- hexadecimal digits, another escape, a control character, and any other character.
  fun_induction stringUnits? cs generalizing units with
  | case1 => simp at h
  | case2 cs => simp_all
  | case3 a b c d cs ih =>
    simp only [Option.bind_eq_bind, Option.bind_eq_some_iff] at h
    obtain ⟨n, -, ⟨units', rest'⟩, hu, heq⟩ := h
    simp only [pure, Option.some.injEq, Prod.mk.injEq] at heq
    obtain ⟨-, rfl⟩ := heq
    have := ih hu
    simp only [List.length_cons]
    omega
  | case4 e cs _ ih =>
    simp only [Option.bind_eq_bind, Option.bind_eq_some_iff] at h
    obtain ⟨c, -, ⟨units', rest'⟩, hu, heq⟩ := h
    simp only [pure, Option.some.injEq, Prod.mk.injEq] at heq
    obtain ⟨-, rfl⟩ := heq
    have := ih hu
    simp only [List.length_cons]
    omega
  | case5 => simp at h
  | case6 c cs _ _ _ _ ih =>
    simp only [Option.bind_eq_bind, Option.bind_eq_some_iff] at h
    obtain ⟨⟨units', rest'⟩, hu, heq⟩ := h
    simp only [pure, Option.some.injEq, Prod.mk.injEq] at heq
    obtain ⟨-, rfl⟩ := heq
    have := ih hu
    simp only [List.length_cons]
    omega

/-- The value of a string with those units. -/
def ofUnits (units : List StringUnit) : Json :=
  match joinUnits? units with
  | some cs => .string (String.ofList cs)
  | none => .unreadable

/-! ## Numbers -/

/-- The digits at the start of a text, of which there must be one, and the text after them. -/
def digits? (cs : List Char) : Option (List Char × List Char) :=
  match cs.takeWhile Char.isDigit with
  | [] => none
  | ds => some (ds, cs.dropWhile Char.isDigit)

/-- The digits before the point: no zero stands in front of another digit. -/
def whole? (cs : List Char) : Option (List Char × List Char) :=
  match digits? cs with
  | some ('0' :: _ :: _, _) => none
  | part => part

/-- The digits after the point, none if there is no point. -/
def fraction? : List Char → Option (List Char × List Char)
  | '.' :: cs => digits? cs
  | cs => some ([], cs)

/-- The exponent after its letter: a sign, which may be missing, and digits. -/
def signedDigits? : List Char → Option (Int × List Char)
  | '+' :: cs => (digits? cs).map fun part => (Number.digits part.1, part.2)
  | '-' :: cs => (digits? cs).map fun part => (-(Number.digits part.1 : Int), part.2)
  | cs => (digits? cs).map fun part => (Number.digits part.1, part.2)

/-- The exponent, if there is one. -/
def exponent? : List Char → Option (Option Int × List Char)
  | 'e' :: cs => (signedDigits? cs).map fun part => (some part.1, part.2)
  | 'E' :: cs => (signedDigits? cs).map fun part => (some part.1, part.2)
  | cs => some (none, cs)

/-- The sign of a number and the text after it. -/
def sign : List Char → Bool × List Char
  | '-' :: cs => (true, cs)
  | cs => (false, cs)

/-- The number at the start of a text, and the text after it. -/
def number? (cs : List Char) : Option (Number × List Char) := do
  let (whole, afterWhole) ← whole? (sign cs).2
  let (fraction, afterFraction) ← fraction? afterWhole
  let (exponent, rest) ← exponent? afterFraction
  return (⟨(sign cs).1, whole, fraction, exponent⟩, rest)

/-- The value of a number. -/
def ofNumber (n : Number) : Json :=
  if n.isFinite then .number n else .unreadable

/-- Digits take at least one character. -/
theorem length_of_digits? {cs ds rest : List Char} (h : digits? cs = some (ds, rest)) :
    rest.length < cs.length := by
  rw [digits?] at h
  split at h
  · simp at h
  · next hne =>
    simp only [Option.some.injEq, Prod.mk.injEq] at h
    obtain ⟨rfl, rfl⟩ := h
    -- The digits and the rest together are the text, and there is a digit.
    have hsplit : (cs.takeWhile Char.isDigit).length + (cs.dropWhile Char.isDigit).length =
        cs.length := by
      rw [← List.length_append, List.takeWhile_append_dropWhile]
    have : 0 < (cs.takeWhile Char.isDigit).length := List.length_pos_iff.mpr hne
    omega

/-- The whole part of a number takes at least one character. -/
theorem length_of_whole? {cs ds rest : List Char} (h : whole? cs = some (ds, rest)) :
    rest.length < cs.length := by
  rw [whole?] at h
  split at h
  · simp at h
  · exact length_of_digits? h

/-- A fraction does not lengthen the text that is left, and may be missing. -/
theorem length_of_fraction? {cs ds rest : List Char} (h : fraction? cs = some (ds, rest)) :
    rest.length ≤ cs.length := by
  rw [fraction?.eq_def] at h
  split at h
  · have := length_of_digits? h
    simp only [List.length_cons]
    omega
  · simp only [Option.some.injEq, Prod.mk.injEq] at h
    simp [h.2]

/-- Digits with a sign take at least one character. -/
theorem length_of_signedDigits? {cs rest : List Char} {e : Int}
    (h : signedDigits? cs = some (e, rest)) : rest.length < cs.length := by
  rw [signedDigits?.eq_def] at h
  -- In each case digits are taken off, whatever is made of their value.
  have key : ∀ {f : List Char × List Char → Int × List Char} {ds : List Char},
      (∀ part, (f part).2 = part.2) → (digits? ds).map f = some (e, rest) →
      rest.length < ds.length := by
    intro f ds hf hmap
    obtain ⟨part, hd, heq⟩ := Option.map_eq_some_iff.mp hmap
    have hrest : part.2 = rest := by rw [← hf part, heq]
    exact hrest ▸ length_of_digits? hd
  split at h
  · exact Nat.lt_succ_of_lt (key (fun _ => rfl) h)
  · exact Nat.lt_succ_of_lt (key (fun _ => rfl) h)
  · exact key (fun _ => rfl) h

/-- An exponent does not lengthen the text that is left, and may be missing. -/
theorem length_of_exponent? {cs rest : List Char} {e : Option Int}
    (h : exponent? cs = some (e, rest)) : rest.length ≤ cs.length := by
  rw [exponent?.eq_def] at h
  split at h
  · obtain ⟨⟨ds, rest'⟩, hd, heq⟩ := Option.map_eq_some_iff.mp h
    simp only [Prod.mk.injEq] at heq
    obtain ⟨-, rfl⟩ := heq
    have := length_of_signedDigits? hd
    simp only [List.length_cons]
    omega
  · obtain ⟨⟨ds, rest'⟩, hd, heq⟩ := Option.map_eq_some_iff.mp h
    simp only [Prod.mk.injEq] at heq
    obtain ⟨-, rfl⟩ := heq
    have := length_of_signedDigits? hd
    simp only [List.length_cons]
    omega
  · simp only [Option.some.injEq, Prod.mk.injEq] at h
    simp [h.2]

/-- A sign does not lengthen the text that is left, and may be missing. -/
theorem length_sign_le (cs : List Char) : (sign cs).2.length ≤ cs.length := by
  rw [sign.eq_def]
  split <;> simp

/-- A number takes one digit at least. -/
theorem length_of_number? {cs rest : List Char} {n : Number} (h : number? cs = some (n, rest)) :
    rest.length < cs.length := by
  simp only [number?, Option.bind_eq_bind, Option.bind_eq_some_iff] at h
  obtain ⟨⟨whole, cs₁⟩, h₁, ⟨fraction, cs₂⟩, h₂, ⟨exponent, cs₃⟩, h₃, heq⟩ := h
  simp only [pure, Option.some.injEq, Prod.mk.injEq] at heq
  obtain ⟨-, rfl⟩ := heq
  have h₀ := length_sign_le cs
  have h₁ := length_of_whole? h₁
  have h₂ := length_of_fraction? h₂
  have h₃ := length_of_exponent? h₃
  dsimp only at h₁ h₂ h₃
  omega

/-! ## Values -/

/-- What is left of a text after a part of it is read. -/
abbrev Rest (cs : List Char) :=
  { rest : List Char // rest.length < cs.length }

/-- The rest of a text is also a rest of any text that it is the end of. -/
def Rest.widen {cs ds : List Char} (rest : Rest cs) (h : cs.length ≤ ds.length) : Rest ds :=
  ⟨rest.1, Nat.lt_of_lt_of_le rest.2 h⟩

/-- The text after a literal that it must start with. -/
def literal? (literal : String) (cs : List Char) : Option (List Char) :=
  if literal.toList.isPrefixOf cs then some (cs.drop literal.toList.length) else none

/-- A literal takes at least one character, unless it is empty. -/
theorem length_of_literal? {literal : String} {cs rest : List Char} (hpos : literal.toList ≠ [])
    (h : literal? literal cs = some rest) : rest.length < cs.length := by
  rw [literal?] at h
  split at h
  · next hp =>
    have hle := (List.isPrefixOf_iff_prefix.mp hp).length_le
    have hlt := List.length_pos_iff.mpr hpos
    simp only [Option.some.injEq] at h
    rw [← h, List.length_drop]
    omega
  · simp at h

/-- The object with those members, which denotes a value only if all names are texts. -/
def ofMembers (members : List (List StringUnit × Json)) : Json :=
  match members.mapM fun member => (joinUnits? member.1).map fun cs => (String.ofList cs, member.2)
    with
  | some members => .object members
  | none => .unreadable

mutual

/-- The value at the start of a text, which has no gap in front of it. -/
def value? (cs : List Char) : Option (Json × Rest cs) :=
  match cs with
  | '"' :: tail =>
    match h : stringUnits? tail with
    | some (units, rest) =>
      some (ofUnits units, ⟨rest, Nat.lt_succ_of_lt (length_of_stringUnits? h)⟩)
    | none => none
  | '[' :: tail =>
    match h : skipGap tail with
    | ']' :: rest =>
      some (.array [], ⟨rest, by
        have := length_skipGap_le tail
        simp only [h, List.length_cons] at *
        omega⟩)
    | _ =>
      match items? tail with
      | some (items, rest) => some (.array items, rest.widen (by simp))
      | none => none
  | '{' :: tail =>
    match h : skipGap tail with
    | '}' :: rest =>
      some (.object [], ⟨rest, by
        have := length_skipGap_le tail
        simp only [h, List.length_cons] at *
        omega⟩)
    | _ =>
      match members? tail with
      | some (members, rest) => some (ofMembers members, rest.widen (by simp))
      | none => none
  | 'n' :: tail =>
    match h : literal? "ull" tail with
    | some rest => some (.null, ⟨rest, Nat.lt_succ_of_lt (length_of_literal? (by decide) h)⟩)
    | none => none
  | 't' :: tail =>
    match h : literal? "rue" tail with
    | some rest => some (.bool true, ⟨rest, Nat.lt_succ_of_lt (length_of_literal? (by decide) h)⟩)
    | none => none
  | 'f' :: tail =>
    match h : literal? "alse" tail with
    | some rest => some (.bool false, ⟨rest, Nat.lt_succ_of_lt (length_of_literal? (by decide) h)⟩)
    | none => none
  | cs =>
    match h : number? cs with
    | some (n, rest) => some (ofNumber n, ⟨rest, length_of_number? h⟩)
    | none => none
termination_by (cs.length, 0)

/-- The items of an array up to its closing bracket. -/
def items? (cs : List Char) : Option (List Json × Rest cs) :=
  match value? (skipGap cs) with
  | none => none
  | some (item, rest) =>
    match h : skipGap rest.1 with
    | ']' :: after =>
      some ([item], ⟨after, by
        have := length_skipGap_le cs
        have := length_skipGap_le rest.1
        have := rest.2
        simp only [h, List.length_cons] at *
        omega⟩)
    | ',' :: after =>
      have hlt : after.length < cs.length := by
        have := length_skipGap_le cs
        have := length_skipGap_le rest.1
        have := rest.2
        simp only [h, List.length_cons] at *
        omega
      match items? after with
      | some (items, last) => some (item :: items, last.widen (Nat.le_of_lt hlt))
      | none => none
    | _ => none
termination_by (cs.length, 1)
decreasing_by
  · have := length_skipGap_le cs
    simp only [Prod.lex_def]
    omega
  · simp only [Prod.lex_def]
    omega

/-- The members of an object up to its closing brace. -/
def members? (cs : List Char) : Option (List (List StringUnit × Json) × Rest cs) :=
  match hq : skipGap cs with
  | '"' :: tail =>
    match hu : stringUnits? tail with
    | none => none
    | some (name, afterName) =>
      match hc : skipGap afterName with
      | ':' :: afterColon =>
        have hlt : (skipGap afterColon).length < cs.length := by
          have := length_skipGap_le cs
          have := length_of_stringUnits? hu
          have := length_skipGap_le afterName
          have := length_skipGap_le afterColon
          simp only [hq, hc, List.length_cons] at *
          omega
        match value? (skipGap afterColon) with
        | none => none
        | some (value, rest) =>
          match h : skipGap rest.1 with
          | '}' :: after =>
            some ([(name, value)], ⟨after, by
              have := length_skipGap_le rest.1
              have := rest.2
              simp only [h, List.length_cons] at *
              omega⟩)
          | ',' :: after =>
            have hafter : after.length < cs.length := by
              have := length_skipGap_le rest.1
              have := rest.2
              simp only [h, List.length_cons] at *
              omega
            match members? after with
            | some (members, last) =>
              some ((name, value) :: members, last.widen (Nat.le_of_lt hafter))
            | none => none
          | _ => none
      | _ => none
  | _ => none
termination_by (cs.length, 1)
decreasing_by
  · simp only [Prod.lex_def]
    omega
  · simp only [Prod.lex_def]
    omega

end

/-- The value that a text writes, if it is well formed and nothing but a gap follows the value. -/
def read? (cs : List Char) : Option Json :=
  match value? (skipGap cs) with
  | some (value, rest) => if (skipGap rest.1).isEmpty then some value else none
  | none => none

end TreeQuery.Json
