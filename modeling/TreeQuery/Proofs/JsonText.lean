import Mathlib.Tactic.Common
import TreeQuery.Json.Reader
import TreeQuery.Json.Writer

/-!
# Reading JSON text that has been written

A value that is made of strings, arrays and objects alone is read back from the text that is written
for it on one line (`read?_write`). The readers take a part off the front of a text, so what is
shown of each of them is that it gives back a part that has been written, whatever stands behind it:
`stringUnits?_escape` for a character, `reads_write` for a value. Numbers are left out: how far one
reaches depends on what stands behind it.
-/

namespace TreeQuery.Json

/-! ## Strings -/

section Strings

variable {c : Char} {cs rest : List Char}

/-- A character with a letter of its own is read from a backslash and the letter. -/
theorem stringUnits?_letter {e : Char} (hne : e ≠ 'u') (he : escaped? e = some c)
    (cs : List Char) :
    stringUnits? ('\\' :: e :: cs) =
      (stringUnits? cs).map fun part => (.char c :: part.1, part.2) := by
  rw [stringUnits?, he]
  · cases stringUnits? cs with
    | none => rfl
    | some part => rfl
  · exact fun _ _ _ _ _ heq => absurd heq hne

/-- A code unit is read from its four digits. -/
theorem stringUnits?_code {a b d e : Char} {n : Nat} (hn : hexNumber? a b d e = some n)
    (cs : List Char) :
    stringUnits? ('\\' :: 'u' :: a :: b :: d :: e :: cs) =
      (stringUnits? cs).map fun part => (.code n :: part.1, part.2) := by
  rw [stringUnits?, hn]
  cases stringUnits? cs with
  | none => rfl
  | some part => rfl

/-- Any other character is read as it stands. -/
theorem stringUnits?_plain (hquote : c ≠ '"') (hslash : c ≠ '\\') (hc : 0x20 ≤ c.toNat)
    (cs : List Char) :
    stringUnits? (c :: cs) =
      (stringUnits? cs).map fun part => (.char c :: part.1, part.2) := by
  have hplain : ¬ (c == '\\' || decide (c.toNat < 0x20)) = true := by
    rw [Bool.or_eq_true, beq_iff_eq, decide_eq_true_eq, not_or]
    exact ⟨hslash, Nat.not_lt.mpr hc⟩
  -- The four cases of the reader: only the last one applies.
  rw [stringUnits?]
  · rw [if_neg hplain]
    cases stringUnits? cs with
    | none => rfl
    | some part => rfl
  · exact hquote
  · intro a b d e _ heq
    exact absurd heq hslash
  · intro e _ heq
    exact absurd heq hslash

/-- What a character is written with: a control character without a letter of its own is written
with its number. -/
def unitOf (c : Char) : StringUnit :=
  if c.toNat < 0x20 ∧ c ∉ ['\x08', '\t', '\n', '\x0c', '\r'] then .code c.toNat else .char c

/-- A control character is read from the digits of its number. -/
theorem hexNumber?_hexDigit :
    ∀ n < 0x20, hexNumber? '0' '0' (hexDigit (n / 16)) (hexDigit (n % 16)) = some n := by
  decide

/-- A character that has been written is read again. -/
theorem stringUnits?_escape (c : Char) (cs : List Char) :
    stringUnits? (escape c ++ cs) =
      (stringUnits? cs).map fun part => (unitOf c :: part.1, part.2) := by
  unfold escape
  split_ifs with hquote hslash hb ht hn hf hr hcontrol
  -- The seven characters that a letter stands for.
  · obtain rfl := eq_of_beq hquote
    exact stringUnits?_letter (by decide) rfl cs
  · obtain rfl := eq_of_beq hslash
    exact stringUnits?_letter (by decide) rfl cs
  · obtain rfl := eq_of_beq hb
    exact stringUnits?_letter (by decide) rfl cs
  · obtain rfl := eq_of_beq ht
    exact stringUnits?_letter (by decide) rfl cs
  · obtain rfl := eq_of_beq hn
    exact stringUnits?_letter (by decide) rfl cs
  · obtain rfl := eq_of_beq hf
    exact stringUnits?_letter (by decide) rfl cs
  · obtain rfl := eq_of_beq hr
    exact stringUnits?_letter (by decide) rfl cs
  -- Another control character is written as a code unit.
  · have hunit : unitOf c = .code c.toNat := by
      simp_all [unitOf]
    rw [hunit]
    exact stringUnits?_code (hexNumber?_hexDigit c.toNat hcontrol) cs
  -- Any other character is written as it is.
  · have hunit : unitOf c = .char c := by
      simp [unitOf, hcontrol]
    rw [hunit]
    rw [beq_iff_eq] at hquote hslash
    exact stringUnits?_plain hquote hslash (Nat.not_lt.mp hcontrol) cs

/-- A text that has been written in quotes is read up to the closing quote. -/
theorem stringUnits?_flatMap_escape (cs rest : List Char) :
    stringUnits? (cs.flatMap escape ++ '"' :: rest) = some (cs.map unitOf, rest) := by
  induction cs with
  | nil => rfl
  | cons c cs ih =>
    rw [List.flatMap_cons, List.append_assoc, stringUnits?_escape, ih]
    rfl

/-- A code unit below the surrogates counts by itself. -/
theorem joinUnits?_code {n : Nat} (hn : n < 0xD800) (units : List StringUnit) :
    joinUnits? (.code n :: units) = (joinUnits? units).map (Char.ofNat n :: ·) := by
  have hlow : ¬ 0xD800 ≤ n := Nat.not_le.mpr hn
  have hhigh : ¬ 0xDC00 ≤ n := fun hle => hlow (Nat.le_trans (by decide) hle)
  match units with
  | [] => simp [joinUnits?, hlow]
  | .char c :: units => simp [joinUnits?, hlow]
  | .code low :: units => simp [joinUnits?, hlow, hhigh]

/-- The units of a text that has been written give the text. -/
theorem joinUnits?_map_unitOf (cs : List Char) : joinUnits? (cs.map unitOf) = some cs := by
  induction cs with
  | nil => rfl
  | cons c cs ih =>
    rw [List.map_cons, unitOf]
    split_ifs with hcode
    · rw [joinUnits?_code (Nat.lt_trans hcode.1 (by decide)), ih, Char.ofNat_toNat]
      rfl
    · rw [joinUnits?, ih]
      rfl

/-- The units of a string that has been written denote the string. -/
theorem ofUnits_map_unitOf (s : String) : ofUnits (s.toList.map unitOf) = .string s := by
  rw [ofUnits, joinUnits?_map_unitOf]
  dsimp only
  rw [String.ofList_toList]

end Strings

/-! ## The readers, case by case -/

/-- A value is read from the front of a text, and `rest` is left. -/
def Reads (cs : List Char) (value : Json) (rest : List Char) : Prop :=
  ∃ left, value? cs = some (value, left) ∧ left.1 = rest

/-- The items of an array are read up to its closing bracket, and `rest` is left. -/
def ReadsItems (cs : List Char) (items : List Json) (rest : List Char) : Prop :=
  ∃ left, items? cs = some (items, left) ∧ left.1 = rest

/-- The members of an object are read up to its closing brace, and `rest` is left. -/
def ReadsMembers (cs : List Char) (members : List (List StringUnit × Json)) (rest : List Char) :
    Prop :=
  ∃ left, members? cs = some (members, left) ∧ left.1 = rest

section Readers

variable {cs tail after rest : List Char} {value item : Json} {items : List Json}

/-- A string is read behind its opening quote. -/
theorem reads_string {units : List StringUnit} (h : stringUnits? tail = some (units, rest)) :
    Reads ('"' :: tail) (ofUnits units) rest := by
  unfold Reads
  rw [value?]
  split
  · next hread =>
    rw [h] at hread
    cases hread
    exact ⟨_, rfl, rfl⟩
  · next hread =>
    rw [h] at hread
    cases hread

/-- An array that is closed at once is empty. -/
theorem reads_array_nil (rest : List Char) : Reads ('[' :: ']' :: rest) (.array []) rest := by
  unfold Reads
  rw [value?]
  split
  · next hread =>
    have hgap : skipGap (']' :: rest) = ']' :: rest := rfl
    rw [hgap] at hread
    cases hread
    exact ⟨_, rfl, rfl⟩
  · next hopen => exact absurd rfl (hopen rest)

/-- Any other array is read item by item. -/
theorem reads_array (hopen : ∀ after, skipGap tail ≠ ']' :: after)
    (h : ReadsItems tail items rest) : Reads ('[' :: tail) (.array items) rest := by
  obtain ⟨left, hitems, rfl⟩ := h
  unfold Reads
  rw [value?]
  split
  · next hread => exact absurd hread (hopen _)
  · rw [hitems]
    exact ⟨_, rfl, rfl⟩

/-- An item is followed by the closing bracket, or by a comma and more items. -/
theorem readsItems (h : Reads (skipGap cs) item after)
    (hafter : skipGap after = ']' :: rest ∧ items = [] ∨
      ∃ more, skipGap after = ',' :: more ∧ ReadsItems more items rest) :
    ReadsItems cs (item :: items) rest := by
  obtain ⟨left, hread, rfl⟩ := h
  unfold ReadsItems
  rw [items?, hread]
  dsimp only
  rcases hafter with ⟨hafter, rfl⟩ | ⟨more, hafter, last, hitems, rfl⟩
  -- The item is the last one.
  · split
    · next heq =>
      rw [hafter] at heq
      cases heq
      exact ⟨_, rfl, rfl⟩
    · next heq =>
      rw [hafter] at heq
      cases heq
    · next hclose _ => exact absurd hafter (hclose rest)
  -- A comma follows, so that the other items are read behind it.
  · split
    · next heq =>
      rw [hafter] at heq
      cases heq
    · next heq =>
      rw [hafter] at heq
      cases heq
      rw [hitems]
      exact ⟨_, rfl, rfl⟩
    · next _ hcomma => exact absurd hafter (hcomma more)

/-- An object that is closed at once is empty. -/
theorem reads_object_nil (rest : List Char) : Reads ('{' :: '}' :: rest) (.object []) rest := by
  unfold Reads
  rw [value?]
  split
  · next hread =>
    have hgap : skipGap ('}' :: rest) = '}' :: rest := rfl
    rw [hgap] at hread
    cases hread
    exact ⟨_, rfl, rfl⟩
  · next hopen => exact absurd rfl (hopen rest)

/-- Any other object is read member by member. -/
theorem reads_object {members : List (List StringUnit × Json)}
    (hopen : ∀ after, skipGap tail ≠ '}' :: after) (h : ReadsMembers tail members rest) :
    Reads ('{' :: tail) (ofMembers members) rest := by
  obtain ⟨left, hmembers, rfl⟩ := h
  unfold Reads
  rw [value?]
  split
  · next hread => exact absurd hread (hopen _)
  · rw [hmembers]
    exact ⟨_, rfl, rfl⟩

/-- A member is a name, a colon and a value, and is followed by the closing brace, or by a comma and
more members. -/
theorem readsMembers {afterName afterColon : List Char} {name : List StringUnit}
    {members : List (List StringUnit × Json)} (hcs : skipGap cs = '"' :: tail)
    (hname : stringUnits? tail = some (name, afterName))
    (hcolon : skipGap afterName = ':' :: afterColon) (h : Reads (skipGap afterColon) value after)
    (hafter : skipGap after = '}' :: rest ∧ members = [] ∨
      ∃ more, skipGap after = ',' :: more ∧ ReadsMembers more members rest) :
    ReadsMembers cs ((name, value) :: members) rest := by
  -- Each match of the reader is on what stands there: the quote, the name, the colon and the value.
  obtain ⟨left, hread, rfl⟩ := h
  unfold ReadsMembers
  rw [members?]
  split
  case h_2 hquote => exact absurd hcs (hquote tail)
  next hq =>
  rw [hcs] at hq
  cases hq
  split
  case h_1 hnone =>
    rw [hname] at hnone
    cases hnone
  next hu =>
  rw [hname] at hu
  cases hu
  split
  case h_2 hnone => exact absurd hcolon (hnone afterColon)
  next hc =>
  rw [hcolon] at hc
  cases hc
  rw [hread]
  dsimp only
  -- What follows the value is the closing brace or a comma.
  rcases hafter with ⟨hafter, rfl⟩ | ⟨more, hafter, last, hmembers, rfl⟩
  · split
    · next heq =>
      rw [hafter] at heq
      cases heq
      exact ⟨_, rfl, rfl⟩
    · next heq =>
      rw [hafter] at heq
      cases heq
    · next hclose _ => exact absurd hafter (hclose rest)
  · split
    · next heq =>
      rw [hafter] at heq
      cases heq
    · next heq =>
      rw [hafter] at heq
      cases heq
      rw [hmembers]
      exact ⟨_, rfl, rfl⟩
    · next _ hcomma => exact absurd hafter (hcomma more)

end Readers

/-! ## Reading what has been written -/

mutual

/-- A value is made of strings, arrays and objects alone. -/
def Textual : Json → Prop
  | .string _ => True
  | .array items => AllTextual items
  | .object members => MembersTextual members
  | _ => False

/-- The items are made of strings, arrays and objects alone. -/
def AllTextual : List Json → Prop
  | [] => True
  | item :: items => Textual item ∧ AllTextual items

/-- The members are made of strings, arrays and objects alone. -/
def MembersTextual : List (String × Json) → Prop
  | [] => True
  | (_, value) :: members => Textual value ∧ MembersTextual members

end

mutual

/-- Each part of a value that is made of strings, arrays and objects alone denotes a value. -/
theorem Textual.isReadable : ∀ {value : Json}, value.Textual → value.isReadable = true
  | .string _, _ => rfl
  | .array _, h => AllTextual.areReadable h
  | .object _, h => MembersTextual.areReadableMembers h

/-- Items made of strings, arrays and objects can be read. -/
theorem AllTextual.areReadable : ∀ {items : List Json}, AllTextual items → areReadable items = true
  | [], _ => rfl
  | _ :: _, ⟨hitem, hitems⟩ => Bool.and_eq_true_iff.mpr ⟨hitem.isReadable, hitems.areReadable⟩

/-- Members made of strings, arrays and objects can be read. -/
theorem MembersTextual.areReadableMembers : ∀ {members : List (String × Json)},
    MembersTextual members → areReadableMembers members = true
  | [], _ => rfl
  | (_, _) :: _, ⟨hvalue, hmembers⟩ =>
    Bool.and_eq_true_iff.mpr ⟨hvalue.isReadable, hmembers.areReadableMembers⟩

end

section Writing

variable {value item : Json} {items : List Json} {members : List (String × Json)}

/-- A text that starts with no gap has none to skip. -/
theorem skipGap_cons {c : Char} (hc : isGap c = false) (cs : List Char) :
    skipGap (c :: cs) = c :: cs := by
  rw [skipGap, List.dropWhile_cons, hc]
  rfl

/-- A string is written between two quotes. -/
theorem quote_append (s : String) (rest : List Char) :
    quote s ++ rest = '"' :: (s.toList.flatMap escape ++ '"' :: rest) := by
  simp [quote]

/-- A value that is written starts with a character that is neither a gap nor closes a list. -/
theorem exists_write_eq_cons (h : value.Textual) :
    ∃ c cs, write none value = c :: cs ∧ isGap c = false ∧ c ≠ ']' := by
  cases value with
  | string s => exact ⟨_, _, by rw [write, quote]; rfl, rfl, by decide⟩
  | array items =>
    cases items with
    | nil => exact ⟨_, _, by rw [write], rfl, by decide⟩
    | cons item items => exact ⟨_, _, by rw [write]; rfl, rfl, by decide⟩
  | object members =>
    cases members with
    | nil => exact ⟨_, _, by rw [write], rfl, by decide⟩
    | cons member members => exact ⟨_, _, by rw [write]; rfl, rfl, by decide⟩
  | _ => exact absurd h id

/-- No gap stands in front of a value that is written. -/
theorem skipGap_write (h : value.Textual) (rest : List Char) :
    skipGap (write none value ++ rest) = write none value ++ rest := by
  obtain ⟨c, cs, heq, hc, -⟩ := exists_write_eq_cons h
  rw [heq]
  exact skipGap_cons hc _

/-- A value that is read where it is written is read where a gap may stand, too. -/
theorem Reads.behind_gap (h : value.Textual) {rest : List Char}
    (hread : Reads (write none value ++ rest) value rest) :
    Reads (skipGap (write none value ++ rest)) value rest := by
  rwa [skipGap_write h]

/-! On one line nothing stands between the parts of a value but brackets, commas and colons. -/

/-- An array is written as its first item with the others behind it. -/
theorem write_array (item : Json) (items : List Json) :
    write none (.array (item :: items)) = '[' :: (write none item ++ writeItems none items) := by
  simp [write, Layout.inner, Layout.lineBreak]

/-- Each item behind the first one is written with a comma in front of it. -/
theorem writeItems_cons (item : Json) (items : List Json) :
    writeItems none (item :: items) = ',' :: (write none item ++ writeItems none items) := by
  simp [writeItems, Layout.inner, Layout.lineBreak]

/-- An object is written as its first member with the others behind it. -/
theorem write_object (name : String) (value : Json) (members : List (String × Json)) :
    write none (.object ((name, value) :: members)) =
      '\x7b' :: (quote name ++ ':' :: (write none value ++ writeMembers none members)) := by
  simp [write, Layout.inner, Layout.lineBreak, Layout.colon]

/-- Each member behind the first one is written with a comma in front of it. -/
theorem writeMembers_cons (name : String) (value : Json) (members : List (String × Json)) :
    writeMembers none ((name, value) :: members) =
      ',' :: (quote name ++ ':' :: (write none value ++ writeMembers none members)) := by
  simp [writeMembers, Layout.inner, Layout.lineBreak, Layout.colon]

/-- A member as it is read: its name is given by the units with which it is written. -/
def readMember (member : String × Json) : List StringUnit × Json :=
  (member.1.toList.map unitOf, member.2)

/-- The members that have been read are those of the object. -/
theorem ofMembers_map_readMember (members : List (String × Json)) :
    ofMembers (members.map readMember) = .object members := by
  have hmembers : (members.map readMember).mapM (fun member =>
      (joinUnits? member.1).map fun cs => (String.ofList cs, member.2)) = some members := by
    induction members with
    | nil => rfl
    | cons member members ih =>
      rw [List.map_cons, List.mapM_cons, ih, readMember]
      dsimp only
      rw [joinUnits?_map_unitOf, Option.map_some, String.ofList_toList]
      rfl
  rw [ofMembers, hmembers]

mutual

/-- A value that has been written is read, whatever stands behind it. -/
theorem reads_write : ∀ {value : Json}, value.Textual → ∀ rest,
    Reads (write none value ++ rest) value rest
  | .string s, _, rest => by
    rw [write, quote_append, ← ofUnits_map_unitOf]
    exact reads_string (stringUnits?_flatMap_escape _ _)
  | .array [], _, rest => by
    rw [write]
    exact reads_array_nil rest
  -- The first item starts with no closing bracket, so the array is not read as empty.
  | .array (item :: items), ⟨hitem, hitems⟩, rest => by
    rw [write_array, List.cons_append, List.append_assoc]
    refine reads_array (fun after hclose => ?_)
      (readsItems_write hitems (fun _ => (reads_write hitem _).behind_gap hitem) rest)
    obtain ⟨c, cs, heq, -, hne⟩ := exists_write_eq_cons hitem
    rw [skipGap_write hitem, heq] at hclose
    exact hne (List.cons.inj hclose).1
  | .object [], _, rest => by
    rw [write]
    exact reads_object_nil rest
  -- The first member starts with a quote, so the object is not read as empty.
  | .object ((name, value) :: members), ⟨hvalue, hmembers⟩, rest => by
    rw [write_object, ← ofMembers_map_readMember]
    simp only [List.cons_append, List.append_assoc]
    refine reads_object (fun after hclose => ?_)
      (readsMembers_write hmembers (fun _ => (reads_write hvalue _).behind_gap hvalue) rest)
    rw [quote_append, skipGap_cons rfl] at hclose
    exact absurd (List.cons.inj hclose).1 (by decide)

/-- Items that have been written behind a first one are read with it. -/
theorem readsItems_write : ∀ {items : List Json}, AllTextual items → ∀ {item : Json},
    (∀ rest, Reads (skipGap (write none item ++ rest)) item rest) → ∀ rest,
      ReadsItems (write none item ++ (writeItems none items ++ rest)) (item :: items) rest
  | [], _, item, hitem, rest => by
    refine readsItems (hitem _) (.inl ⟨?_, rfl⟩)
    rw [writeItems]
    exact skipGap_cons rfl rest
  | next :: items, ⟨hnext, hitems⟩, item, hitem, rest => by
    refine readsItems (hitem _) (.inr ⟨_, ?_,
      readsItems_write hitems (fun _ => (reads_write hnext _).behind_gap hnext) rest⟩)
    rw [writeItems_cons, List.cons_append, List.append_assoc]
    exact skipGap_cons rfl _

/-- Members that have been written behind a first one are read with it. -/
theorem readsMembers_write : ∀ {members : List (String × Json)}, MembersTextual members →
    ∀ {name : String} {value : Json},
      (∀ rest, Reads (skipGap (write none value ++ rest)) value rest) → ∀ rest,
        ReadsMembers
          (quote name ++ ':' :: (write none value ++ (writeMembers none members ++ rest)))
          (((name, value) :: members).map readMember) rest
  -- The closing brace follows.
  | [], _, name, value, hvalue, rest => by
    rw [quote_append]
    refine readsMembers (skipGap_cons rfl _) (stringUnits?_flatMap_escape _ _)
      (skipGap_cons rfl _) (hvalue _) (.inl ⟨?_, rfl⟩)
    rw [writeMembers]
    exact skipGap_cons rfl rest
  -- A comma follows, and the next member is read behind it.
  | (next, other) :: members, ⟨hother, hmembers⟩, name, value, hvalue, rest => by
    rw [quote_append]
    refine readsMembers (skipGap_cons rfl _) (stringUnits?_flatMap_escape _ _)
      (skipGap_cons rfl _) (hvalue _) (.inr ⟨_, ?_,
        readsMembers_write hmembers (fun _ => (reads_write hother _).behind_gap hother) rest⟩)
    rw [writeMembers_cons]
    simp only [List.cons_append, List.append_assoc]
    exact skipGap_cons rfl _

end

/-- The text that is written for a value gives the value again. -/
theorem read?_write (h : value.Textual) : read? (write none value) = some value := by
  have hread := reads_write h []
  rw [← skipGap_write h, List.append_nil] at hread
  obtain ⟨left, hvalue, hleft⟩ := hread
  rw [read?, hvalue]
  dsimp only
  rw [hleft]
  rfl

end Writing

end TreeQuery.Json
