import TreeQuery.Proofs.JsonText

/-!
# How deep a JSON text nests

How many arrays and objects are open at once in a text can be counted on the text itself, by its
brackets outside strings (`Json.nesting`). In the text that is written for a value it is the depth
of the value (`nesting_write`): the brackets that a string holds are passed over, and each array or
object closes what it has opened.
-/

namespace TreeQuery.Json

/-- Where in a text a count of brackets stands. -/
inductive Spot where
  /-- Outside strings. -/
  | outside
  /-- In a string. -/
  | inside
  /-- In a string, behind a backslash. -/
  | escaped
  deriving DecidableEq, Repr

/-- A count of the brackets in a text. -/
structure Count where
  /-- Where the count stands. -/
  spot : Spot
  /-- How many arrays and objects are open. -/
  level : Nat
  /-- How many have been open at once so far. -/
  deepest : Nat
  deriving DecidableEq, Repr

/-- The count after one more character. -/
def Count.step (count : Count) (c : Char) : Count :=
  match count.spot with
  | .outside =>
    if c == '"' then { count with spot := .inside }
    else if c == '[' || c == '\x7b' then
      { count with level := count.level + 1, deepest := max count.deepest (count.level + 1) }
    else if c == ']' || c == '\x7d' then { count with level := count.level - 1 }
    else count
  | .inside =>
    if c == '"' then { count with spot := .outside }
    else if c == '\\' then { count with spot := .escaped }
    else count
  | .escaped => { count with spot := .inside }

/-- How many arrays and objects are open at once in a text. -/
def nesting (cs : List Char) : Nat :=
  (cs.foldl Count.step ⟨.outside, 0, 0⟩).deepest

/-- In a string, plain characters change nothing. -/
theorem step_inside {c : Char} (hquote : c ≠ '"') (hslash : c ≠ '\\') (l d : Nat) :
    Count.step ⟨.inside, l, d⟩ c = ⟨.inside, l, d⟩ := by
  simp [Count.step, hquote, hslash]

/-- A hexadecimal digit is a plain character. -/
theorem hexDigit_plain : ∀ n < 16, hexDigit n ≠ '"' ∧ hexDigit n ≠ '\\' := by
  decide

/-- A character that is written in a string leaves the count in the string. -/
theorem foldl_step_escape (c : Char) (l d : Nat) :
    (escape c).foldl Count.step ⟨.inside, l, d⟩ = ⟨.inside, l, d⟩ := by
  unfold escape
  split_ifs with hquote hslash hb ht hn hf hr hcontrol
  -- Two characters, of which the first is the backslash, and the second is read as escaped.
  · rfl
  · rfl
  · rfl
  · rfl
  · rfl
  · rfl
  · rfl
  -- A control character is written in hexadecimal digits, which neither quote nor escape.
  · obtain ⟨hhigh, hhigh'⟩ := hexDigit_plain (c.toNat / 16) (by omega)
    obtain ⟨hlow, hlow'⟩ := hexDigit_plain (c.toNat % 16) (Nat.mod_lt _ (by decide))
    simp only [List.foldl_cons, List.foldl_nil]
    have hstart : [('\\' : Char), 'u', '0', '0'].foldl Count.step ⟨.inside, l, d⟩ =
      ⟨.inside, l, d⟩ := rfl
    simp only [List.foldl_cons, List.foldl_nil] at hstart
    rw [hstart, step_inside hhigh hhigh', step_inside hlow hlow']
  -- Any other character stands for itself, and is neither a quote nor a backslash.
  · rw [beq_iff_eq] at hquote hslash
    exact step_inside hquote hslash l d

/-- A string that is written leaves the count as it was. -/
theorem foldl_step_quote (s : String) (l d : Nat) :
    (quote s).foldl Count.step ⟨.outside, l, d⟩ = ⟨.outside, l, d⟩ := by
  have hinside : ∀ cs : List Char,
      (cs.flatMap escape).foldl Count.step ⟨.inside, l, d⟩ = ⟨.inside, l, d⟩ := by
    intro cs
    induction cs with
    | nil => rfl
    | cons c cs ih => rw [List.flatMap_cons, List.foldl_append, foldl_step_escape, ih]
  rw [quote, List.cons_append, List.foldl_cons, List.foldl_append]
  have hopen : Count.step ⟨.outside, l, d⟩ '"' = ⟨.inside, l, d⟩ := rfl
  rw [hopen, hinside]
  rfl

/-- An opening bracket raises the level. -/
theorem step_open {c : Char} (hc : c = '[' ∨ c = '\x7b') (l d : Nat) :
    Count.step ⟨.outside, l, d⟩ c = ⟨.outside, l + 1, max d (l + 1)⟩ := by
  rcases hc with rfl | rfl
  · rfl
  · rfl

/-- A closing bracket lowers the level. -/
theorem step_close {c : Char} (hc : c = ']' ∨ c = '\x7d') (l d : Nat) :
    Count.step ⟨.outside, l + 1, d⟩ c = ⟨.outside, l, d⟩ := by
  rcases hc with rfl | rfl
  · rfl
  · rfl

/-- What stands between the parts of a value leaves the count as it was. -/
theorem step_between {c : Char} (hc : c = ',' ∨ c = ':') (l d : Nat) :
    Count.step ⟨.outside, l, d⟩ c = ⟨.outside, l, d⟩ := by
  rcases hc with rfl | rfl
  · rfl
  · rfl

mutual

/-- A value that is written leaves the level as it was, and the count has seen its depth. -/
theorem foldl_step_write : ∀ {value : Json}, value.Textual → ∀ {l d : Nat}, l ≤ d →
    (write none value).foldl Count.step ⟨.outside, l, d⟩ =
      ⟨.outside, l, max d (l + value.depth)⟩
  -- A string opens nothing.
  | .string s, _, l, d, hle => by
    rw [write, foldl_step_quote]
    congr 1
    exact (Nat.max_eq_left hle).symm
  | .array [], _, l, d, _ => by
    rw [write, List.foldl_cons, step_open (.inl rfl), List.foldl_cons, step_close (.inl rfl)]
    rfl
  -- An array goes one level down for its items and comes back behind them.
  | .array (item :: items), ⟨hitem, hitems⟩, l, d, _ => by
    rw [write_array, List.foldl_cons, step_open (.inl rfl), List.foldl_append,
      foldl_step_write hitem (by omega), foldl_step_writeItems hitems (by omega), depth, depthItems]
    congr 1
    omega
  | .object [], _, l, d, _ => by
    rw [write, List.foldl_cons, step_open (.inr rfl), List.foldl_cons, step_close (.inr rfl)]
    rfl
  -- An object does so for its members, whose names are strings.
  | .object ((name, value) :: members), ⟨hvalue, hmembers⟩, l, d, _ => by
    rw [write_object, List.foldl_cons, step_open (.inr rfl), List.foldl_append, foldl_step_quote,
      List.foldl_cons, step_between (.inr rfl), List.foldl_append,
      foldl_step_write hvalue (by omega), foldl_step_writeMembers hmembers (by omega), depth,
      depthMembers]
    congr 1
    omega

/-- The items behind the first one close the array, and the count has seen their depth. -/
theorem foldl_step_writeItems : ∀ {items : List Json}, AllTextual items → ∀ {l d : Nat},
    l + 1 ≤ d → (writeItems none items).foldl Count.step ⟨.outside, l + 1, d⟩ =
      ⟨.outside, l, max d (l + 1 + depthItems items)⟩
  | [], _, l, d, hle => by
    rw [writeItems, depthItems, Nat.add_zero, Nat.max_eq_left hle]
    exact step_close (.inl rfl) l d
  | item :: items, ⟨hitem, hitems⟩, l, d, hle => by
    rw [writeItems_cons, List.foldl_cons, step_between (.inl rfl), List.foldl_append,
      foldl_step_write hitem hle, foldl_step_writeItems hitems (by omega), depthItems]
    congr 1
    omega

/-- The members behind the first one close the object, and the count has seen their depth. -/
theorem foldl_step_writeMembers : ∀ {members : List (String × Json)}, MembersTextual members →
    ∀ {l d : Nat}, l + 1 ≤ d →
      (writeMembers none members).foldl Count.step ⟨.outside, l + 1, d⟩ =
        ⟨.outside, l, max d (l + 1 + depthMembers members)⟩
  | [], _, l, d, hle => by
    rw [writeMembers, depthMembers, Nat.add_zero, Nat.max_eq_left hle]
    exact step_close (.inr rfl) l d
  | (name, value) :: members, ⟨hvalue, hmembers⟩, l, d, hle => by
    rw [writeMembers_cons, List.foldl_cons, step_between (.inl rfl), List.foldl_append,
      foldl_step_quote, List.foldl_cons, step_between (.inr rfl), List.foldl_append,
      foldl_step_write hvalue hle, foldl_step_writeMembers hmembers (by omega), depthMembers]
    congr 1
    omega

end

/-- The text that is written for a value nests as deep as the value. -/
theorem nesting_write {value : Json} (h : value.Textual) :
    nesting (write none value) = value.depth := by
  rw [nesting, foldl_step_write h (Nat.le_refl 0)]
  simp

end TreeQuery.Json
