import TreeQuery.Selector.Scan

/-!
# Reading a selector

`Selector.parse` reads any text. Each group that holds a token is completed so that it leads from
the nodes that it is searched from to nodes below them: unless it starts with `>`, a descendant
combinator is put in front of it, and a pseudo-class at its start gets a universal type selector to
filter. `weight_parse_le` says that the text nested in a selector is shorter than the text that the
selector was read from, which is why a search through nested selectors comes to an end.
-/

namespace TreeQuery

namespace Selector

/-- The parts of a text, from left to right. -/
def lexemes : List Char → List Lexeme
  | [] => []
  | c :: cs => (lexeme c cs).1 :: lexemes (lexeme c cs).2
termination_by cs => cs.length
decreasing_by
  exact Nat.lt_succ_of_le (length_lexeme_le c cs)

/-- The tokens between commas. There is one group more than there are commas. -/
def split : List Lexeme → List Group
  | [] => [[]]
  | .comma :: rest => [] :: split rest
  | .skipped _ :: rest => split rest
  | .token token :: rest =>
    match split rest with
    | [] => [[token]]
    | group :: groups => (token :: group) :: groups

end Selector

/-- The group with what it leaves out at its start. -/
def Group.complete : Group → Group
  | [] => []
  | .child :: tokens => .child :: tokens
  | .pseudoClass name argument :: tokens =>
    .descendant :: .tag "*" :: .pseudoClass name argument :: tokens
  | token :: tokens => .descendant :: token :: tokens

namespace Selector

/-- The selector that a text writes. -/
def parse (text : String) : Selector :=
  ⟨(split (lexemes (normalize text.toList))).map Group.complete⟩

/-! ## Nested text -/

/-- How much text is nested in parts of a selector. -/
def totalWeight : List Lexeme → Nat
  | [] => 0
  | lexeme :: rest => lexeme.weight + totalWeight rest

/-- The parts of a text weigh no more than its length. -/
theorem totalWeight_lexemes_le (cs : List Char) : totalWeight (lexemes cs) ≤ cs.length := by
  fun_induction lexemes cs with
  | case1 => simp [totalWeight]
  | case2 c cs ih =>
    have := weight_lexeme_add_le c cs
    simp only [totalWeight, List.length_cons]
    omega

/-- Splitting parts at the commas loses no token, so it loses no weight. -/
theorem totalWeight_split (parts : List Lexeme) :
    Group.totalWeight (split parts) = totalWeight parts := by
  fun_induction split parts with
  | case1 => rfl
  | case2 rest ih => simp [Group.totalWeight, Group.weight, totalWeight, Lexeme.weight, ih]
  | case3 c rest ih => simp [totalWeight, Lexeme.weight, ih]
  | case4 token rest hsplit ih =>
    rw [hsplit] at ih
    simp_all [Group.totalWeight, Group.weight, totalWeight, Lexeme.weight]
  | case5 token rest group groups hsplit ih =>
    rw [hsplit] at ih
    simp only [Group.totalWeight, Group.weight, totalWeight, Lexeme.weight] at *
    omega

/-- A group that is completed weighs what it weighed before: what is added has no nested text. -/
theorem weight_complete (group : Group) : Group.weight group.complete = Group.weight group := by
  rw [Group.complete.eq_def]
  split <;> simp [Group.weight, Token.weight]

/-- Groups that are completed weigh what they weighed before. -/
theorem totalWeight_map_complete (groups : List Group) :
    Group.totalWeight (groups.map Group.complete) = Group.totalWeight groups := by
  induction groups with
  | nil => rfl
  | cons group groups ih => simp [Group.totalWeight, weight_complete, ih]

/-- The text nested in a selector is no longer than the text of the selector. -/
theorem weight_parse_le (text : String) : (parse text).weight ≤ text.length := by
  have h := totalWeight_lexemes_le (normalize text.toList)
  have hn := length_normalize_le text.toList
  rw [String.length_toList] at hn
  -- What a group is completed with holds no nested text.
  rw [weight, parse, totalWeight_map_complete, totalWeight_split]
  exact Nat.le_trans h hn

end Selector

end TreeQuery
