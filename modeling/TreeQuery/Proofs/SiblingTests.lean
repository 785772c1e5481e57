import TreeQuery.Proofs.Scanning
import TreeQuery.Proofs.SimpleTests

/-!
# Tests behind sibling combinators

What stands behind `+` or `~` is kept as text and read as a selector when the search comes to it. A
name and a run of classes, of which either may be missing, are read as the tests that they are
(`SiblingTest.parse_text`), so the siblings that are accepted are those that pass these tests
(`SiblingTest.acceptsSibling_iff`). `mem_siblingsOf_adjacent` and `mem_siblingsOf_general` say which
siblings a combinator leads to.
-/

namespace TreeQuery

/-! ## The test as text -/

/-- A type selector without a bar. -/
abbrev PlainTag : Type :=
  { name : String // isTypeSelector name = true ∧ '|' ∉ name.toList }

/-- Class names with points between them. -/
abbrev ClassRun : Type :=
  { names : String // ∀ c ∈ names.toList, Selector.isClassChar c = true }

/-- What stands behind a sibling combinator: a type selector and a run of classes. -/
structure SiblingTest where
  /-- The type selector, if there is one. -/
  tag? : Option PlainTag
  /-- The run of classes, if there is one. -/
  classes? : Option ClassRun

namespace SiblingTest

variable {t : Tree} {settings : Settings} {n : NodeId}

/-- The text of the test. -/
def text (sub : SiblingTest) : String :=
  (sub.tag?.map (·.1)).getD "" ++ (sub.classes?.map fun names => "." ++ names.1).getD ""

/-- The simple tests that it is made of. -/
def tests (sub : SiblingTest) : List SimpleTest :=
  (sub.tag?.map fun tag => .tag tag.1 tag.2.1).toList ++
    (sub.classes?.map fun names => .classes names.1).toList

/-- A type selector without a bar is `*` or a name. -/
theorem eq_star_or_isIdChar (tag : PlainTag) :
    tag.1 = "*" ∨ tag.1.toList ≠ [] ∧ ∀ c ∈ tag.1.toList, Selector.isIdChar c = true := by
  obtain ⟨name, hvalid, hbar⟩ := tag
  unfold isTypeSelector at hvalid
  rw [Bool.or_eq_true, Bool.and_eq_true, beq_iff_eq, List.all_eq_true] at hvalid
  refine hvalid.imp_right fun ⟨hne, hall⟩ => ⟨fun hnil => ?_, fun c hc => ?_⟩
  · rw [show name = "" from String.toList_eq_nil_iff.mp hnil] at hne
    cases hne
  · have hcases := hall c hc
    unfold Selector.isIdChar
    simp only [Bool.or_eq_true, beq_iff_eq] at hcases ⊢
    rcases hcases with (hword | rfl) | hhyphen
    · exact .inl hword
    · exact absurd hc hbar
    · exact .inr hhyphen

/-- The characters of a type selector without a bar. -/
theorem tag_chars (tag : PlainTag) :
    tag.1.toList ≠ [] ∧ (∀ c ∈ tag.1.toList, Selector.isTagChar c = true) ∧
      ∀ c ∈ tag.1.toList, Selector.isSiblingChar c = true := by
  -- A type selector without a bar is the star or a name.
  rcases eq_star_or_isIdChar tag with hstar | ⟨hne, hall⟩
  · have hchars : tag.1.toList = ['*'] := by rw [hstar]; rfl
    rw [hchars, List.forall_mem_singleton, List.forall_mem_singleton]
    exact ⟨List.cons_ne_nil _ _, rfl, rfl⟩
  · refine ⟨hne, fun c hc => ?_, fun c hc => ?_⟩
    · have hid := hall c hc
      unfold Selector.isIdChar at hid
      unfold Selector.isTagChar
      simp only [Bool.or_eq_true] at hid ⊢
      exact hid.imp_left fun hword => .inl (.inl hword)
    · have hid := hall c hc
      unfold Selector.isIdChar at hid
      unfold Selector.isSiblingChar Selector.isClassChar
      simp only [Bool.or_eq_true] at hid ⊢
      exact .inl (hid.imp_left .inl)

/-- The characters of the run of classes, with the point in front of it. -/
def classChars (sub : SiblingTest) : List Char :=
  (sub.classes?.map fun names => '.' :: names.1.toList).getD []

/-- The characters of the text are those of the type selector and then those of the classes. -/
theorem toList_text (sub : SiblingTest) :
    sub.text.toList = (sub.tag?.map (·.1.toList)).getD [] ++ sub.classChars := by
  obtain ⟨tag?, classes?⟩ := sub
  unfold text classChars
  rw [String.toList_append]
  congr 1
  · cases tag? with
    | none => rfl
    | some tag => rfl
  · cases classes? with
    | none => rfl
    | some names => exact String.toList_append

/-- The text of the test is made of characters that stand behind a sibling combinator. -/
theorem isSiblingChar_of_mem_text (sub : SiblingTest) {c : Char} (hc : c ∈ sub.text.toList) :
    Selector.isSiblingChar c = true := by
  rw [toList_text, List.mem_append] at hc
  -- The character stands in the type selector or in the classes behind it.
  rcases hc with hc | hc
  · cases htag : sub.tag? with
    | none =>
      rw [htag] at hc
      cases hc
    | some tag =>
      rw [htag] at hc
      exact (tag_chars tag).2.2 c hc
  · unfold classChars at hc
    unfold Selector.isSiblingChar
    cases hclasses : sub.classes? with
    | none =>
      rw [hclasses] at hc
      cases hc
    | some names =>
      rw [hclasses] at hc
      rcases List.mem_cons.mp hc with rfl | hc
      · rfl
      · rw [names.2 c hc]
        rfl

/-- The text of the test has no blanks. -/
theorem isBlank_eq_false_of_mem_text (sub : SiblingTest) {c : Char} (hc : c ∈ sub.text.toList) :
    Text.isBlank c = false :=
  (Selector.plain_of_isSiblingChar (sub.isSiblingChar_of_mem_text hc)).1

/-- The classes are read as one token. -/
theorem lexemes_classChars (sub : SiblingTest) :
    Selector.lexemes sub.classChars =
      (sub.classes?.map fun names => .token (.classes names.1)).toList := by
  unfold classChars
  cases sub.classes? with
  | none => exact Selector.lexemes.eq_def []
  | some names =>
    have hread : Selector.lexemes ((Token.classes names.1).chars ++ []) = _ :=
      Selector.lexemes_chars (.classes names.1) names.2 fun c hc => nomatch hc
    rw [List.append_nil, Selector.lexemes] at hread
    exact hread

/-- The text is read as the tokens of its tests. -/
theorem lexemes_text (sub : SiblingTest) :
    Selector.lexemes sub.text.toList = sub.tests.map fun test => .token test.token := by
  -- The classes start with a point, at which the type selector ends.
  have hhead : ∀ c ∈ sub.classChars.head?, Selector.isTagChar c = false := by
    unfold classChars
    cases sub.classes? with
    | none => exact fun c hc => nomatch hc
    | some names =>
      intro c hc
      rw [← Option.some.inj hc]
      rfl
  -- They are read as the one token that they are.
  have hclasses : (sub.classes?.map fun names => Selector.Lexeme.token (.classes names.1)).toList =
      (sub.classes?.map fun names => SimpleTest.classes names.1).toList.map fun test =>
        .token test.token := by
    cases sub.classes? with
    | none => rfl
    | some names => rfl
  unfold tests
  rw [toList_text, List.map_append, ← hclasses, ← lexemes_classChars]
  cases sub.tag? with
  | none => rfl
  | some tag =>
    obtain ⟨hne, htag, -⟩ := tag_chars tag
    exact Selector.lexemes_chars (.tag tag.1) ⟨hne, htag⟩ hhead

/-- Tokens without a comma between them are one group. -/
theorem split_tokens (tokens : List Token) :
    Selector.split (tokens.map .token) = [tokens] := by
  induction tokens with
  | nil => rfl
  | cons token tokens ih => rw [List.map_cons, Selector.split, ih]

/-- The text of the test is read as the tests that it is made of. -/
theorem parse_text (sub : SiblingTest) :
    Selector.parse sub.text = ⟨[Group.complete (sub.tests.map (·.token))]⟩ := by
  have hmap : (sub.tests.map fun test => Selector.Lexeme.token test.token) =
      (sub.tests.map (·.token)).map .token := by
    rw [List.map_map]
    rfl
  unfold Selector.parse
  rw [Selector.normalize_eq fun c hc => sub.isBlank_eq_false_of_mem_text hc, lexemes_text, hmap,
    split_tokens]
  rfl

/-! ## The siblings that are accepted -/

/-- The tests are a type selector without a bar and a run of classes. -/
theorem mem_tests {sub : SiblingTest} {test : SimpleTest} :
    test ∈ sub.tests ↔ (∃ tag ∈ sub.tag?, .tag tag.1 tag.2.1 = test) ∨
      ∃ names ∈ sub.classes?, .classes names.1 = test := by
  unfold tests
  rw [List.mem_append, Option.mem_toList, Option.mem_toList, Option.map_eq_some_iff,
    Option.map_eq_some_iff]
  rfl

/-- A filter asks the same as a search by each of the tests. -/
theorem askedAlike_of_mem_tests {sub : SiblingTest} {test : SimpleTest} (htest : test ∈ sub.tests) :
    test.AskedAlike t settings := by
  rcases mem_tests.mp htest with ⟨tag, -, rfl⟩ | ⟨names, -, rfl⟩
  · exact .inl tag.2.2
  · exact trivial

/-- The tests form a group that a combinator leads to. -/
theorem complete_tests (tests : List SimpleTest) (hne : tests ≠ []) :
    Group.complete (tests.map (·.token)) = .descendant :: tests.map (·.token) := by
  cases tests with
  | nil => exact absurd rfl hne
  | cons test tests =>
    cases test with
    | tag name valid => rfl
    | id name => rfl
    | classes names => rfl
    | attr test => rfl

/-- The test accepts the siblings that a filter with the tests that it is made of keeps. -/
theorem acceptsSibling_eq (sub : SiblingTest) (hne : sub.tests ≠ []) :
    t.acceptsSibling settings (Selector.parse sub.text) = fun n =>
      t.passesAll settings n (sub.tests.map (·.token)) := by
  funext n
  rw [parse_text, complete_tests _ hne]
  show (false && true || (t.passesAll settings n (sub.tests.map (·.token)) || false)) = _
  rw [Bool.false_and, Bool.false_or, Bool.or_false]

/-- The siblings that the test accepts are those that pass the tests that it is made of. -/
theorem acceptsSibling_iff (sub : SiblingTest) (hn : t.isElement n = true) :
    t.acceptsSibling settings (Selector.parse sub.text) n = true ↔
      ∀ test ∈ sub.tests, test.Holds t settings n := by
  have hpasses : t.passesAll settings n (sub.tests.map (·.token)) = true ↔
      ∀ test ∈ sub.tests, test.Holds t settings n :=
    SimpleTest.passesAll_iff (fun test htest => askedAlike_of_mem_tests htest) hn
  rw [← hpasses]
  by_cases hnil : sub.tests = []
  · -- A test that asks for nothing is read as a group without tokens, which keeps everything.
    rw [parse_text]
    rw [hnil] at hpasses ⊢
    exact iff_of_true rfl (hpasses.mpr fun test htest => nomatch htest)
  · rw [acceptsSibling_eq sub hnil]

end SiblingTest

/-! ## The siblings that a combinator leads to -/

namespace Tree

variable {t : Tree} {settings : Settings} {n m : NodeId}

/-- `m` comes after `n` in a list of children, and `between` is what stands between the two. -/
def Later (t : Tree) (between : List NodeId) (n m : NodeId) : Prop :=
  ∃ p before after, t.children p = before ++ n :: (between ++ m :: after)

/-- A node without a parent has no siblings after it. -/
theorem WellFormed.followingSiblings_of_free (h : t.WellFormed) (hn : t.parent? n = none) :
    t.followingSiblings n = [] := by
  unfold followingSiblings
  rw [(h.free hn).2, chase_none]

/-- The siblings after a node are those that come later in a list of children. -/
theorem WellFormed.later_iff (h : t.WellFormed) {between : List NodeId} :
    t.Later between n m ↔ ∃ after, t.followingSiblings n = between ++ m :: after := by
  constructor
  · rintro ⟨p, before, after, hsplit⟩
    exact ⟨after, h.followingSiblings_eq hsplit⟩
  · rintro ⟨after, hfollowing⟩
    cases hp : t.parent? n with
    | none =>
      rw [h.followingSiblings_of_free hp] at hfollowing
      simp at hfollowing
    | some p =>
      obtain ⟨before, rest, hsplit, -⟩ := h.exists_split hp
      rw [h.followingSiblings_eq hsplit] at hfollowing
      exact ⟨p, before, after, hfollowing ▸ hsplit⟩

/-- The next element sibling is the later element sibling with no element between. -/
theorem WellFormed.nextElement?_eq_some_iff (h : t.WellFormed) :
    t.nextElement? n = some m ↔ t.isElement m = true ∧
      ∃ between, t.Later between n m ∧ ∀ k ∈ between, t.isElement k = false := by
  unfold nextElement?
  rw [List.find?_eq_some_iff_append]
  refine and_congr_right fun _ => exists_congr fun between => ?_
  rw [h.later_iff]
  simp only [Bool.not_eq_true', exists_and_right]

/-- The later element siblings are the elements that come later in a list of children. -/
theorem WellFormed.mem_followingElements (h : t.WellFormed) :
    m ∈ t.followingElements n ↔ t.isElement m = true ∧ ∃ between, t.Later between n m := by
  unfold followingElements
  rw [List.mem_filter, and_comm, List.mem_iff_append]
  refine and_congr_right fun _ => exists_congr fun between => h.later_iff.symm

/-- The combinator `+` leads to the next element sibling, if it is accepted. -/
theorem mem_siblingsOf_adjacent {sub : String} {nodes : List NodeId} :
    m ∈ t.siblingsOf settings (.adjacent sub) nodes ↔ ∃ n ∈ nodes,
      t.nextElement? n = some m ∧ t.acceptsSibling settings (Selector.parse sub) m = true := by
  unfold siblingsOf
  dsimp only
  rw [NodeSet.mem_ofList, List.mem_filterMap]
  simp only [adjacentSibling?, Option.filter_eq_some_iff]

/-- The combinator `~` leads to the later element siblings that are accepted. -/
theorem mem_siblingsOf_general {sub : String} {nodes : List NodeId} :
    m ∈ t.siblingsOf settings (.general sub) nodes ↔ ∃ n ∈ nodes,
      m ∈ t.followingElements n ∧ t.acceptsSibling settings (Selector.parse sub) m = true := by
  unfold siblingsOf
  dsimp only
  rw [NodeSet.mem_ofList, List.mem_flatMap]
  simp only [generalSiblings, List.mem_filter]

end Tree

end TreeQuery
