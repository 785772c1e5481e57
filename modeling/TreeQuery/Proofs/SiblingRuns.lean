import TreeQuery.Proofs.RoundTrip
import TreeQuery.Proofs.Traversal

/-!
# Runs behind sibling combinators

Behind `+` and `~` the scan takes off a run of characters before it goes on as anywhere else, and
the run is read as a selector of its own. Of a compound the run is the type selector and the classes
right behind it, if there are any, and what follows is read as the other tests
(`exists_sub_of_not_cut`). A bar does not belong to the run, although it belongs to type selectors:
a type selector with a bar behind its first character is cut in front of the bar, into a type
selector without a qualifier and one with an empty one (`Cut`, `exists_sub_of_cut`).
-/

namespace TreeQuery

variable {tests : List SimpleTest}

/-- Whether a test is a type selector. -/
def SimpleTest.isTag : SimpleTest → Bool
  | tag _ _ => true
  | id _ | classes _ | attr _ => false

/-- A type selector stands at the start of the tests or nowhere. -/
def TagFirst (tests : List SimpleTest) : Prop :=
  ∀ test ∈ tests.tail, test.isTag = false

/-- The tests behind the first one have none. -/
theorem TagFirst.tail {test : SimpleTest} (h : TagFirst (test :: tests)) : TagFirst tests :=
  fun other hother => h other (List.mem_of_mem_tail hother)

namespace Selector

variable {cs : List Char} {c : Char} {parts : List Lexeme}

/-! ## The run behind a sibling combinator -/

/-- The token that is read first is that of the first test. -/
theorem exists_test_of_split {token : Token}
    (h : split (.token token :: parts) = [tests.map (·.token)]) :
    ∃ test others, tests = test :: others ∧ test.token = token ∧
      split parts = [others.map (·.token)] := by
  obtain ⟨group, groups, hparts⟩ := exists_split parts
  rw [split_token hparts] at h
  obtain ⟨hgroup, rfl⟩ := List.cons.inj h
  cases tests with
  | nil => cases hgroup
  | cons test others =>
    obtain ⟨htoken, hothers⟩ := List.cons.inj hgroup
    exact ⟨test, others, rfl, htoken.symm, by rw [hparts, hothers]⟩

/-- A run of characters of type selectors is read as one token. -/
theorem lexemes_tagRun (hne : cs.takeWhile isTagChar ≠ []) :
    lexemes cs = .token (.tag (String.ofList (cs.takeWhile isTagChar))) ::
      lexemes (cs.dropWhile isTagChar) := by
  have hread : (Token.tag (String.ofList (cs.takeWhile isTagChar))).Readable := by
    refine ⟨by rwa [String.toList_ofList], fun c hc => ?_⟩
    rw [String.toList_ofList] at hc
    exact List.mem_takeWhile_imp hc
  have hlexemes := lexemes_chars _ hread (head?_dropWhile cs)
  rwa [Token.chars, String.toList_ofList, List.takeWhile_append_dropWhile] at hlexemes

/-- The first test of a text that starts with a type selector. -/
theorem exists_tag_of_split (hsplit : split (lexemes cs) = [tests.map (·.token)])
    (hne : cs.takeWhile isTagChar ≠ []) :
    ∃ (valid : isTypeSelector (String.ofList (cs.takeWhile isTagChar)) = true) (others : _),
      tests = .tag _ valid :: others ∧
        split (lexemes (cs.dropWhile isTagChar)) = [others.map (·.token)] := by
  rw [lexemes_tagRun hne] at hsplit
  obtain ⟨test, others, rfl, htoken, hothers⟩ := exists_test_of_split hsplit
  cases test with
  | tag name valid =>
    obtain rfl := Token.tag.inj htoken
    exact ⟨valid, others, rfl, hothers⟩
  | _ => cases htoken

/-- A run of characters of classes is read as one token. -/
theorem lexemes_classRun (cs : List Char) :
    lexemes ('.' :: cs) = .token (.classes (String.ofList (cs.takeWhile isClassChar))) ::
      lexemes (cs.dropWhile isClassChar) := by
  have hread : (Token.classes (String.ofList (cs.takeWhile isClassChar))).Readable := by
    intro c hc
    rw [String.toList_ofList] at hc
    exact List.mem_takeWhile_imp hc
  have hlexemes := lexemes_chars _ hread (head?_dropWhile cs)
  rwa [Token.chars, String.toList_ofList, List.cons_append,
    List.takeWhile_append_dropWhile] at hlexemes

/-- The first test of a text that starts with classes. -/
theorem exists_classes_of_split (hsplit : split (lexemes ('.' :: cs)) = [tests.map (·.token)]) :
    ∃ others, tests = .classes (String.ofList (cs.takeWhile isClassChar)) :: others ∧
      split (lexemes (cs.dropWhile isClassChar)) = [others.map (·.token)] := by
  rw [lexemes_classRun] at hsplit
  obtain ⟨test, others, rfl, htoken, hothers⟩ := exists_test_of_split hsplit
  cases test with
  | classes names =>
    obtain rfl := Token.classes.inj htoken
    exact ⟨others, rfl, hothers⟩
  | _ => cases htoken

/-- A character that starts neither a type selector nor classes is not one of the run. -/
theorem isSiblingChar_eq_false (htag : isTagChar c = false) (hpoint : c ≠ '.') :
    isSiblingChar c = false := by
  unfold isTagChar at htag
  unfold isSiblingChar isClassChar
  simp_all

/-- The run ends with the classes in it if no type selector follows: a star would go on with the
run, but it would be read as a type selector. -/
theorem isSiblingChar_behind_classes (hsplit : split (lexemes cs) = [tests.map (·.token)])
    (htests : ∀ test ∈ tests, test.isTag = false) (hclass : ∀ c ∈ cs.head?, isClassChar c = false) :
    ∀ c ∈ cs.head?, isSiblingChar c = false := by
  intro c hc
  obtain ⟨ds, rfl⟩ := List.head?_eq_some_iff.mp hc
  by_contra hsibling
  -- Of the characters of a run, only the star is none of a class.
  have hstar : c = '*' := by
    unfold isSiblingChar at hsibling
    rw [hclass c hc] at hsibling
    simpa using hsibling
  subst hstar
  -- So a type selector would start with it.
  have hne : ('*' :: ds).takeWhile isTagChar ≠ [] := by
    rw [List.takeWhile_cons_of_pos rfl]
    exact List.cons_ne_nil _ _
  obtain ⟨valid, others, rfl, -⟩ := exists_tag_of_split hsplit hne
  cases htests _ List.mem_cons_self

/-- Where no type selector starts, the run is the classes that are read there. -/
theorem exists_classRun (hsplit : split (lexemes cs) = [tests.map (·.token)])
    (hfirst : TagFirst tests) (hhead : ∀ c ∈ cs.head?, isTagChar c = false) :
    ∃ (classes? : Option ClassRun) (others : List SimpleTest),
      cs.takeWhile isSiblingChar = SiblingTest.classChars ⟨none, classes?⟩ ∧
        tests = SiblingTest.tests ⟨none, classes?⟩ ++ others ∧
        split (lexemes (cs.dropWhile isSiblingChar)) = [others.map (·.token)] := by
  -- A point starts the classes, and their run goes on as far as they do.
  by_cases hpoint : cs.head? = some '.'
  · obtain ⟨ds, rfl⟩ := List.head?_eq_some_iff.mp hpoint
    obtain ⟨others, rfl, hothers⟩ := exists_classes_of_split hsplit
    have hnames : ∀ c ∈ (String.ofList (ds.takeWhile isClassChar)).toList,
        isClassChar c = true := by
      rw [String.toList_ofList]
      exact fun c hc => List.mem_takeWhile_imp hc
    have hrun : ∀ c ∈ '.' :: ds.takeWhile isClassChar, isSiblingChar c = true := by
      refine List.forall_mem_cons.mpr ⟨rfl, fun c hc => ?_⟩
      unfold isSiblingChar
      rw [List.mem_takeWhile_imp hc]
      rfl
    have hstop := isSiblingChar_behind_classes hothers hfirst (head?_dropWhile ds)
    have hparts : '.' :: ds = ('.' :: ds.takeWhile isClassChar) ++ ds.dropWhile isClassChar := by
      rw [List.cons_append, List.takeWhile_append_dropWhile]
    refine ⟨some ⟨_, hnames⟩, others, ?_, rfl, ?_⟩
    · rw [hparts, takeWhile_run hrun hstop]
      simp [SiblingTest.classChars]
    · rw [hparts, dropWhile_run hrun hstop]
      exact hothers
  · -- Then the run has no characters.
    have hstop : ∀ c ∈ cs.head?, isSiblingChar c = false := fun c hc =>
      isSiblingChar_eq_false (hhead c hc) fun hc' => hpoint (hc' ▸ hc)
    have hnone : ∀ c ∈ ([] : List Char), isSiblingChar c = true := List.forall_mem_nil _
    have htake := takeWhile_run hnone hstop
    have hdrop := dropWhile_run hnone hstop
    rw [List.nil_append] at htake hdrop
    refine ⟨none, tests, htake, rfl, ?_⟩
    rw [hdrop]
    exact hsplit

/-! ## Type selectors with a bar -/

/-- The characters of a type selector other than `*`. -/
theorem isTypeSelector_iff {name : String} (hstar : '*' ∉ name.toList) :
    isTypeSelector name = true ↔
      name ≠ "" ∧ ∀ c ∈ name.toList, isWordChar c = true ∨ c = '|' ∨ c = '-' := by
  have hne : name ≠ "*" := by
    rintro rfl
    exact hstar (by decide)
  unfold isTypeSelector
  simp [hne, or_assoc]

/-- A type selector with a bar has no star. -/
theorem star_not_mem {name : String} (valid : isTypeSelector name = true)
    (hbar : '|' ∈ name.toList) : '*' ∉ name.toList := by
  intro hstar
  unfold isTypeSelector at valid
  rw [Bool.or_eq_true, Bool.and_eq_true, beq_iff_eq, List.all_eq_true] at valid
  obtain rfl | ⟨-, hall⟩ := valid
  · revert hbar
    decide
  · exact absurd (hall '*' hstar) (by decide)

/-- The parts of a type selector with a bar are type selectors, the second one with the bar. -/
theorem isTypeSelector_parts {qualifier localName : String}
    (valid : isTypeSelector (qualifier ++ "|" ++ localName) = true) (hne : qualifier ≠ "") :
    '*' ∉ qualifier.toList ∧ isTypeSelector qualifier = true ∧
      isTypeSelector ("|" ++ localName) = true := by
  -- The characters of the whole selector are those of its two parts and the bar.
  have hmem : ∀ c, c ∈ (qualifier ++ "|" ++ localName).toList ↔
      c ∈ qualifier.toList ∨ c = '|' ∨ c ∈ localName.toList := by simp
  have hbarred : ∀ c, c ∈ ("|" ++ localName).toList ↔ c = '|' ∨ c ∈ localName.toList := by simp
  have hstar := star_not_mem valid ((hmem '|').mpr (.inr (.inl rfl)))
  have hchars := ((isTypeSelector_iff hstar).mp valid).2
  rw [hmem, not_or, ← hbarred] at hstar
  refine ⟨hstar.1, ?_, ?_⟩
  -- In front of the bar stands no star, and there are characters.
  · exact (isTypeSelector_iff hstar.1).mpr ⟨hne, fun c hc => hchars c ((hmem c).mpr (.inl hc))⟩
  -- The bar comes first behind it, so that there are characters there too.
  · refine (isTypeSelector_iff hstar.2).mpr ⟨fun hempty => ?_, fun c hc => ?_⟩
    · have hbar := (hbarred '|').mpr (.inl rfl)
      rw [hempty] at hbar
      cases hbar
    · exact hchars c ((hmem c).mpr (.inr ((hbarred c).mp hc)))

/-- A type selector is cut into its parts in front of the first bar and behind it, if that bar is
not its first character. -/
def Cut (cs : List Char) (qualifier localName : String) : Prop :=
  barParts? (String.ofList (cs.takeWhile isTagChar)) = some (qualifier, localName) ∧
    qualifier ≠ ""

/-- The parts of a type selector that is cut, around the first bar. -/
theorem Cut.takeWhile_eq {qualifier localName : String} (h : Cut cs qualifier localName) :
    cs.takeWhile isTagChar = qualifier.toList ++ '|' :: localName.toList ∧
      '|' ∉ qualifier.toList := by
  obtain ⟨⟨front, back⟩, hsplit, hpair⟩ := Option.map_eq_some_iff.mp h.1
  obtain ⟨rfl, rfl⟩ := Prod.mk.inj hpair
  rw [String.toList_ofList] at hsplit
  rw [String.toList_ofList, String.toList_ofList]
  exact Text.eq_of_splitOnce hsplit

/-- Of a type selector that is not cut, a bar is the first character if there is one. -/
theorem head?_of_not_cut (h : ∀ qualifier localName, ¬ Cut cs qualifier localName)
    (hbar : '|' ∈ cs.takeWhile isTagChar) : cs.head? = some '|' := by
  obtain ⟨front, back, hrun, hfront⟩ := List.eq_append_cons_of_mem hbar
  -- What stands in front of the bar would be a qualifier if it had characters.
  have hparts : barParts? (String.ofList (cs.takeWhile isTagChar)) =
      some (String.ofList front, String.ofList back) := by
    unfold barParts?
    rw [String.toList_ofList, hrun, Text.splitOnce_append hfront]
    rfl
  have hempty : String.ofList front = "" := by
    by_contra hne
    exact h _ _ ⟨hparts, hne⟩
  obtain rfl : front = [] := by simpa using congrArg String.toList hempty
  have hcs : cs.takeWhile isTagChar ++ cs.dropWhile isTagChar = cs :=
    List.takeWhile_append_dropWhile
  rw [← hcs, hrun]
  rfl

/-- The run behind a sibling combinator is the type selector and the classes right behind it, unless
the type selector is cut. -/
theorem exists_sub_of_not_cut (hsplit : split (lexemes cs) = [tests.map (·.token)])
    (hfirst : TagFirst tests) (hcut : ∀ qualifier localName, ¬ Cut cs qualifier localName) :
    ∃ (sub : SiblingTest) (others : List SimpleTest),
      cs.takeWhile isSiblingChar = sub.text.toList ∧ tests = sub.tests ++ others ∧
        split (lexemes (cs.dropWhile isSiblingChar)) = [others.map (·.token)] := by
  by_cases hne : cs.takeWhile isTagChar = []
  · -- There is no type selector.
    have hhead : ∀ c ∈ cs.head?, isTagChar c = false := by
      intro c hc
      obtain ⟨ds, rfl⟩ := List.head?_eq_some_iff.mp hc
      by_contra htag
      rw [List.takeWhile_cons_of_pos (by simpa using htag)] at hne
      cases hne
    obtain ⟨classes?, others, htake, htests, hrest⟩ := exists_classRun hsplit hfirst hhead
    refine ⟨⟨none, classes?⟩, others, ?_, htests, hrest⟩
    rw [htake, SiblingTest.toList_text]
    rfl
  obtain ⟨valid, others, rfl, hothers⟩ := exists_tag_of_split hsplit hne
  by_cases hbar : '|' ∈ cs.takeWhile isTagChar
  · -- The run ends in front of the bar, before it has begun.
    obtain ⟨ds, rfl⟩ := List.head?_eq_some_iff.mp (head?_of_not_cut hcut hbar)
    exact ⟨⟨none, none⟩, _, rfl, rfl, hsplit⟩
  -- The type selector has no bar, so the run goes on with the classes behind it.
  · obtain ⟨classes?, others, htake, rfl, hrest⟩ :=
      exists_classRun hothers hfirst.tail (head?_dropWhile cs)
    have hbar' : '|' ∉ (String.ofList (cs.takeWhile isTagChar)).toList := by
      rwa [String.toList_ofList]
    let tag : PlainTag := ⟨_, valid, hbar'⟩
    have hrun : ∀ c ∈ cs.takeWhile isTagChar, isSiblingChar c = true := by
      have hchars := (SiblingTest.tag_chars tag).2.2
      rwa [String.toList_ofList] at hchars
    have hcs : cs = cs.takeWhile isTagChar ++ cs.dropWhile isTagChar :=
      List.takeWhile_append_dropWhile.symm
    refine ⟨⟨some tag, classes?⟩, others, ?_, rfl, ?_⟩
    · rw [hcs, List.takeWhile_append_of_pos hrun, htake, SiblingTest.toList_text]
      simp [tag, SiblingTest.classChars]
    · rw [hcs, List.dropWhile_append_of_pos hrun]
      exact hrest

/-- Of a type selector that is cut, the run is the part in front of the bar, and what is read behind
it is the bar and the part behind. -/
theorem exists_sub_of_cut {qualifier localName : String}
    (hsplit : split (lexemes cs) = [tests.map (·.token)]) (hcut : Cut cs qualifier localName) :
    ∃ (hlocal : isTypeSelector ("|" ++ localName) = true)
      (whole : isTypeSelector (qualifier ++ "|" ++ localName) = true) (others : List SimpleTest),
      tests = .tag (qualifier ++ "|" ++ localName) whole :: others ∧
        cs.takeWhile isSiblingChar = qualifier.toList ∧
        split (lexemes (cs.dropWhile isSiblingChar)) =
          [(SimpleTest.tag ("|" ++ localName) hlocal :: others).map (·.token)] := by
  obtain ⟨hrun, hbar⟩ := hcut.takeWhile_eq
  have hne : cs.takeWhile isTagChar ≠ [] := by
    rw [hrun]
    exact List.append_ne_nil_of_right_ne_nil _ (List.cons_ne_nil _ _)
  obtain ⟨whole, others, rfl, hothers⟩ := exists_tag_of_split hsplit hne
  have hname : String.ofList (cs.takeWhile isTagChar) = qualifier ++ "|" ++ localName :=
    String.toList_injective (by simp [hrun])
  have whole' : isTypeSelector (qualifier ++ "|" ++ localName) = true := hname ▸ whole
  obtain ⟨-, hqualifier, hlocal⟩ := isTypeSelector_parts whole' hcut.2
  -- The run ends in front of the bar.
  have hcs : cs = qualifier.toList ++ '|' :: (localName.toList ++ cs.dropWhile isTagChar) := by
    conv_lhs => rw [← List.takeWhile_append_dropWhile (p := isTagChar) (l := cs), hrun]
    rw [List.append_assoc, List.cons_append]
  have hsibling : ∀ c ∈ qualifier.toList, isSiblingChar c = true :=
    (SiblingTest.tag_chars ⟨qualifier, hqualifier, hbar⟩).2.2
  have hstop : ∀ c ∈ ('|' :: (localName.toList ++ cs.dropWhile isTagChar)).head?,
      isSiblingChar c = false := fun c hc => Option.some.inj hc ▸ rfl
  -- The bar is read with what stands behind it.
  have hchars : (Token.tag ("|" ++ localName)).chars ++ cs.dropWhile isTagChar =
      '|' :: (localName.toList ++ cs.dropWhile isTagChar) := by
    simp [Token.chars]
  have hread : (Token.tag ("|" ++ localName)).Readable := by
    have hlist : ("|" ++ localName).toList = '|' :: localName.toList := by simp
    rw [Token.Readable, hlist]
    refine ⟨List.cons_ne_nil _ _, fun c hc => List.mem_takeWhile_imp (l := cs) ?_⟩
    rw [hrun]
    exact List.mem_append_right _ hc
  have hlexemes := lexemes_chars _ hread (head?_dropWhile cs)
  rw [hchars] at hlexemes
  refine ⟨hlocal, whole', others, ?_, ?_, ?_⟩
  · congr 1
    congr 1
  · rw [hcs, takeWhile_run hsibling hstop]
  · conv_lhs => rw [hcs, dropWhile_run hsibling hstop, hlexemes]
    exact split_token hothers

/-! ## The text of the whole selector -/

/-- White space around a tight combinator behind a star says nothing. -/
theorem normalize_star (hc : isTight c = true) (cs : List Char) :
    normalize ('*' :: ' ' :: c :: ' ' :: cs) = '*' :: c :: normalize cs := by
  have hblank := isBlank_eq_false_of_isTight hc
  have hstar : Text.isBlank '*' = false := rfl
  -- The space in front of the combinator is dropped, for the combinator is tight.
  have hsqueeze : squeeze false false ('*' :: ' ' :: c :: ' ' :: cs) =
      '*' :: squeeze false false (c :: ' ' :: cs) := by
    rw [squeeze_cons hstar, Bool.false_and, Bool.false_and, if_neg Bool.false_ne_true,
      List.nil_append]
    exact congrArg ('*' :: ·) (squeeze_space_tight hc false false (' ' :: cs))
  -- Nothing is trimmed in front of it, and none in front of the star.
  have hstart : Text.trimStart (squeeze false false (c :: ' ' :: cs)) =
      squeeze false false (c :: ' ' :: cs) := by
    rw [squeeze_cons hblank, Bool.false_and, Bool.false_and, if_neg Bool.false_ne_true,
      List.nil_append]
    exact Text.trimStart_eq_self fun d hd => Option.some.inj hd ▸ hblank
  have hfront : ∀ ds, Text.trimStart ('*' :: ds) = '*' :: ds := fun ds =>
    Text.trimStart_eq_self fun d hd => Option.some.inj hd ▸ hstar
  -- The space behind the combinator is dropped as well.
  have hbehind := normalize_cons_space hc cs
  unfold normalize at hbehind ⊢
  rw [Text.trim, hstart] at hbehind
  rw [hsqueeze, Text.trim, hfront, Text.trimEnd_cons hstar, hbehind]

/-- Behind a star and a sibling combinator, a text is read as a run and what follows it. -/
theorem parse_star {selector : String} {sub : SiblingTest} (hc : isTight c = true)
    (htag : isTagChar c = false) (make : String → Token)
    (hmake : ∀ cs, lexeme c cs = (.token (make (siblingTest cs).1), (siblingTest cs).2))
    (htake : (normalize selector.toList).takeWhile isSiblingChar = sub.text.toList)
    (hrest : split (lexemes ((normalize selector.toList).dropWhile isSiblingChar)) =
      [tests.map (·.token)]) :
    parse (String.ofList ['*', ' ', c, ' '] ++ selector) =
      ⟨[.descendant :: .tag "*" :: make sub.text :: tests.map (·.token)]⟩ := by
  have htext : (String.ofList ['*', ' ', c, ' '] ++ selector).toList =
      '*' :: ' ' :: c :: ' ' :: selector.toList := by simp
  -- No space is left in front of the run.
  have hspaces : (normalize selector.toList).dropWhile (· == ' ') = normalize selector.toList := by
    have hnone : ∀ d ∈ ([] : List Char), (d == ' ') = true := fun d hd => nomatch hd
    refine dropWhile_run hnone fun d hd => beq_eq_false_iff_ne.mpr ?_
    rintro rfl
    exact Bool.false_ne_true (Text.head?_trim _ ' ' hd).symm
  have hsibling : siblingTest (normalize selector.toList) =
      (sub.text, (normalize selector.toList).dropWhile isSiblingChar) := by
    unfold siblingTest
    simp only [hspaces, htake, String.ofList_toList]
  have hstar : lexemes ('*' :: c :: normalize selector.toList) =
      .token (.tag "*") :: lexemes (c :: normalize selector.toList) :=
    lexemes_chars (.tag "*") ⟨by decide, forall_mem_of_all (by decide)⟩ fun d hd =>
      Option.some.inj hd ▸ htag
  have hmade := hmake (normalize selector.toList)
  rw [hsibling] at hmade
  unfold parse
  rw [htext, normalize_star hc, hstar, lexemes_of_lexeme hmade,
    split_token (split_token hrest)]
  rfl

end Selector

end TreeQuery
