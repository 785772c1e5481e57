import TreeQuery.Proofs.Commas
import TreeQuery.Proofs.Traversal

/-!
# Text between quotes

White space is removed from the text of a selector before it is cut into tokens, and so also between
quotes: what is read there is the quoted text with one space for each run of blanks, and none beside
`>`, `+` and `~` (`squeezed`). Nothing else happens to it, whatever commas, equals signs and
combinators it holds: the test of an attribute and the argument of a pseudo-class get all of what is
read (`parse_attribute`, `parse_contains`), and a search from the document node finds the elements
whose attribute has that value (`meets_find_attribute`). So a quoted text arrives as it is written
exactly if it is neat (`quoted_text_iff`).
-/

namespace TreeQuery

namespace Selector

variable {front back cs : List Char} {name value : String} {c : Char}

/-! ## White space between quotes -/

/-- What is read of a text between quotes. -/
def squeezed (value : String) : String :=
  String.ofList (squeeze false false value.toList)

/-- All of a text is read exactly if it is neat. -/
theorem squeezed_eq_iff : squeezed value = value ↔ Neat value.toList := by
  constructor
  · intro heq
    have hneat := neat_squeeze false false value.toList
    rwa [← String.toList_ofList (l := squeeze false false value.toList), ← squeezed, heq] at hneat
  · intro hneat
    rw [squeezed, squeeze_of_neat hneat, String.ofList_toList]

/-- Squeezing writes no character that is not in the text, but for spaces. -/
theorem mem_of_mem_squeeze {tight pending : Bool} (hc : c ∈ squeeze tight pending cs) :
    c = ' ' ∨ c ∈ cs := by
  induction cs generalizing tight pending with
  -- At the end, a blank that is pending may become a space.
  | nil =>
    rw [squeeze] at hc
    split_ifs at hc
    · exact .inl (List.mem_singleton.mp hc)
    · cases hc
  | cons d cs ih =>
    have hlater : ∀ tight pending, c ∈ squeeze tight pending cs → c = ' ' ∨ c ∈ d :: cs :=
      fun tight pending hmem => (ih hmem).imp_right (List.mem_cons_of_mem d)
    cases hblank : Text.isBlank d with
    | true =>
      rw [squeeze_blank hblank] at hc
      exact hlater _ _ hc
    | false =>
      -- A character that is not blank is written, perhaps with a space in front of it.
      rw [squeeze_cons hblank, List.mem_append, List.mem_cons] at hc
      obtain hspace | rfl | hmem := hc
      · split_ifs at hspace
        · exact .inl (List.mem_singleton.mp hspace)
        · cases hspace
      · exact .inr List.mem_cons_self
      · exact hlater _ _ hmem

/-- Plain characters in front of a text stay, and so does the white space behind them. -/
theorem squeeze_plain_append (hfront : ∀ c ∈ front, Plain c) (rest : List Char) :
    squeeze false false (front ++ rest) = front ++ squeeze false false rest := by
  induction front with
  | nil => rfl
  | cons c front ih =>
    obtain ⟨hc, hfront⟩ := List.forall_mem_cons.mp hfront
    have hcons := squeeze_append_plain hc [] (front ++ rest) false false
    rw [List.cons_append]
    exact hcons.trans (congrArg (c :: ·) (ih hfront))

/-- Between plain characters a text is squeezed as if it were alone. -/
theorem normalize_between (hfront : ∀ c ∈ front, Plain c) (hback : ∀ c ∈ back, Plain c)
    (hne : front ≠ []) (hne' : back ≠ []) (cs : List Char) :
    normalize (front ++ (cs ++ back)) = front ++ (squeeze false false cs ++ back) := by
  obtain ⟨c, back, rfl⟩ := List.exists_cons_of_ne_nil hne'
  obtain ⟨hc, hrest⟩ := List.forall_mem_cons.mp hback
  have hsqueeze : squeeze false false (cs ++ c :: back) = squeeze false false cs ++ c :: back := by
    rw [squeeze_append_plain hc, squeeze_of_neat (neat_of_not_blank fun d hd => (hrest d hd).1)]
  unfold normalize
  rw [squeeze_plain_append hfront, hsqueeze]
  -- A plain character stands at either end.
  refine Text.trim_eq_self (fun d hd => ?_) fun d hd => ?_
  · rw [List.head?_append_of_ne_nil _ hne] at hd
    exact (hfront d (List.mem_of_head? hd)).1
  · rw [← List.append_assoc, List.getLast?_append_of_ne_nil _ (List.cons_ne_nil _ _)] at hd
    exact (hback d (List.mem_of_getLast? hd)).1

/-! ## Reading -/

/-- A text without marks has no marks that could belong to others. -/
theorem nested_of_forall {opening closing : Char} (h : ∀ c ∈ cs, c ≠ opening ∧ c ≠ closing) :
    Nested opening closing 0 cs := by
  rw [← nested_filter, List.filter_eq_nil_iff.mpr]
  · exact rfl
  · intro c hc
    simp [h c hc]

/-- No character of a word asks for another comparison than for equality. -/
theorem ofMarker?_eq_none (hc : isWordChar c = true) : Comparison.ofMarker? c = none := by
  unfold Comparison.ofMarker?
  split
  case h_6 => rfl
  all_goals exact absurd hc (by decide)

/-- What is written between the brackets of a test for a value. -/
theorem inner_equal (name value : String) :
    (AttributeTest.mk name .equal value).inner =
      name.toList ++ '=' :: '"' :: (value.toList ++ ['"']) := by
  simp [AttributeTest.inner, Comparison.symbol]

/-- The test for a value is read back from its own text if the name is a word. -/
theorem attributeTest_inner_equal (hname : ∀ c ∈ name.toList, isWordChar c = true)
    (value : String) :
    attributeTest (AttributeTest.mk name .equal value).inner = ⟨name, .equal, value⟩ := by
  have hplain : ∀ c ∈ name.toList, Text.isBlank c = false := fun c hc =>
    isBlank_eq_false_of_isWordChar (hname c hc)
  have htrim : Text.trim name.toList = name.toList :=
    Text.trim_eq_self (fun c hc => hplain c (List.mem_of_head? hc)) fun c hc =>
      hplain c (List.mem_of_getLast? hc)
  have hequals : '=' ∉ name.toList := fun hmem => absurd (hname _ hmem) (by decide)
  rw [inner_equal, attributeTest_equal hequals, htrim, trim_quoted, Text.unquote_quoted,
    String.ofList_toList, String.ofList_toList]
  rw [htrim]
  exact fun c hc => ofMarker?_eq_none (hname c (List.mem_of_getLast? hc))

/-- A text without the marks that open and close. -/
def Unmarked (opening closing : Char) (value : String) : Prop :=
  ∀ c ∈ value.toList, c ≠ opening ∧ c ≠ closing

/-- Squeezing puts no mark into a text. -/
theorem Unmarked.squeezed {opening closing : Char} (h : Unmarked opening closing value)
    (hopening : opening ≠ ' ') (hclosing : closing ≠ ' ') :
    Unmarked opening closing (squeezed value) := by
  intro c hc
  rw [Selector.squeezed, String.toList_ofList] at hc
  obtain rfl | hc := mem_of_mem_squeeze hc
  · exact ⟨hopening.symm, hclosing.symm⟩
  · exact h c hc

/-- A test for a quoted value can be read back from its text. -/
theorem readable_attr (hname : ∀ c ∈ name.toList, isWordChar c = true)
    (hvalue : Unmarked '[' ']' value) : (Token.attr ⟨name, .equal, value⟩).Readable := by
  refine ⟨attributeTest_inner_equal hname value, nested_of_forall fun c hc => ?_⟩
  rw [inner_equal, List.mem_append, List.mem_cons, List.mem_cons, List.mem_append,
    List.mem_singleton] at hc
  obtain hc | rfl | rfl | hc | rfl := hc
  · constructor <;>
    · rintro rfl
      exact absurd (hname _ hc) (by decide)
  · decide
  · decide
  · exact hvalue c hc
  · decide

/-- A test for a quoted value is read as one group with that test. -/
theorem parse_attribute (hname : ∀ c ∈ name.toList, isWordChar c = true)
    (hvalue : Unmarked '[' ']' value) :
    parse ("[" ++ name ++ "=\"" ++ value ++ "\"]") =
      ⟨[[.descendant, .attr ⟨name, .equal, squeezed value⟩]]⟩ := by
  -- The text is the value with marks on both sides, which squeezing leaves as they are.
  have htext : ("[" ++ name ++ "=\"" ++ value ++ "\"]").toList =
      ('[' :: (name.toList ++ ['=', '"'])) ++ (value.toList ++ ['"', ']']) := by simp
  have hfront : ∀ c ∈ '[' :: (name.toList ++ ['=', '"']), Plain c := by
    have hmarks : ∀ c ∈ ['=', '"'], Plain c := forall_mem_of_all (by decide)
    exact List.forall_mem_cons.mpr ⟨⟨rfl, rfl⟩, List.forall_mem_append.mpr
      ⟨fun c hc => plain_of_isWordChar (hname c hc), hmarks⟩⟩
  have hback : ∀ c ∈ ['"', ']'], Plain c := forall_mem_of_all (by decide)
  -- So the value alone is squeezed, and the text is that of one token.
  have hchars : ('[' :: (name.toList ++ ['=', '"'])) ++
      (squeeze false false value.toList ++ ['"', ']']) =
        (Token.attr ⟨name, .equal, squeezed value⟩).chars := by
    simp [Token.chars, inner_equal, squeezed]
  have hread := readable_attr hname (hvalue.squeezed (by decide) (by decide))
  unfold parse
  rw [htext, normalize_between hfront hback (List.cons_ne_nil _ _) (List.cons_ne_nil _ _), hchars,
    lexemes_chars_self _ hread trivial]
  rfl

/-- The quotes around the argument of a pseudo-class do not belong to it. -/
theorem argumentOf_quoted (value : String) :
    PseudoClass.argumentOf (some ("\"" ++ value ++ "\"")) = value.toList := by
  have htext : ("\"" ++ value ++ "\"").toList = '"' :: (value.toList ++ ['"']) := by simp
  change Text.unquote (Text.trim ("\"" ++ value ++ "\"").toList) = _
  rw [htext, trim_quoted, Text.unquote_quoted]

/-- A pseudo-class with a quoted argument is read as one group that it filters. -/
theorem parse_contains (hvalue : Unmarked '(' ')' value) :
    parse ("*:contains(\"" ++ value ++ "\")") =
      ⟨[[.descendant, .tag "*",
        .pseudoClass "contains" (some ("\"" ++ squeezed value ++ "\""))]]⟩ := by
  -- As above, with the pseudo-class behind `*`.
  have htext : ("*:contains(\"" ++ value ++ "\")").toList =
      "*:contains(\"".toList ++ (value.toList ++ ['"', ')']) := by simp
  have hfront : ∀ c ∈ "*:contains(\"".toList, Plain c := forall_mem_of_all (by decide)
  have hback : ∀ c ∈ ['"', ')'], Plain c := forall_mem_of_all (by decide)
  have hchars : "*:contains(\"".toList ++ (squeeze false false value.toList ++ ['"', ')']) =
      (Token.tag "*").chars ++
        (Token.pseudoClass "contains" (some ("\"" ++ squeezed value ++ "\""))).chars := by
    simp [Token.chars, squeezed]
  have htag : (Token.tag "*").Readable := ⟨by decide, forall_mem_of_all (by decide)⟩
  -- The argument has no parenthesis in it, so the one that closes it is its own.
  have hpseudo : (Token.pseudoClass "contains"
      (some ("\"" ++ squeezed value ++ "\""))).Readable := by
    refine ⟨forall_mem_of_all (by decide), fun text htext => nested_of_forall fun c hc => ?_⟩
    have hargument : text.toList = '"' :: ((squeezed value).toList ++ ['"']) := by
      rw [← Option.some.inj htext]
      simp
    rw [hargument, List.mem_cons, List.mem_append, List.mem_singleton] at hc
    obtain rfl | hc | rfl := hc
    · decide
    · exact hvalue.squeezed (by decide) (by decide) c hc
    · decide
  -- The run of `*` ends at the colon.
  have hstop : (Token.tag "*").StopsAt (Token.pseudoClass "contains"
      (some ("\"" ++ squeezed value ++ "\""))).chars.head? :=
    fun c hc => Option.some.inj hc ▸ rfl
  unfold parse
  rw [htext, normalize_between hfront hback (by decide) (List.cons_ne_nil _ _), hchars,
    lexemes_chars _ htag hstop, lexemes_chars_self _ hpseudo trivial]
  rfl

end Selector

/-! ## Searching -/

namespace Query

variable {t : Tree}

/-- A search from the document node for a value of an attribute finds the elements below it that
have the value. -/
theorem meets_find_attribute (h : t.WellFormed) (settings : Settings) (name value : String) :
    Meets t (find settings ⟨[[.descendant, .attr ⟨name, .equal, value⟩]]⟩ [.document])
      (fun found => found.Nodup ∧
        ∀ e, e ∈ found ↔ t.Above .document e ∧ t.attribute? e name = some value) Never := by
  -- A path can say that an attribute has a value, so the test becomes a predicate of a step.
  have hadd : (Draft.add settings ⟨[], some .descendant⟩
      (SimpleTest.attr ⟨name, .equal, value⟩).token).1 = .structural := rfl
  refine (meets_find_test h hadd).weaken ?_ fun _ he => he
  rintro found ⟨hnodup, hfound⟩
  refine ⟨hnodup, fun e => (hfound e).trans (and_congr_right fun _ => ?_)⟩
  rw [SimpleTest.holds_equal_iff]
  exact and_iff_right_of_imp fun hvalue =>
    SimpleTest.isElement_of_hasAttribute (Option.isSome_iff_exists.mpr ⟨value, hvalue⟩)

/-- A quoted text reaches the test of an attribute, the argument of `:contains` and what a search
finds as it is read, and it is read as it is written exactly if it is neat. -/
theorem quoted_text_iff {name value : String}
    (hname : ∀ c ∈ name.toList, Selector.isWordChar c = true)
    (hbrackets : Selector.Unmarked '[' ']' value)
    (hparentheses : Selector.Unmarked '(' ')' value) :
    let test := "[" ++ name ++ "=\"" ++ value ++ "\"]"
    Selector.parse test = ⟨[[.descendant, .attr ⟨name, .equal, Selector.squeezed value⟩]]⟩ ∧
      (∃ argument, Selector.parse ("*:contains(\"" ++ value ++ "\")") =
          ⟨[[.descendant, .tag "*", .pseudoClass "contains" (some argument)]]⟩ ∧
        PseudoClass.argumentOf (some argument) = (Selector.squeezed value).toList) ∧
      (∀ (settings : Settings) (s : Session), s.tree.WellFormed →
        ∃ found s', find settings (Selector.parse test) [.document] s = .ok found s' ∧ found.Nodup ∧
          ∀ e, e ∈ found ↔
            s.tree.Above .document e ∧ s.tree.attribute? e name = some (Selector.squeezed value)) ∧
      (Selector.squeezed value = value ↔ Selector.Neat value.toList) := by
  have hparse := Selector.parse_attribute hname hbrackets
  refine ⟨hparse, ⟨_, Selector.parse_contains hparentheses, Selector.argumentOf_quoted _⟩,
    fun settings s h => ?_, Selector.squeezed_eq_iff⟩
  rw [hparse]
  obtain ⟨found, s', hok, -, hfound⟩ :=
    (meets_find_attribute h settings name (Selector.squeezed value)).exists_ok rfl
  exact ⟨found, s', hok, hfound⟩

/-- For one, a title with a comma, an equals sign and single spaces is read as it is written. -/
theorem quoted_text_iff_title :
    (∀ c ∈ "title".toList, Selector.isWordChar c = true) ∧
      Selector.Unmarked '[' ']' "one, two = 2" ∧ Selector.Unmarked '(' ')' "one, two = 2" ∧
      Selector.parse "[title=\"one, two = 2\"]" =
        ⟨[[.descendant, .attr ⟨"title", .equal, "one, two = 2"⟩]]⟩ ∧
      Selector.Neat "one, two = 2".toList := by
  have hname : ∀ c ∈ "title".toList, Selector.isWordChar c = true :=
    Selector.forall_mem_of_all (by decide)
  have hbrackets : Selector.Unmarked '[' ']' "one, two = 2" :=
    Selector.forall_mem_of_all (by decide)
  have hparentheses : Selector.Unmarked '(' ')' "one, two = 2" :=
    Selector.forall_mem_of_all (by decide)
  have htext : "[title=\"one, two = 2\"]" =
      "[" ++ "title" ++ "=\"" ++ "one, two = 2" ++ "\"]" := by decide
  have hread : Selector.squeezed "one, two = 2" = "one, two = 2" := by decide
  obtain ⟨hparse, -, -, hneat⟩ := quoted_text_iff hname hbrackets hparentheses
  rw [hread, ← htext] at hparse
  exact ⟨hname, hbrackets, hparentheses, hparse, hneat.mp hread⟩

/-- A quoted `>` is read without the spaces beside it, and so the test asks for another value than
the one that is written. -/
theorem quoted_text_not_verbatim :
    Selector.parse "[title=\"a > b\"]" = ⟨[[.descendant, .attr ⟨"title", .equal, "a>b"⟩]]⟩ ∧
      Selector.parse "[title=\"a > b\"]" ≠
        ⟨[[.descendant, .attr ⟨"title", .equal, "a > b"⟩]]⟩ := by
  have htext : "[title=\"a > b\"]" = "[" ++ "title" ++ "=\"" ++ "a > b" ++ "\"]" := by decide
  have hname : ∀ c ∈ "title".toList, Selector.isWordChar c = true :=
    Selector.forall_mem_of_all (by decide)
  have hbrackets : Selector.Unmarked '[' ']' "a > b" :=
    Selector.forall_mem_of_all (by decide)
  have hread : Selector.squeezed "a > b" = "a>b" := by decide
  have hparse : Selector.parse "[title=\"a > b\"]" =
      ⟨[[.descendant, .attr ⟨"title", .equal, "a>b"⟩]]⟩ := by
    rw [htext, Selector.parse_attribute hname hbrackets, hread]
  refine ⟨hparse, fun hwritten => ?_⟩
  rw [hparse] at hwritten
  revert hwritten
  decide

end Query

end TreeQuery
