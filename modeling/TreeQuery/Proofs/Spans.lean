import Mathlib.Data.List.TakeWhile
import TreeQuery.Proofs.Spacing

/-!
# Brackets and what stands between them

A span reaches from an opening mark to the closing one that belongs to it. `Nested` says that the
marks in a text belong to each other, so that the span of such a text and a closing mark is the text
(`balanced_append`), and the span that a scan takes off is such a text if it is closed at all
(`exists_nested`). Only the marks count (`nested_congr`): the test that stands between brackets may
be written in another way and is read back as the same test (`attributeTest_inner`).
-/

namespace TreeQuery

/-! ## Quotes -/

namespace Text

variable {cs inner : List Char} {mark : Char}

/-- What stands between two quotes of one kind. -/
theorem between?_eq_some_iff : between? mark cs = some inner ↔ cs = mark :: (inner ++ [mark]) := by
  cases cs with
  | nil => exact iff_of_false (fun h => nomatch h) (fun h => nomatch h)
  | cons c cs =>
    unfold between?
    simp only [Bool.and_eq_true, decide_eq_true_eq, Option.ite_none_right_eq_some,
      Option.some.injEq, List.cons.injEq, and_assoc]
    refine and_congr_right fun _ => ?_
    rw [List.getLast?_eq_some_iff]
    constructor
    · rintro ⟨⟨front, rfl⟩, hinner⟩
      rw [← hinner, List.dropLast_concat]
    · rintro rfl
      exact ⟨⟨inner, rfl⟩, List.dropLast_concat⟩

/-- Double quotes around a value are taken off again. -/
theorem unquote_quoted (value : List Char) : unquote ('"' :: (value ++ ['"'])) = value := by
  unfold unquote
  rw [between?_eq_some_iff.mpr rfl]
  rfl

/-- Taking quotes off leaves the text, or takes off a quote at either end. -/
theorem unquote_cases (cs : List Char) :
    unquote cs = cs ∨
      ∃ mark, (mark = '"' ∨ mark = '\'') ∧ cs = mark :: (unquote cs ++ [mark]) := by
  unfold unquote
  cases hdouble : between? '"' cs with
  | some inner => exact .inr ⟨'"', .inl rfl, between?_eq_some_iff.mp hdouble⟩
  | none =>
    cases hsingle : between? '\'' cs with
    | some inner => exact .inr ⟨'\'', .inr rfl, between?_eq_some_iff.mp hsingle⟩
    | none => exact .inl rfl

/-- What is left without quotes is a part of the text. -/
theorem unquote_isInfix (cs : List Char) : unquote cs <:+: cs := by
  rcases unquote_cases cs with heq | ⟨mark, -, heq⟩
  · exact ⟨[], [], by rw [heq, List.nil_append, List.append_nil]⟩
  · exact ⟨[mark], [mark], heq.symm⟩

/-! ## Marks that trimming leaves -/

section Marks

variable {p : Char → Bool}

/-- Trimming takes blanks away and no other characters. -/
theorem filter_trimStart (hp : ∀ c, isBlank c = true → p c = false) (cs : List Char) :
    (trimStart cs).filter p = cs.filter p := by
  have hfront : (cs.takeWhile isBlank).filter p = [] :=
    List.filter_eq_nil_iff.mpr fun c hc =>
      Bool.eq_false_iff.mp (hp c (List.mem_takeWhile_imp hc))
  calc (trimStart cs).filter p
      = (cs.takeWhile isBlank).filter p ++ (cs.dropWhile isBlank).filter p := by
        rw [hfront]
        rfl
    _ = cs.filter p := by rw [← List.filter_append, List.takeWhile_append_dropWhile]

/-- Leaving out what stands at the end loses no character that is not blank. -/
theorem filter_trimEnd (hp : ∀ c, isBlank c = true → p c = false) (cs : List Char) :
    (trimEnd cs).filter p = cs.filter p := by
  have hreverse := filter_trimStart hp cs.reverse
  unfold trimStart at hreverse
  unfold trimEnd
  rw [List.filter_reverse, hreverse, List.filter_reverse, List.reverse_reverse]

/-- Trimming loses no character that is not blank. -/
theorem filter_trim (hp : ∀ c, isBlank c = true → p c = false) (cs : List Char) :
    (trim cs).filter p = cs.filter p := by
  rw [trim, filter_trimEnd hp, filter_trimStart hp]

/-- Taking quotes off takes no other characters away. -/
theorem filter_unquote (hdouble : p '"' = false) (hsingle : p '\'' = false) (cs : List Char) :
    (unquote cs).filter p = cs.filter p := by
  rcases unquote_cases cs with heq | ⟨mark, hmark, heq⟩
  · rw [heq]
  · have hnot : p mark = false := by
      rcases hmark with rfl | rfl
      · exact hdouble
      · exact hsingle
    have hcs : cs.filter p = (mark :: (unquote cs ++ [mark])).filter p := congrArg _ heq
    rw [hcs, List.filter_cons_of_neg (by simp [hnot]), List.filter_append,
      List.filter_cons_of_neg (by simp [hnot]), List.filter_nil, List.append_nil]

end Marks

end Text

namespace Selector

variable {opening closing : Char} {cs rest inner : List Char} {depth : Nat}

/-! ## Spans -/

/-- Every mark of a text that closes belongs to one before it that opens, where `depth` marks have
been opened in front of the text, and all of these are closed in the end. -/
def Nested (opening closing : Char) : Nat → List Char → Prop
  | depth, [] => depth = 0
  | depth, c :: cs =>
    if c = opening then Nested opening closing (depth + 1) cs
    else if c = closing then 0 < depth ∧ Nested opening closing (depth - 1) cs
    else Nested opening closing depth cs

/-- A mark closes what was opened in front of the text: up to it, more marks close than open. -/
def Closes (opening closing : Char) (depth : Nat) (cs : List Char) : Prop :=
  ∃ front, front <+: cs ∧ depth + front.count opening < front.count closing

/-- The span of a text whose marks belong to each other ends behind the text. -/
theorem balanced_append (hne : opening ≠ closing) (h : Nested opening closing depth inner)
    (rest : List Char) :
    balanced opening closing depth (inner ++ closing :: rest) = (inner, rest) := by
  induction inner generalizing depth with
  | nil =>
    have hdepth : depth = 0 := h
    rw [List.nil_append, balanced, if_neg (Ne.symm hne), if_pos rfl, if_pos hdepth]
  | cons c inner ih =>
    unfold Nested at h
    rw [List.cons_append, balanced]
    split_ifs at h ⊢ with hopening hclosing hdepth
    · rw [ih h]
    · omega
    · rw [ih h.2]
    · rw [ih h]

/-- A closed span is a text whose marks belong to each other, and then the mark that closes it. -/
theorem exists_nested (hne : opening ≠ closing) (depth : Nat)
    (h : Closes opening closing depth cs) :
    ∃ inner rest, cs = inner ++ closing :: rest ∧ Nested opening closing depth inner := by
  obtain ⟨front, hfront, hcount⟩ := h
  -- By induction on the text, with a mark fewer to count at each step: opening marks go one level
  -- deeper, closing ones a level up unless the span ends there.
  induction cs generalizing depth front with
  | nil =>
    rw [List.prefix_nil.mp hfront] at hcount
    exact absurd hcount (Nat.not_lt_zero _)
  | cons c cs ih =>
    cases front with
    | nil => exact absurd hcount (Nat.not_lt_zero _)
    | cons d front =>
      obtain ⟨rfl, htail⟩ := List.cons_prefix_cons.mp hfront
      by_cases hopening : d = opening
      · subst hopening
        rw [List.count_cons_self, List.count_cons_of_ne hne] at hcount
        obtain ⟨inner, rest, rfl, hinner⟩ := ih (depth + 1) front htail (by omega)
        exact ⟨d :: inner, rest, rfl, by rwa [Nested, if_pos rfl]⟩
      · by_cases hclosing : d = closing
        · subst hclosing
          rw [List.count_cons_self, List.count_cons_of_ne hopening] at hcount
          by_cases hdepth : depth = 0
          · exact ⟨[], cs, rfl, hdepth⟩
          · obtain ⟨inner, rest, rfl, hinner⟩ := ih (depth - 1) front htail (by omega)
            refine ⟨d :: inner, rest, rfl, ?_⟩
            rw [Nested, if_neg hopening, if_pos rfl]
            exact ⟨Nat.pos_of_ne_zero hdepth, hinner⟩
        · rw [List.count_cons_of_ne hopening, List.count_cons_of_ne hclosing] at hcount
          obtain ⟨inner, rest, rfl, hinner⟩ := ih depth front htail hcount
          exact ⟨d :: inner, rest, rfl, by rwa [Nested, if_neg hopening, if_neg hclosing]⟩

/-- Whether the marks of a text belong to each other is said by the marks. -/
theorem nested_filter :
    Nested opening closing depth (cs.filter fun c => c == opening || c == closing) ↔
      Nested opening closing depth cs := by
  induction cs generalizing depth with
  | nil => exact Iff.rfl
  | cons c cs ih =>
    rw [List.filter_cons]
    split_ifs with hmark
    · rw [Nested, Nested]
      simp only [ih]
    · simp only [Bool.or_eq_true, beq_iff_eq, not_or] at hmark
      rw [Nested, if_neg hmark.1, if_neg hmark.2, ih]

/-- Texts with the same marks are alike in this. -/
theorem nested_congr {ds : List Char}
    (hmarks : cs.filter (fun c => c == opening || c == closing) =
      ds.filter fun c => c == opening || c == closing) :
    Nested opening closing depth cs ↔ Nested opening closing depth ds := by
  rw [← nested_filter, hmarks, nested_filter]

end Selector

/-! ## Tests between brackets -/

/-- What is written between the brackets of a test. -/
def AttributeTest.inner (test : AttributeTest) : List Char :=
  match test.comparison with
  | .present => test.name.toList
  | comparison =>
    test.name.toList ++ comparison.symbol.toList ++ '"' :: (test.value.toList ++ ['"'])

/-- A test is written as two brackets with the inner text between them. -/
theorem AttributeTest.toList_render (test : AttributeTest) :
    test.render.toList = '[' :: (test.inner ++ [']']) := by
  obtain ⟨name, comparison, value⟩ := test
  cases comparison with
  | _ => simp [render, inner]

/-- What a comparison puts in front of the equals sign is the character that asks for it. -/
theorem Comparison.symbol_of_marker {marker : Char} {comparison : Comparison}
    (h : ofMarker? marker = some comparison) :
    comparison.symbol.toList = [marker, '='] ∧ comparison ≠ .present ∧
      Text.isBlank marker = false := by
  unfold ofMarker? at h
  split at h
  all_goals first
    | exact Option.some.inj h ▸ ⟨rfl, nofun, rfl⟩
    | cases h

namespace Selector

variable {span : List Char}

/-- Without an equals sign a test asks for the presence of an attribute. -/
theorem attributeTest_present (h : '=' ∉ span) :
    attributeTest span = ⟨String.ofList (Text.trim span), .present, ""⟩ := by
  unfold attributeTest
  rw [Text.splitOnce_eq_none_iff.mpr h]

/-- With an equals sign a test asks for a value. -/
theorem attributeTest_equal {front : List Char} (h : '=' ∉ front)
    (hlast : ∀ c ∈ (Text.trim front).getLast?, Comparison.ofMarker? c = none) (back : List Char) :
    attributeTest (front ++ '=' :: back) =
      ⟨String.ofList (Text.trim front), .equal, String.ofList (Text.unquote (Text.trim back))⟩ := by
  have hnone : (Text.trim front).getLast?.bind Comparison.ofMarker? = none :=
    Option.bind_eq_none_iff.mpr hlast
  unfold attributeTest
  rw [Text.splitOnce_append h]
  dsimp only
  rw [hnone]

/-- With a marker in front of the equals sign a test asks for the comparison of that marker. -/
theorem attributeTest_marker {front name : List Char} {marker : Char} {comparison : Comparison}
    (h : '=' ∉ front) (hfront : Text.trim front = name ++ [marker])
    (hmarker : Comparison.ofMarker? marker = some comparison) (back : List Char) :
    attributeTest (front ++ '=' :: back) =
      ⟨String.ofList (Text.trimEnd name), comparison,
        String.ofList (Text.unquote (Text.trim back))⟩ := by
  unfold attributeTest
  rw [Text.splitOnce_append h]
  dsimp only
  rw [hfront, List.getLast?_concat, List.dropLast_concat, Option.bind_some, hmarker]

/-- What stands in front of the equals sign, without the white space that says nothing there. -/
def tidyFront (front : List Char) : List Char :=
  match (Text.trim front).getLast?.bind Comparison.ofMarker? with
  | some _ => Text.trimEnd (Text.trim front).dropLast ++ (Text.trim front).getLast?.toList
  | none => Text.trim front

/-- White space is dropped at both ends, and in front of a marker. -/
theorem tidyFront_cases (front : List Char) :
    ((∀ c ∈ (Text.trim front).getLast?, Comparison.ofMarker? c = none) ∧
        tidyFront front = Text.trim front) ∨
      ∃ name marker comparison, Text.trim front = name ++ [marker] ∧
        Comparison.ofMarker? marker = some comparison ∧
        tidyFront front = Text.trimEnd name ++ [marker] := by
  unfold tidyFront
  rcases List.eq_nil_or_concat (Text.trim front) with hnil | ⟨name, marker, hlast⟩
  · rw [hnil]
    exact .inl ⟨fun c hc => (nomatch hc), rfl⟩
  · rw [List.concat_eq_append] at hlast
    rw [hlast, List.getLast?_concat, List.dropLast_concat, Option.bind_some]
    cases hmarker : Comparison.ofMarker? marker with
    | none => exact .inl ⟨fun c hc => Option.some.inj hc ▸ hmarker, rfl⟩
    | some comparison => exact .inr ⟨name, marker, comparison, rfl, hmarker, rfl⟩

/-- A tidied front starts with no blank and ends with none. -/
theorem trim_tidyFront (front : List Char) : Text.trim (tidyFront front) = tidyFront front := by
  rcases tidyFront_cases front with ⟨-, htidy⟩ | ⟨name, marker, comparison, hfront, hmarker, htidy⟩
  · rw [htidy, Text.trim_trim]
  · have hblank := (Comparison.symbol_of_marker hmarker).2.2
    rw [htidy]
    refine Text.trim_eq_self (fun c hc => ?_) fun c hc => ?_
    · -- The name starts as the front does, unless there is no name.
      cases hname : Text.trimEnd name with
      | nil =>
        rw [hname] at hc
        exact Option.some.inj hc ▸ hblank
      | cons d ds =>
        rw [hname] at hc
        have hprefix : d :: ds <+: Text.trim front :=
          hname ▸ hfront ▸ (Text.trimEnd_isPrefix name).trans (List.prefix_append _ _)
        exact Text.head?_trim front c (Text.head?_of_isPrefix hprefix hc)
    · rw [List.getLast?_concat] at hc
      exact Option.some.inj hc ▸ hblank

/-- Tidying a front keeps its characters other than blanks. -/
theorem filter_tidyFront {p : Char → Bool} (hblank : ∀ c, Text.isBlank c = true → p c = false)
    (front : List Char) : (tidyFront front).filter p = front.filter p := by
  rw [← Text.filter_trim hblank front]
  rcases tidyFront_cases front with ⟨-, htidy⟩ | ⟨name, marker, comparison, hfront, -, htidy⟩
  · rw [htidy]
  · rw [htidy, hfront, List.filter_append, List.filter_append, Text.filter_trimEnd hblank]

/-- Tidying a front leaves it neat. -/
theorem neat_tidyFront {front : List Char} (h : Neat front) : Neat (tidyFront front) := by
  have htrim : Neat (Text.trim front) := h.of_isInfix (Text.trim_isInfix front)
  rcases tidyFront_cases front with ⟨-, htidy⟩ | ⟨name, marker, comparison, hfront, hmarker, htidy⟩
  · rwa [htidy]
  · have hblank := (Comparison.symbol_of_marker hmarker).2.2
    rw [hfront] at htrim
    have hname : Neat (Text.trimEnd name) :=
      htrim.of_isInfix ((Text.trimEnd_isPrefix name).trans (List.prefix_append _ _)).isInfix
    have hone : Neat [marker] := htrim.of_isInfix (List.suffix_append _ _).isInfix
    rw [htidy]
    -- No blank is left in front of the marker, so any marker fits there.
    refine neat_append.mpr ⟨hname, hone, fun c hc d hd => ?_⟩
    obtain rfl := Option.some.inj hd
    have hlast := Text.getLast?_trimEnd name c hc
    exact ⟨fun h => absurd h (Bool.eq_false_iff.mp hlast), fun _ => hblank⟩

/-- A test that compares values is written as the tidied front, the equals sign and the value
between quotes. -/
theorem inner_append {front : List Char} (h : '=' ∉ front) (back : List Char) :
    (attributeTest (front ++ '=' :: back)).inner =
      tidyFront front ++ '=' :: '"' :: (Text.unquote (Text.trim back) ++ ['"']) := by
  rcases tidyFront_cases front with
    ⟨hlast, htidy⟩ | ⟨name, marker, comparison, hfront, hmarker, htidy⟩
  · rw [attributeTest_equal h hlast, htidy]
    simp [AttributeTest.inner, Comparison.symbol]
  · obtain ⟨hsymbol, hpresent, -⟩ := Comparison.symbol_of_marker hmarker
    rw [attributeTest_marker h hfront hmarker, htidy]
    cases comparison with
    | present => exact absurd rfl hpresent
    | _ => simp [AttributeTest.inner, hsymbol]

/-- A tidied front asks for what the front asks for. -/
theorem attributeTest_tidyFront {front back back' : List Char} (h : '=' ∉ front)
    (hback : Text.unquote (Text.trim back') = Text.unquote (Text.trim back)) :
    attributeTest (tidyFront front ++ '=' :: back') = attributeTest (front ++ '=' :: back) := by
  -- Tidying a front leaves its marks as they are, so that the sign is the first one in both.
  have hnot : '=' ∉ tidyFront front := by
    intro hmem
    have hfilter := filter_tidyFront (p := (· == '=')) (fun c hc => ?_) front
    · have hin : '=' ∈ (tidyFront front).filter (· == '=') := List.mem_filter.mpr ⟨hmem, rfl⟩
      rw [hfilter] at hin
      exact h (List.mem_filter.mp hin).1
    · rw [Bool.eq_false_iff]
      rintro heq
      rw [beq_iff_eq.mp heq] at hc
      cases hc
  rcases tidyFront_cases front with
    ⟨hlast, htidy⟩ | ⟨name, marker, comparison, hfront, hmarker, htidy⟩
  · have hlast' : ∀ c ∈ (Text.trim (tidyFront front)).getLast?, Comparison.ofMarker? c = none := by
      rwa [trim_tidyFront, htidy]
    rw [attributeTest_equal h hlast, attributeTest_equal hnot hlast', trim_tidyFront, htidy, hback]
  · have hfront' : Text.trim (tidyFront front) = Text.trimEnd name ++ [marker] := by
      rw [trim_tidyFront, htidy]
    have hname : Text.trimEnd (Text.trimEnd name) = Text.trimEnd name :=
      Text.trimEnd_eq_self (Text.getLast?_trimEnd name)
    rw [attributeTest_marker h hfront hmarker, attributeTest_marker hnot hfront' hmarker, hname,
      hback]

/-- A value between quotes has nothing to trim. -/
theorem trim_quoted (value : List Char) :
    Text.trim ('"' :: (value ++ ['"'])) = '"' :: (value ++ ['"']) := by
  refine Text.trim_eq_self (fun c hc => Option.some.inj hc ▸ rfl) fun c hc => ?_
  rw [← List.cons_append, List.getLast?_concat] at hc
  exact Option.some.inj hc ▸ rfl

/-- The test between brackets is read back from its own text. -/
theorem attributeTest_inner (span : List Char) :
    attributeTest (attributeTest span).inner = attributeTest span := by
  by_cases hmem : '=' ∈ span
  · obtain ⟨front, back, rfl, hnot⟩ := List.eq_append_cons_of_mem hmem
    -- Both texts are cut at the same equals sign, and the value now has quotes of its own.
    rw [inner_append hnot, attributeTest_tidyFront hnot]
    rw [trim_quoted, Text.unquote_quoted]
  · have htrim : '=' ∉ Text.trim span := fun h => hmem ((Text.trim_isInfix span).subset h)
    rw [attributeTest_present hmem]
    show attributeTest (String.ofList (Text.trim span)).toList = _
    rw [String.toList_ofList, attributeTest_present htrim, Text.trim_trim]

/-- The text of the test between brackets has the brackets that stand there. -/
theorem filter_inner {p : Char → Bool} (hblank : ∀ c, Text.isBlank c = true → p c = false)
    (hdouble : p '"' = false) (hsingle : p '\'' = false) (span : List Char) :
    (attributeTest span).inner.filter p = span.filter p := by
  by_cases hmem : '=' ∈ span
  · obtain ⟨front, back, rfl, hnot⟩ := List.eq_append_cons_of_mem hmem
    -- A value in quotes has the brackets that it has without them.
    have hquoted : ('"' :: (Text.unquote (Text.trim back) ++ ['"'])).filter p = back.filter p := by
      rw [List.filter_cons_of_neg (by simp [hdouble]), List.filter_append,
        List.filter_cons_of_neg (by simp [hdouble]), List.filter_nil, List.append_nil,
        Text.filter_unquote hdouble hsingle, Text.filter_trim hblank]
    rw [inner_append hnot, List.filter_append, List.filter_append, filter_tidyFront hblank]
    congr 1
    rw [← List.singleton_append, ← List.singleton_append (l := back), List.filter_append,
      List.filter_append, hquoted]
  · rw [attributeTest_present hmem]
    show (String.ofList (Text.trim span)).toList.filter p = _
    rw [String.toList_ofList, Text.filter_trim hblank]

/-- The text of a test is neat if what stands between the brackets is. -/
theorem neat_inner (h : Neat span) : Neat (attributeTest span).inner := by
  by_cases hmem : '=' ∈ span
  · obtain ⟨front, back, rfl, hnot⟩ := List.eq_append_cons_of_mem hmem
    obtain ⟨hfront, hback, -⟩ := neat_append.mp h
    -- The value is a piece of the span, and the sign and the quotes are plain characters.
    have hvalue : Neat (Text.unquote (Text.trim back)) :=
      (h.of_isInfix (List.suffix_append _ _).isInfix).of_isInfix
        (((Text.unquote_isInfix _).trans (Text.trim_isInfix back)).trans
          (List.suffix_cons '=' back).isInfix)
    have hequals : Plain '=' := ⟨rfl, rfl⟩
    have hquote : Plain '"' := ⟨rfl, rfl⟩
    rw [inner_append hnot]
    exact neat_append_plain (neat_tidyFront hfront) hequals
      (neat_append_plain neat_nil hquote (neat_append_plain hvalue hquote neat_nil))
  · rw [attributeTest_present hmem]
    show Neat (String.ofList (Text.trim span)).toList
    rw [String.toList_ofList]
    exact h.of_isInfix (Text.trim_isInfix span)

end Selector

end TreeQuery
