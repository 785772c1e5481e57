import TreeQuery.Proofs.ImpliedStar
import TreeQuery.Proofs.Pointwise
import TreeQuery.Proofs.QuotedText
import TreeQuery.Proofs.SiblingCompounds

/-!
# Searches in searches

`:has` reads its argument as a selector and searches from one node at a time. It keeps the elements
from which a node matches the argument (`Query.meets_narrow_has`), where a combinator leads on to
that node. So of two compounds `x` and `y`, `x:has(> y)` finds the parents of what `x > y` finds,
and `x:has(y)` finds what `x` finds as far as something that `x y` finds lies below it
(`Document.find_has_iff`). That these texts are read as they are meant is a matter of the white
space and of what ends each part: the first compound is read in front of a combinator and of a colon
as it is by itself (`Selector.Writes.parse_append`), and the argument, from which white space is
removed with the rest of the text, is read as it is by itself (`Selector.parse_argument`).
-/

namespace TreeQuery

namespace Selector

variable {text : String} {tests : List SimpleTest} {cs : List Char} {c : Char}

/-! ## Texts of compounds -/

/-- A text writes some tests as a compound, without parentheses. -/
structure Writes (text : String) (tests : List SimpleTest) : Prop where
  /-- The text is read as a compound of the tests. -/
  parse : parse text = ⟨[.descendant :: tests.map (·.token)]⟩
  /-- Every bracket is closed. -/
  enclosed : Enclosed (normalize text.toList)
  /-- There are no parentheses. -/
  unmarked : Unmarked '(' ')' text
  /-- A type selector, an id, a class or a test of an attribute stands at the start. -/
  start : ∀ c ∈ text.toList.head?, isTagChar c = true ∨ StartsFilter c
  /-- No blank and no combinator stands at the end. -/
  stop : ∀ c ∈ text.toList.getLast?, Plain c

/-- A character that starts a compound is plain and no quote. -/
theorem plain_of_start (hc : isTagChar c = true ∨ StartsFilter c) :
    Plain c ∧ c ≠ '"' ∧ c ≠ '\'' := by
  rcases hc with hc | hc
  · refine ⟨plain_of_isTagChar hc, ?_, ?_⟩
    · rintro rfl
      exact absurd hc (by decide)
    · rintro rfl
      exact absurd hc (by decide)
  · refine ⟨hc.plain.1, ?_, ?_⟩
    · rintro rfl
      exact absurd hc (by unfold StartsFilter; decide)
    · rintro rfl
      exact absurd hc (by unfold StartsFilter; decide)

/-- The text of a compound has a first character. -/
theorem Writes.exists_cons (h : Writes text tests) :
    ∃ c cs, text.toList = c :: cs ∧ Plain c ∧ c ≠ '"' ∧ c ≠ '\'' := by
  have hne : text.toList ≠ [] := by
    intro hnil
    have hblank := isBlankText_eq_false h.parse (List.cons_ne_nil _ _)
    unfold Selection.isBlankText at hblank
    rw [hnil] at hblank
    cases hblank
  obtain ⟨c, cs, hcs⟩ := List.exists_cons_of_ne_nil hne
  exact ⟨c, cs, hcs, plain_of_start (h.start c (by rw [hcs]; rfl))⟩

/-! ## White space -/

/-- Behind another text, one that starts with a plain character is left as it is by itself. -/
theorem normalize_append_cons (hc : Plain c) (front cs : List Char) :
    normalize (front ++ c :: cs) = inFront front ++ normalize (c :: cs) := by
  rw [normalize_append_plain hc, normalize_cons hc.1, hc.2]

/-- Of a text with a plain character at its end, that character is the last that is left, also in
front of another. -/
theorem inFront_of_stop (hstop : ∀ c ∈ cs.getLast?, Plain c) :
    inFront cs = normalize cs ∧ ∀ d ∈ (normalize cs).getLast?, Plain d := by
  rcases List.eq_nil_or_concat cs with rfl | ⟨front, c, rfl⟩
  · exact ⟨rfl, fun d hd => nomatch hd⟩
  rw [List.concat_eq_append] at hstop ⊢
  have hc : Plain c := hstop c (by rw [List.getLast?_concat]; rfl)
  have hnormal : normalize (front ++ [c]) = inFront front ++ [c] :=
    normalize_append_plain hc front []
  have hspace : endsInSpace (front ++ [c]) = false := by
    unfold endsInSpace
    rw [List.getLast?_concat, Option.any_some, hc.1, Bool.false_and]
  refine ⟨?_, fun d hd => ?_⟩
  · rw [inFront_eq, hspace, if_neg Bool.false_ne_true, List.append_nil]
  · rw [hnormal, List.getLast?_concat] at hd
    exact Option.some.inj hd ▸ hc

/-- One space is left behind a plain character. -/
theorem inFront_space (hne : cs ≠ []) (hstop : ∀ c ∈ cs.getLast?, Plain c) :
    inFront (cs ++ [' ']) = normalize cs ++ [' '] := by
  obtain ⟨c, hc⟩ := Option.isSome_iff_exists.mp (List.getLast?_isSome.mpr hne)
  have hplain : Plain c := hstop c hc
  have htrim : Text.trimEnd (cs ++ [' ']) = cs := by
    obtain ⟨front, rfl⟩ := List.getLast?_eq_some_iff.mp hc
    rw [List.append_assoc, List.singleton_append, Text.trimEnd_append_cons hplain.1]
    rfl
  have hspace : endsInSpace (cs ++ [' ']) = true := by
    unfold endsInSpace
    rw [List.getLast?_concat, htrim, hc, Option.any_some, Option.any_some, hplain.2]
    rfl
  rw [inFront_eq, normalize_concat_space, hspace, if_pos rfl]

/-- No space is left beside `>`. -/
theorem inFront_child (cs : List Char) :
    inFront (cs ++ [' ', '>', ' ']) = normalize cs ++ ['>'] := by
  -- The space in front of `>` is dropped, and `>` stays at the end.
  have hfront : inFront (cs ++ [' '] ++ ['>']) = normalize cs ++ ['>'] := by
    rw [inFront_concat_tight rfl, normalize_concat_space]
  have hnormal : normalize (cs ++ [' '] ++ ['>']) = normalize cs ++ ['>'] := by
    show Text.trimEnd (inFront (cs ++ [' '] ++ ['>'])) = _
    rw [hfront, Text.trimEnd_append_cons rfl]
    rfl
  -- The space behind it is dropped too, since `>` is tight.
  have hspace : endsInSpace (cs ++ [' '] ++ ['>'] ++ [' ']) = false := by
    have htrim : Text.trimEnd (cs ++ [' '] ++ ['>'] ++ [' ']) = cs ++ [' '] ++ ['>'] := by
      rw [List.append_assoc (cs ++ [' ']), List.singleton_append, Text.trimEnd_append_cons rfl]
      rfl
    unfold endsInSpace
    rw [htrim, List.getLast?_concat, List.getLast?_concat]
    rfl
  have hsplit : cs ++ [' ', '>', ' '] = cs ++ [' '] ++ ['>'] ++ [' '] := by simp
  rw [hsplit, inFront_eq, normalize_concat_space, hnormal, hspace, if_neg Bool.false_ne_true,
    List.append_nil]

/-! ## Reading -/

/-- The parts of one group do not end with a comma. -/
theorem getLast?_ne_comma {parts : List Lexeme} {group : Group} (h : split parts = [group]) :
    parts.getLast? ≠ some .comma := by
  intro hcomma
  obtain ⟨front, rfl⟩ := List.getLast?_eq_some_iff.mp hcomma
  obtain ⟨first, others, hfront⟩ := exists_split front
  -- The group that the comma ends is another one.
  rw [split_append_comma, hfront] at h
  have hnil : others ++ [[]] = [] := (List.cons.inj h).2
  exact List.append_ne_nil_of_right_ne_nil others (List.cons_ne_nil _ _) hnil

/-- A compound is read as it is by itself in front of a token that ends it. -/
theorem Writes.parse_append (h : Writes text tests) {whole : String} {rest : List Char}
    {token : Token} {parts : List Lexeme} {group : Group}
    (hnormal : normalize whole.toList = normalize text.toList ++ rest) (hstop : Separates rest)
    (hread : lexemes rest = .token token :: parts) (hgroup : Selector.split parts = [group]) :
    Selector.parse whole = ⟨[.descendant :: (tests.map (·.token) ++ token :: group)]⟩ := by
  obtain ⟨hsplit, hne⟩ := split_of_parse h.parse
  have hlast : ∀ d ∈ (normalize text.toList).getLast?, Text.isBlank d = false ∧
      (isTight d = true → rest.head? ≠ some ' ') := by
    intro d hd
    have hplain : Plain d := (inFront_of_stop h.stop).2 d hd
    exact ⟨hplain.1, fun htight => absurd htight (Bool.eq_false_iff.mp hplain.2)⟩
  -- The first text does not end with a comma, which would take the spaces behind it.
  have hlexemes : lexemes (normalize whole.toList) =
      lexemes (normalize text.toList) ++ .token token :: parts := by
    rw [hnormal, lexemes_append h.enclosed hstop hlast, behind, if_neg (getLast?_ne_comma hsplit),
      hread]
  obtain ⟨front, last, hparts, hjoin⟩ := split_append_token (lexemes (normalize text.toList))
  have hone : [] ++ [tests.map (·.token)] = front ++ [last] := hsplit.symm.trans hparts
  obtain ⟨hfront, hlastGroup⟩ := List.append_inj' hone rfl
  obtain rfl := (List.cons.inj hlastGroup).1
  unfold Selector.parse
  rw [hlexemes, hjoin token hgroup, ← hfront, List.nil_append, List.map_singleton,
    complete_append (mt List.map_eq_nil_iff.mp hne), SiblingTest.complete_tests _ hne,
    List.cons_append]

/-- Another compound is read behind a combinator, of which one character is left. -/
theorem Writes.parse_combinator (h : Writes text tests) {other : String} {others : List SimpleTest}
    (hother : Writes other others) {between : String} {d : Char} {combinator : Token}
    (hbetween : inFront (text.toList ++ between.toList) = normalize text.toList ++ [d])
    (hd : d ∈ [',', ' ', '>', '+', '~', ':'])
    (hread : ∀ cs, lexeme d cs = (.token combinator, cs)) :
    Selector.parse (text ++ between ++ other) =
      ⟨[.descendant :: (tests.map (·.token) ++ combinator :: others.map (·.token))]⟩ := by
  obtain ⟨c, cs, hcs, hc, -⟩ := hother.exists_cons
  -- Squeezing the whole text squeezes the two compounds and leaves one character between them.
  have hnormal : normalize (text ++ between ++ other).toList =
      normalize text.toList ++ d :: normalize other.toList :=
    calc normalize (text ++ between ++ other).toList
        = inFront (text.toList ++ between.toList) ++ normalize (c :: cs) := by
          rw [String.toList_append, String.toList_append, hcs, normalize_append_cons hc]
      _ = normalize text.toList ++ d :: normalize other.toList := by
          rw [hbetween, ← hcs, List.append_assoc, List.singleton_append]
  have hstop : Separates (d :: normalize other.toList) := fun e he => Option.some.inj he ▸ hd
  exact h.parse_append hnormal hstop (lexemes_of_lexeme (hread _)) (split_of_parse hother.parse).1

variable {first first' : SimpleTest} {others others' : List SimpleTest} {other : String}

/-- By itself a compound is searched for below. -/
theorem Writes.parse_compound (h : Writes text (first :: others)) :
    Selector.parse text = ⟨[[Compound.descendant first others].flatMap (·.tokens)]⟩ :=
  h.parse.trans (by simp [Compound.tokens])

/-- Behind `>` it is searched for among the children. -/
theorem Writes.parse_child (h : Writes text (first :: others)) :
    Selector.parse ("> " ++ text) = ⟨[[Compound.child first others].flatMap (·.tokens)]⟩ :=
  (Selector.parse_child h.parse).trans (by simp [Compound.tokens])

/-- With `>` between them, the second of two compounds is searched for among the children. -/
theorem Writes.parse_child_between (h : Writes text (first :: others))
    (hother : Writes other (first' :: others')) :
    Selector.parse (text ++ " > " ++ other) =
      ⟨[[Compound.descendant first others, .child first' others'].flatMap (·.tokens)]⟩ := by
  have hread : ∀ cs, lexeme '>' cs = (.token .child, cs) := fun _ => rfl
  exact (h.parse_combinator hother (inFront_child _) (by decide) hread).trans
    (by simp [Compound.tokens])

/-- With a space between them, it is searched for below. -/
theorem Writes.parse_space_between (h : Writes text (first :: others))
    (hother : Writes other (first' :: others')) :
    Selector.parse (text ++ " " ++ other) =
      ⟨[[Compound.descendant first others, .descendant first' others'].flatMap (·.tokens)]⟩ := by
  obtain ⟨c, cs, hcs, -⟩ := h.exists_cons
  have hspace : inFront (text.toList ++ " ".toList) = normalize text.toList ++ [' '] :=
    inFront_space (hcs ▸ List.cons_ne_nil c cs) h.stop
  have hread : ∀ cs, lexeme ' ' cs = (.token .descendant, cs) := fun _ => rfl
  exact (h.parse_combinator hother hspace (by decide) hread).trans (by simp [Compound.tokens])

/-- A pseudo-class with an argument without parentheses is read behind a compound. -/
theorem Writes.parse_has (h : Writes text tests) {argument : String}
    (hargument : Unmarked '(' ')' argument) :
    Selector.parse (text ++ ":has(" ++ argument ++ ")") =
      ⟨[.descendant :: (tests.map (·.token) ++
        [.pseudoClass "has" (some (squeezed argument))])]⟩ := by
  have hhas : ∀ c ∈ ":has(".toList, Plain c := forall_mem_of_all (by decide)
  have hclose : ∀ c ∈ [')'], Plain c := forall_mem_of_all (by decide)
  have hcolon : ":has(".toList = ':' :: "has(".toList := by decide
  -- The plain characters between the texts keep the white space of one from that of the other.
  have hnormal : normalize (text ++ ":has(" ++ argument ++ ")").toList =
      normalize text.toList ++ (Token.pseudoClass "has" (some (squeezed argument))).chars :=
    calc normalize (text ++ ":has(" ++ argument ++ ")").toList
        = normalize (text.toList ++ (":has(".toList ++ (argument.toList ++ [')']))) := by simp
      _ = inFront text.toList ++ normalize (":has(".toList ++ (argument.toList ++ [')'])) := by
          rw [hcolon, List.cons_append, normalize_append_cons ⟨rfl, rfl⟩]
      _ = normalize text.toList ++
            (":has(".toList ++ (squeeze false false argument.toList ++ [')'])) := by
          rw [(inFront_of_stop h.stop).1,
            normalize_between hhas hclose (by decide) (List.cons_ne_nil _ _)]
      _ = normalize text.toList ++ (Token.pseudoClass "has" (some (squeezed argument))).chars := by
          simp [Token.chars, squeezed]
  have hread : (Token.pseudoClass "has" (some (squeezed argument))).Readable := by
    refine ⟨forall_mem_of_all (by decide), fun inner hinner => ?_⟩
    obtain rfl := Option.some.inj hinner
    exact nested_of_forall (hargument.squeezed (by decide) (by decide))
  have hstop : Separates (Token.pseudoClass "has" (some (squeezed argument))).chars :=
    fun d hd => Option.some.inj hd ▸ by decide
  exact h.parse_append hnormal hstop (lexemes_chars_self _ hread trivial) rfl

/-- The argument of a pseudo-class is read as its text is by itself, if that does not start with a
quote or a blank. -/
theorem parse_argument {argument : String} (hhead : ∃ c ∈ argument.toList.head?,
    Text.isBlank c = false ∧ c ≠ '"' ∧ c ≠ '\'') :
    parse (String.ofList (PseudoClass.argumentOf (some (squeezed argument)))) =
      parse argument := by
  obtain ⟨c, hc, hblank, hdouble, hsingle⟩ := hhead
  obtain ⟨cs, hcs⟩ := List.head?_eq_some_iff.mp hc
  have htext : PseudoClass.argumentOf (some (squeezed argument)) = normalize argument.toList := by
    change Text.unquote (Text.trim (squeezed argument).toList) = _
    rw [squeezed, String.toList_ofList]
    change Text.unquote (normalize argument.toList) = _
    -- What is left starts with the first character, which is no quote that could be taken off.
    refine (Text.unquote_cases _).resolve_right ?_
    rintro ⟨mark, hmark, hquoted⟩
    rw [hcs, normalize_cons hblank] at hquoted
    obtain rfl := (List.cons.inj hquoted).1
    exact hmark.elim hdouble hsingle
  unfold parse
  rw [htext, String.toList_ofList, normalize_normalize]

end Selector

/-! ## Searching -/

namespace Tree

variable {t : Tree} {settings : Settings} {compound : Compound} {n e : NodeId}

/-- A chain leads over an element that matches its first compound. -/
theorem matches_cons {compounds : List Compound} :
    t.Matches settings (compound :: compounds) n e ↔
      ∃ m, t.Matches settings [compound] n m ∧ t.Matches settings compounds m e := by
  simp only [matches_singleton, and_assoc]
  rfl

variable {first : SimpleTest} {others : List SimpleTest}

/-- The parents of what matches a compound and then another among the children are the elements that
match the compound and have such a child. -/
theorem exists_parent_iff :
    (∃ m, t.Matches settings [compound, .child first others] e m ∧ t.parent? m = some n) ↔
      t.Matches settings [compound] e n ∧ ∃ m, t.Matches settings [.child first others] n m := by
  constructor
  · rintro ⟨m, hmatches, hparent⟩
    obtain ⟨k, hk, hchild⟩ := matches_cons.mp hmatches
    -- A node has one parent.
    have hkm : t.parent? m = some k := (matches_singleton.mp hchild).2.1
    obtain rfl := Option.some.inj (hparent.symm.trans hkm)
    exact ⟨hk, m, hchild⟩
  · rintro ⟨hn, m, hchild⟩
    exact ⟨m, matches_cons.mpr ⟨n, hn, hchild⟩, (matches_singleton.mp hchild).2.1⟩

/-- An element that matches a compound has a node below it that matches the compound and then
another exactly if it has one that matches the other from it. -/
theorem exists_above_iff (hn : t.Matches settings [compound] e n) :
    (∃ m, t.Matches settings [compound, .descendant first others] e m ∧ t.Above n m) ↔
      ∃ m, t.Matches settings [.descendant first others] n m := by
  constructor
  · rintro ⟨m, hmatches, habove⟩
    obtain ⟨k, -, hbelow⟩ := matches_cons.mp hmatches
    obtain ⟨hm, -, hholds⟩ := matches_singleton.mp hbelow
    exact ⟨m, matches_singleton.mpr ⟨hm, habove, hholds⟩⟩
  · rintro ⟨m, hbelow⟩
    exact ⟨m, matches_cons.mpr ⟨n, hn, hbelow⟩, (matches_singleton.mp hbelow).2.1⟩

end Tree

namespace Query

variable {t : Tree} {settings : Settings} {tokens : List Token} {goesTo : NodeId → NodeId → Prop}
  {argument : Option String} {nested : List Compound}

/-- A search that says for each node whether it is kept keeps these nodes. -/
theorem Meets.mem_filter {search : NodeId → Query Bool} {keeps : NodeId → Prop}
    (h : ∀ n, Meets t (search n) (fun passed => passed = true ↔ keeps n) Never)
    (nodes : List NodeId) :
    Meets t (Query.filter search nodes)
      (fun kept => ∀ n, n ∈ kept ↔ n ∈ nodes ∧ keeps n) Never := by
  classical
  have hsearch : ∀ n, Meets t (search n) (· = decide (keeps n)) Never := fun n =>
    (h n).weaken
      (fun passed hpassed => Bool.eq_iff_iff.mpr (hpassed.trans decide_eq_true_iff.symm))
      fun _ he => he
  refine (Meets.filter_eq hsearch nodes).weaken (fun kept hkept n => ?_) fun _ he => he
  rw [hkept, List.mem_filter, decide_eq_true_iff]

/-- `:has` keeps the elements from which a node matches its argument. -/
theorem meets_narrow_has (h : t.Loaded)
    (hargument : Selector.parse (String.ofList (PseudoClass.argumentOf argument)) =
      ⟨[nested.flatMap (·.tokens)]⟩) (nodes : List NodeId) :
    Meets t (narrow settings "has" argument nodes)
      (fun kept => ∀ n, n ∈ kept ↔ n ∈ nodes ∧ t.isElement n = true ∧
        ∃ e, t.Matches settings nested n e) Never := by
  have hname : PseudoClass.ofName? "has" = some .has := rfl
  rw [narrow, hname, hargument]
  refine Meets.mem_filter (fun n => Meets.bind (.tree rfl) fun u (hu : t = u) => ?_) nodes
  subst hu
  dsimp only
  split_ifs with helement
  · -- Something is found from the element if a node matches from it.
    have hnode : ∀ m ∈ [n], t.Followable m := fun m hm => List.mem_singleton.mp hm ▸ .inl helement
    refine ((reads_group h nested).meets_findGroups hnode).bind fun found hfound => .pure ?_
    rw [Bool.not_eq_true', List.isEmpty_eq_false_iff_exists_mem, and_iff_right helement]
    simp only [hfound, List.mem_singleton, exists_eq_left]
  -- A node that is no element is not kept.
  · exact .pure (iff_of_false Bool.false_ne_true fun hkeep => helement hkeep.1)

/-- `:has` leads from the elements that it keeps to where the rest leads from them. -/
theorem reads_has (h : t.Loaded)
    (hargument : Selector.parse (String.ofList (PseudoClass.argumentOf argument)) =
      ⟨[nested.flatMap (·.tokens)]⟩) (hrest : Reads t settings tokens none goesTo) :
    Reads t settings (.pseudoClass "has" argument :: tokens) none fun n e =>
      (t.isElement n = true ∧ ∃ m, t.Matches settings nested n m) ∧ goesTo n e := by
  refine reads_of_nonempty fun draft nodes hempty haxis hnodes => ?_
  have hclose : draft.closeAxis = draft := by
    unfold Draft.closeAxis
    rw [haxis]
    rfl
  -- The rest of the tokens starts from what is kept of the nodes that the draft leads to.
  have hgo : ∀ kept, (∀ n, n ∈ kept ↔ n ∈ draft.reached t nodes ∧ t.isElement n = true ∧
      ∃ m, t.Matches settings nested n m) →
        Meets t (run settings tokens {} kept) (fun found => ∀ e, e ∈ found ↔
          ∃ c ∈ nodes, ∃ n, t.StepsTo draft.steps c n ∧
            (t.isElement n = true ∧ ∃ m, t.Matches settings nested n m) ∧ goesTo n e) Never := by
    intro kept hkept
    have hfollowable : ∀ n ∈ kept, t.Followable n := fun n hn => .inl ((hkept n).mp hn).2.1
    refine (hrest {} kept rfl hfollowable).weaken (fun result hresult e => ?_) fun _ he => he
    rw [hresult e]
    constructor
    · rintro ⟨n, hn, m, hnm, hgoes⟩
      obtain rfl : n = m := hnm
      obtain ⟨hreached, hkeeps⟩ := (hkept n).mp hn
      obtain ⟨c, hc, hsteps⟩ := (finds_draft_reached draft hnodes n).mp hreached
      exact ⟨c, hc, n, hsteps, hkeeps, hgoes⟩
    · rintro ⟨c, hc, n, hsteps, hkeeps, hgoes⟩
      have hreached := (finds_draft_reached draft hnodes n).mpr ⟨c, hc, hsteps⟩
      exact ⟨n, (hkept n).mpr ⟨hreached, hkeeps⟩, n, rfl, hgoes⟩
  rw [run, hempty]
  refine (meets_draftToken settings draft _).bind fun result hresult => ?_
  rw [hresult]
  refine (meets_followDraft h settings draft.closeAxis nodes).bind fun found hfound => ?_
  rw [hclose] at hfound
  subst hfound
  dsimp only
  split_ifs with hnone
  · refine Meets.bind (.pure rfl) fun kept (hkept : _ = kept) => hgo kept fun n => ?_
    simp [← hkept, List.isEmpty_iff.mp hnone]
  · exact (meets_narrow_has h hargument _).bind hgo

/-- A search for a compound with `:has` behind it finds the elements that match the compound and
from which a node matches the argument. -/
theorem meets_find_has (h : t.Loaded) (settings : Settings) {text : String} {first : SimpleTest}
    {others : List SimpleTest} (htext : Selector.Writes text (first :: others)) {argument : String}
    (hunmarked : Selector.Unmarked '(' ')' argument)
    (hhead : ∃ c ∈ argument.toList.head?, Text.isBlank c = false ∧ c ≠ '"' ∧ c ≠ '\'')
    (hargument : Selector.parse argument = ⟨[nested.flatMap (·.tokens)]⟩) :
    Meets t (find settings (Selector.parse (text ++ ":has(" ++ argument ++ ")")) [.document])
      (fun found => ∀ n, n ∈ found ↔ t.Matches settings [.descendant first others] .document n ∧
        ∃ e, t.Matches settings nested n e) Never := by
  have hnested := (Selector.parse_argument hhead).trans hargument
  have hreads : Reads t settings _ none _ :=
    -- The compound is read from the document node, and `:has` behind it as a test of what it finds.
    reads_compound h (.descendant first others) (reads_has h hnested (reads_nil h none))
  rw [htext.parse_has hunmarked]
  refine (Reads.meets_find h hreads).weaken (fun found hfound n => ?_) fun _ he => he
  rw [hfound n, Tree.matches_singleton]
  -- A match of the compound and the test together is a match of the compound that passes the test.
  constructor
  · rintro ⟨_, he, hrelated, hholds, ⟨-, hnested⟩, rfl⟩
    exact ⟨⟨he, hrelated, hholds⟩, hnested⟩
  · rintro ⟨⟨he, hrelated, hholds⟩, hnested⟩
    exact ⟨n, he, hrelated, hholds, ⟨he, hnested⟩, rfl⟩

end Query

namespace Document

variable {document : Document} {s : Session}

/-- A search in a document gives a selection of what is found from the document node. -/
theorem exists_find {selector : String} {post : List NodeId → Prop}
    (h : Query.Meets document.tree
      (Query.find document.settings (Selector.parse selector) [.document]) post Query.Never)
    (hs : s.tree = document.tree) :
    ∃ found, Query.result (document.find selector) s = .ok found ∧ post found.nodes := by
  have hroot : Query.Meets document.tree
      (Query.find document.settings (Selector.parse selector) Selection.root.nodes) post
        Query.Never := h
  obtain ⟨found, s', hok, -, nodes, hnodes, rfl⟩ := (Selection.meets_find rfl hroot).exists_ok hs
  exact ⟨_, Query.result_eq_ok.mpr ⟨s', hok⟩, hnodes⟩

/-- **Searches in searches.** In a document made of markup, of two compounds `x` and `y`, a search
for `x:has(> y)` finds the parents of what a search for `x > y` finds, and one for `x:has(y)` finds
what a search for `x` finds and what has something below it that a search for `x y` finds. -/
theorem find_has_iff {flavour : Flavour} {markup : Markup}
    (hbuild : Markup.build? flavour markup = .ok document.tree) {x y : String}
    {xs ys : List SimpleTest} (hx : Selector.Writes x xs) (hy : Selector.Writes y ys)
    (hs : s.tree = document.tree) :
    ∃ found children below parents ancestors : Selection,
      Query.result (document.find x) s = .ok found ∧
      Query.result (document.find (x ++ " > " ++ y)) s = .ok children ∧
      Query.result (document.find (x ++ " " ++ y)) s = .ok below ∧
      Query.result (document.find (x ++ ":has(> " ++ y ++ ")")) s = .ok parents ∧
      Query.result (document.find (x ++ ":has(" ++ y ++ ")")) s = .ok ancestors ∧
      (∀ n, n ∈ parents.nodes ↔ ∃ m ∈ children.nodes, document.tree.parent? m = some n) ∧
      ∀ n, n ∈ ancestors.nodes ↔
        n ∈ found.nodes ∧ ∃ m ∈ below.nodes, document.tree.Above n m := by
  have h : document.tree.Loaded := Tree.loaded_build? hbuild
  obtain ⟨first, others, rfl⟩ := List.exists_cons_of_ne_nil (Selector.split_of_parse hx.parse).2
  obtain ⟨first', others', rfl⟩ := List.exists_cons_of_ne_nil (Selector.split_of_parse hy.parse).2
  obtain ⟨c, cs, hcs, hplain, hquotes⟩ := hy.exists_cons
  have hunmarked : Selector.Unmarked '(' ')' ("> " ++ y) := by
    have hfront : ∀ d ∈ "> ".toList, d ≠ '(' ∧ d ≠ ')' := Selector.forall_mem_of_all (by decide)
    unfold Selector.Unmarked
    rw [String.toList_append]
    exact List.forall_mem_append.mpr ⟨hfront, hy.unmarked⟩
  have hparents := Query.meets_find_has h document.settings hx hunmarked
    ⟨'>', by rw [String.toList_append]; rfl, by decide⟩ hy.parse_child
  have hancestors := Query.meets_find_has h document.settings hx hy.unmarked
    ⟨c, by rw [hcs]; rfl, hplain.1, hquotes⟩ hy.parse_compound
  have htext : x ++ ":has(" ++ ("> " ++ y) ++ ")" = x ++ ":has(> " ++ y ++ ")" :=
    String.toList_inj.mp (by simp)
  rw [htext] at hparents
  have hcompounds := Query.meets_find_compounds h document.settings
  obtain ⟨found, hok₁, hfound⟩ := exists_find (hx.parse_compound ▸ hcompounds _) hs
  obtain ⟨children, hok₂, hchildren⟩ :=
    exists_find (hx.parse_child_between hy ▸ hcompounds _) hs
  obtain ⟨below, hok₃, hbelow⟩ := exists_find (hx.parse_space_between hy ▸ hcompounds _) hs
  obtain ⟨parents, hok₄, hparents⟩ := exists_find hparents hs
  obtain ⟨ancestors, hok₅, hancestors⟩ := exists_find hancestors hs
  refine ⟨found, children, below, parents, ancestors, hok₁, hok₂, hok₃, hok₄, hok₅, fun n => ?_,
    fun n => ?_⟩
  -- What is found for two compounds matches them as a chain, and the chain may be cut in two.
  · rw [hparents n, ← Tree.exists_parent_iff]
    simp only [hchildren]
  · rw [hancestors n, hfound n]
    refine and_congr_right fun hn => ?_
    rw [← Tree.exists_above_iff hn]
    simp only [hbelow]

/-- For one, `li.a:has(> em)` and `li.a:has(em)` in a list with two items. -/
theorem find_has_iff_items :
    ∃ document : Document,
      Markup.build? .html (.element "ul" .empty
          [.element "li" (.ofList [("class", "a")]) [.element "em" .empty []],
            .element "li" (.ofList [("class", "a")]) [.element "b" .empty
              [.element "em" .empty []]]]) = .ok document.tree ∧
      Selector.Writes "li.a" [.tag "li" (by decide), .classes "a"] ∧
      Selector.Writes "em" [.tag "em" (by decide)] ∧
      ∃ found children below parents ancestors : Selection,
        Query.result (document.find "li.a") { tree := document.tree } = .ok found ∧
        Query.result (document.find "li.a > em") { tree := document.tree } = .ok children ∧
        Query.result (document.find "li.a em") { tree := document.tree } = .ok below ∧
        Query.result (document.find "li.a:has(> em)") { tree := document.tree } = .ok parents ∧
        Query.result (document.find "li.a:has(em)") { tree := document.tree } = .ok ancestors ∧
        (∀ n, n ∈ parents.nodes ↔ ∃ m ∈ children.nodes, document.tree.parent? m = some n) ∧
        ∀ n, n ∈ ancestors.nodes ↔
          n ∈ found.nodes ∧ ∃ m ∈ below.nodes, document.tree.Above n m := by
  obtain ⟨t, hbuild⟩ : ∃ t, Markup.build? .html (.element "ul" .empty
      [.element "li" (.ofList [("class", "a")]) [.element "em" .empty []],
        .element "li" (.ofList [("class", "a")]) [.element "b" .empty
          [.element "em" .empty []]]]) = .ok t := ⟨_, rfl⟩
  -- Each of the two texts writes its compound: it is read as such, and its tests are closed in it.
  have hitem : Selector.Writes "li.a" [.tag "li" (by decide), .classes "a"] := by
    have hnormal : Selector.normalize "li.a".toList = "li.a".toList := by decide +kernel
    have hread : Selector.parse "li.a" = ⟨[[.descendant, .tag "li", .classes "a"]]⟩ := by
      decide +kernel
    refine ⟨hread, ?_, Selector.forall_mem_of_all (by decide), fun c hc => ?_, fun c hc => ?_⟩
    · rw [hnormal]
      exact .cons ⟨nofun, nofun⟩ (.cons ⟨nofun, nofun⟩ .nil)
    · exact Option.some.inj hc ▸ .inl (by decide)
    · exact Option.some.inj hc ▸ by decide
  have hemphasis : Selector.Writes "em" [.tag "em" (by decide)] := by
    have hnormal : Selector.normalize "em".toList = "em".toList := by decide +kernel
    have hread : Selector.parse "em" = ⟨[[.descendant, .tag "em"]]⟩ := by decide +kernel
    refine ⟨hread, ?_, Selector.forall_mem_of_all (by decide), fun c hc => ?_, fun c hc => ?_⟩
    · rw [hnormal]
      exact .cons ⟨nofun, nofun⟩ .nil
    · exact Option.some.inj hc ▸ .inl (by decide)
    · exact Option.some.inj hc ▸ by decide
  have hdocument : ({ tree := t } : Session).tree = (Document.ofTree t).tree := rfl
  -- The four texts that the searches put together, as they are written.
  have hchild : "li.a" ++ " > " ++ "em" = "li.a > em" := by decide
  have hbelow : "li.a" ++ " " ++ "em" = "li.a em" := by decide
  have hparent : "li.a" ++ ":has(> " ++ "em" ++ ")" = "li.a:has(> em)" := by decide
  have hancestor : "li.a" ++ ":has(" ++ "em" ++ ")" = "li.a:has(em)" := by decide
  have hsearches := find_has_iff hbuild hitem hemphasis hdocument
  rw [hchild, hbelow, hparent, hancestor] at hsearches
  exact ⟨.ofTree t, hbuild, hitem, hemphasis, hsearches⟩

end Document

end TreeQuery
