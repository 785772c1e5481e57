import TreeQuery.Proofs.Unions

/-!
# The type selector that is left out

Behind a combinator, and at the start of a group, a class, an id, a test of an attribute or a
pseudo-class may stand without a type selector, and what is meant is `*`. Four places of the program
supply it: the completion of a group, a predicate that starts a step, a pseudo-class that ends a
combinator, and the empty test after a sibling combinator. Two groups are `Query.FindAlike` if they
find the same from the same nodes, with the same warnings, log and errors. A group is so with the
one that has `*` written out at such a place, whatever stands in front of it
(`Query.findAlike_behind`, `Query.findAlike_star`), also where the `*` is read as part of the test
after a sibling combinator (`Query.findAlike_sibling`). The text in front of the place is read as it
is by itself (`Selector.parse_implied`), so the two texts find the same (`Query.find_implied_star`).
-/

namespace TreeQuery

/-! ## Tokens that filter -/

/-- Whether a token filters the nodes that the tokens before it lead to. -/
def Token.isFilter : Token → Bool
  | id _ | classes _ | attr _ | pseudoClass _ _ => true
  | _ => false

namespace Draft

variable {settings : Settings} {draft : Draft}

/-- A step that any element passes takes the place of an axis that waits. -/
theorem addPredicate_addStep (h : draft.axis?.isSome = true) (predicate : Predicate) :
    (draft.addStep .any).addPredicate predicate = draft.addPredicate predicate := by
  have haxis : (draft.addStep .any).axis?.isSome = false := rfl
  have hsteps : (draft.addStep .any).isEmpty = false := by simp [isEmpty, addStep]
  unfold addPredicate
  rw [h, haxis, hsteps, Bool.true_or, Bool.or_false, if_pos rfl, if_neg Bool.false_ne_true]

/-- The same with any token that filters and that paths have words for. -/
theorem add_addStep (h : draft.axis?.isSome = true) {token : Token}
    (hfilter : token.isFilter = true)
    (hpath : ¬ ∃ name argument, token = .pseudoClass name argument) :
    (draft.addStep .any).add settings token = draft.add settings token := by
  -- The token becomes a predicate, and a predicate is put on the step to `*` or on one of its own
  -- that is the same.
  cases token with
  | id name => exact congrArg (Outcome.structural, ·) (addPredicate_addStep h _)
  | classes names => exact congrArg (Outcome.narrow _, ·) (addPredicate_addStep h _)
  | attr test =>
    unfold add
    dsimp only
    split
    · exact congrArg (Outcome.structural, ·) (addPredicate_addStep h _)
    · exact congrArg (Outcome.structural, ·) (addPredicate_addStep h _)
    · exact congrArg (Outcome.narrow _, ·) (addPredicate_addStep h _)
  | pseudoClass name argument => exact absurd ⟨name, argument, rfl⟩ hpath
  | _ => cases hfilter

/-- The same with a pseudo-class, which ends a combinator. -/
theorem closeAxis_addStep (h : draft.axis?.isSome = true) :
    (draft.addStep .any).closeAxis = draft.closeAxis := by
  have haxis : (draft.addStep .any).axis?.isSome = false := rfl
  unfold closeAxis
  rw [h, haxis, if_pos rfl, if_neg Bool.false_ne_true]

end Draft

/-- Every element passes a `*` in front of other tokens. -/
theorem Tree.passesAll_star {t : Tree} {n : NodeId} (hn : t.isElement n = true)
    (settings : Settings) (tokens : List Token) :
    t.passesAll settings n (.tag "*" :: tokens) = t.passesAll settings n tokens := by
  obtain ⟨element, helement⟩ := Option.isSome_iff_exists.mp hn
  have hdata := element?_eq_some_iff.mp helement
  have hstar : t.elementPasses settings n element (.tag "*") = true := rfl
  have hcode : (Token.tag "*").typeCode? = none := rfl
  unfold passesAll
  simp only [hdata, List.all_cons, hcode, hstar, Bool.true_and]

/-- A test with several groups accepts what passes one of them. -/
theorem Tree.acceptsSibling_cons {group : Group} (hne : group ≠ []) {t : Tree}
    {settings : Settings} {n : NodeId} {groups : List Group} :
    t.acceptsSibling settings ⟨group :: groups⟩ n =
      (t.passesAll settings n group.simpleTokens || t.passesSelector settings n ⟨groups⟩) := by
  have hempty : group.isEmpty = false := List.isEmpty_eq_false_iff.mpr hne
  unfold acceptsSibling passesSelector
  rw [List.all_cons, hempty, Bool.false_and, Bool.false_or,
    List.filter_cons_of_pos (by simp [hempty]), List.any_cons]

/-- Two tests that accept the same elements lead to the same siblings. -/
theorem Tree.siblingsOf_congr {t : Tree} {settings : Settings} {sub other : String}
    (haccept : ∀ n, t.isElement n = true → t.acceptsSibling settings (Selector.parse sub) n =
      t.acceptsSibling settings (Selector.parse other) n) (nodes : List NodeId) :
    t.siblingsOf settings (.adjacent sub) nodes = t.siblingsOf settings (.adjacent other) nodes ∧
      t.siblingsOf settings (.general sub) nodes =
        t.siblingsOf settings (.general other) nodes := by
  -- The next element sibling is an element, so the two tests agree on it.
  have hadjacent : ∀ n, t.adjacentSibling? n (t.acceptsSibling settings (Selector.parse sub)) =
      t.adjacentSibling? n (t.acceptsSibling settings (Selector.parse other)) := by
    intro n
    unfold adjacentSibling?
    cases hnext : t.nextElement? n with
    | none => rfl
    | some m =>
      have hm : t.isElement m = true := List.find?_some hnext
      rw [Option.filter_some, Option.filter_some, haccept m hm]
  have hgeneral : ∀ n, t.generalSiblings n (t.acceptsSibling settings (Selector.parse sub)) =
      t.generalSiblings n (t.acceptsSibling settings (Selector.parse other)) :=
    fun n => List.filter_congr fun m hm => haccept m (List.mem_filter.mp hm).2
  unfold siblingsOf
  simp only [hadjacent, hgeneral, and_self]

namespace Query

variable {settings : Settings}

/-! ## Groups that find the same -/

/-- Once they are complete, two groups find the same. -/
def FindAlike (group other : Group) : Prop :=
  ∀ settings nodes, run settings group.complete {} nodes = run settings other.complete {} nodes

/-- Groups are alike behind any tokens if what they start with is completed alike and they find the
same from any draft. -/
theorem findAlike_of_run (lead : Group) {group other : Group}
    (hgroup : group.complete = lead ++ group) (hother : other.complete = lead ++ other)
    (hrun : ∀ settings draft nodes,
      run settings group draft nodes = run settings other draft nodes) (front : Group) :
    FindAlike (front ++ group) (front ++ other) := by
  intro settings nodes
  by_cases hfront : front = []
  · rw [hfront, List.nil_append, List.nil_append, hgroup, hother]
    exact run_append_congr (hrun settings) lead {} nodes
  · rw [Selector.complete_append hfront, Selector.complete_append hfront]
    exact run_append_congr (hrun settings) front.complete {} nodes

/-- A token that filters finds behind a combinator what it finds behind `*`. -/
theorem run_star {draft : Draft} (h : draft.axis?.isSome = true) {token : Token}
    (hfilter : token.isFilter = true) (rest : Group) (nodes : List NodeId) :
    run settings (token :: rest) draft nodes =
      run settings (.tag "*" :: token :: rest) draft nodes := by
  have hstar : draftToken settings draft (.tag "*") = pure (.structural, draft.addStep .any) := rfl
  rw [run, run]
  split_ifs with hnone
  · rfl
  rw [hstar, pure_bind]
  dsimp only
  rw [run, if_neg hnone]
  by_cases hpath : ∃ name argument, token = .pseudoClass name argument
  -- A pseudo-class leaves the draft as it is, and the axis is closed before it counts.
  · obtain ⟨name, argument, rfl⟩ := hpath
    have hdraft : ∀ draft, draftToken settings draft (.pseudoClass name argument) =
        pure (.procedural, draft) := fun _ => rfl
    rw [hdraft, hdraft, pure_bind, pure_bind]
    dsimp only
    rw [Draft.closeAxis_addStep h]
  · -- The token is drawn up alike.
    have hdraft : draftToken settings (draft.addStep .any) token =
        draftToken settings draft token := by
      unfold draftToken
      rw [Draft.add_addStep h hfilter hpath]
    rw [hdraft]

/-- The same with the combinator in front, from any draft. -/
theorem run_combinator_star {combinator token : Token}
    (hcombinator : combinator.isCombinator = true) (hfilter : token.isFilter = true) (rest : Group)
    (settings : Settings) (draft : Draft) (nodes : List NodeId) :
    run settings (combinator :: token :: rest) draft nodes =
      run settings (combinator :: .tag "*" :: token :: rest) draft nodes := by
  -- A combinator draws up the axis that it waits with, whatever comes behind it.
  obtain ⟨axis, hdraft⟩ : ∃ axis, draftToken settings draft combinator =
      pure (.structural, { draft with axis? := some axis }) := by
    cases combinator with
    | child => exact ⟨.child, rfl⟩
    | descendant => exact ⟨.descendant, rfl⟩
    | _ => cases hcombinator
  rw [run, run]
  split_ifs
  · rfl
  rw [hdraft, pure_bind, pure_bind]
  exact run_star rfl hfilter rest nodes

/-- Behind a combinator `*` may be left out in front of a token that filters. -/
theorem findAlike_behind {combinator token : Token} (hcombinator : combinator.isCombinator = true)
    (hfilter : token.isFilter = true) (front rest : Group) :
    FindAlike (front ++ combinator :: token :: rest)
      (front ++ combinator :: .tag "*" :: token :: rest) := by
  have hrun := run_combinator_star hcombinator hfilter rest
  cases combinator with
  | child => exact findAlike_of_run [] rfl rfl hrun front
  | descendant => exact findAlike_of_run [.descendant] rfl rfl hrun front
  | _ => cases hcombinator

/-- At the start of a group `*` may be left out in front of a token that filters. -/
theorem findAlike_star {token : Token} (hfilter : token.isFilter = true) (rest : Group) :
    FindAlike (token :: rest) (.tag "*" :: token :: rest) := by
  intro settings nodes
  have hcombinator : Token.descendant.isCombinator = true := rfl
  have hrun := run_combinator_star hcombinator hfilter rest settings {} nodes
  cases token with
  | id _ | classes _ | attr _ => exact hrun
  | pseudoClass _ _ => rfl
  | _ => cases hfilter

/-- Two tests after a sibling combinator may stand for each other if they accept the same
elements. -/
theorem findAlike_sibling {sub other : String}
    (haccept : ∀ (settings : Settings) (t : Tree) (n : NodeId), t.isElement n = true →
      t.acceptsSibling settings (Selector.parse sub) n =
        t.acceptsSibling settings (Selector.parse other) n) (front rest : Group) :
    FindAlike (front ++ .adjacent sub :: rest) (front ++ .adjacent other :: rest) ∧
      FindAlike (front ++ .general sub :: rest) (front ++ .general other :: rest) := by
  have hsiblings := fun (settings : Settings) (t : Tree) (nodes : List NodeId) =>
    Tree.siblingsOf_congr (haccept settings t) nodes
  refine ⟨findAlike_of_run [.descendant] rfl rfl (fun settings draft nodes => ?_) front,
    findAlike_of_run [.descendant] rfl rfl (fun settings draft nodes => ?_) front⟩
  -- Behind `+` the search goes on from the next siblings that are accepted, and these are the same.
  · have hdraft : ∀ sub, draftToken settings draft (.adjacent sub) = pure (.procedural, draft) :=
      fun _ => rfl
    rw [run, run, hdraft, hdraft, pure_bind, pure_bind]
    simp only [(hsiblings settings _ _).1]
  -- Behind `~` it goes on from all later siblings that are accepted.
  · have hdraft : ∀ sub, draftToken settings draft (.general sub) = pure (.procedural, draft) :=
      fun _ => rfl
    rw [run, run, hdraft, hdraft, pure_bind, pure_bind]
    simp only [(hsiblings settings _ _).2]

end Query

namespace Selector

variable {c e : Char} {cs rest : List Char}

/-! ## The text in front -/

/-- Marks that are closed in front of a character that is no mark are closed. -/
theorem closes_of_concat {opening closing : Char} (hne : e ≠ closing)
    (h : Closes opening closing 0 (cs ++ [e])) : Closes opening closing 0 cs := by
  obtain ⟨front, hfront, hcount⟩ := h
  rcases List.prefix_concat_iff.mp hfront with rfl | hfront
  · refine ⟨cs, List.prefix_refl cs, ?_⟩
    have hclosing : [e].count closing = 0 := List.count_eq_zero.mpr (by simpa using hne.symm)
    rw [List.count_append, List.count_append, hclosing] at hcount
    omega
  · exact ⟨front, hfront, hcount⟩

/-- Brackets that are closed in front of a tight combinator are closed. -/
theorem enclosed_of_concat (he : isTight e = true) (h : Enclosed (cs ++ [e])) : Enclosed cs := by
  -- A tight combinator is one of the characters that separate, so no bracket ends in it.
  have hmem : e ∈ [',', ' ', '>', '+', '~', ':'] := by
    unfold isTight at he
    simp only [Bool.or_eq_true, beq_iff_eq] at he
    rcases he with (rfl | rfl) | rfl <;> decide
  have hstop : Separates [e] := fun d hd => Option.some.inj hd ▸ hmem
  have hbracket : e ≠ ']' := by
    rintro rfl
    cases he
  have hparenthesis : e ≠ ')' := by
    rintro rfl
    cases he
  have hspace : [e].head? ≠ some ' ' := by
    intro hhead
    obtain rfl := Option.some.inj hhead
    cases he
  generalize hall : cs ++ [e] = all at h
  induction h generalizing cs with
  | nil => exact absurd hall (List.append_ne_nil_of_right_ne_nil cs (List.cons_ne_nil e []))
  | @cons c tail hclosed _ ih =>
    cases cs with
    | nil => exact .nil
    | cons d ds =>
      obtain ⟨rfl, rfl⟩ := List.cons.inj hall
      -- The bracket that opens at the first character is closed without the combinator.
      have hclosed' : Closed d ds := by
        refine ⟨fun hd => closes_of_concat hbracket (hclosed.1 hd), fun hd back hback => ?_⟩
        have hdrop := (run_append (hstop.head? isIdChar rfl) ds).2
        rw [hback, List.cons_append] at hdrop
        exact closes_of_concat hparenthesis (hclosed.2 hd _ hdrop)
      have hread := lexeme_append hclosed' hstop fun _ _ => hspace
      exact .cons hclosed' (ih (congrArg Prod.snd hread).symm)

/-- A space that is read last is left, unless a tight combinator stands before it. -/
theorem getLast?_squeeze_space (cs : List Char) (tight pending : Bool) :
    ∀ d ∈ (squeeze tight pending (cs ++ [' '])).getLast?, d = ' ' ∨ isTight d = true := by
  have hne : ∀ (cs : List Char) (pending : Bool), squeeze false pending (cs ++ [' ']) ≠ [] := by
    intro cs
    induction cs with
    | nil => exact fun pending => List.cons_ne_nil _ _
    | cons c cs ih =>
      intro pending
      cases hc : Text.isBlank c with
      | true =>
        rw [List.cons_append, squeeze_blank hc]
        exact ih true
      | false =>
        rw [List.cons_append, squeeze_cons hc]
        exact List.append_ne_nil_of_right_ne_nil _ (List.cons_ne_nil _ _)
  induction cs generalizing tight pending with
  | nil =>
    intro d hd
    cases tight with
    | true => cases hd
    | false => exact .inl (Option.some.inj hd).symm
  | cons c cs ih =>
    cases hc : Text.isBlank c with
    | true =>
      rw [List.cons_append, squeeze_blank hc]
      exact ih tight true
    | false =>
      rw [List.cons_append, squeeze_cons hc,
        List.getLast?_append_of_ne_nil _ (List.cons_ne_nil _ _)]
      intro d hd
      cases hrest : squeeze (isTight c) false (cs ++ [' ']) with
      | nil =>
        -- Nothing is left behind a tight combinator.
        rw [hrest, List.getLast?_singleton] at hd
        rw [← Option.some.inj hd]
        cases htight : isTight c with
        | true => exact .inr rfl
        | false =>
          rw [htight] at hrest
          exact absurd hrest (hne cs false)
      | cons f fs =>
        rw [hrest, List.getLast?_cons_cons, ← hrest] at hd
        exact ih (isTight c) false d hd

/-- A space at the end of a text says nothing. -/
theorem normalize_concat_space (cs : List Char) : normalize (cs ++ [' ']) = normalize cs := by
  -- By induction over the text, with the state of the squeezing general.
  have hsqueeze : ∀ tight pending, Text.trimEnd (squeeze tight pending (cs ++ [' '])) =
      Text.trimEnd (squeeze tight pending cs) := by
    induction cs with
    | nil =>
      intro tight pending
      cases tight <;> cases pending <;> rfl
    | cons c cs ih =>
      intro tight pending
      cases hc : Text.isBlank c with
      | true => rw [List.cons_append, squeeze_blank hc, squeeze_blank hc, ih]
      -- A character that is not blank stays, and what is behind it is trimmed by itself.
      | false =>
        rw [List.cons_append, squeeze_cons hc, squeeze_cons hc, Text.trimEnd_append_cons hc,
          Text.trimEnd_append_cons hc, ih]
  unfold normalize Text.trim
  rw [← Text.trimStart_trimEnd, hsqueeze, Text.trimStart_trimEnd]

/-- In front of a tight combinator no space is left. -/
theorem inFront_concat_tight (he : isTight e = true) (cs : List Char) :
    inFront (cs ++ [e]) = normalize cs ++ [e] := by
  have hblank := isBlank_eq_false_of_isTight he
  -- By induction as above; at the end, the blank that is pending is dropped.
  have hsqueeze : ∀ tight pending, squeeze tight pending (cs ++ [e]) =
      Text.trimEnd (squeeze tight pending cs) ++ [e] := by
    induction cs with
    | nil =>
      intro tight pending
      have hnil : Text.trimEnd (squeeze tight pending []) = [] := by
        cases tight <;> cases pending <;> rfl
      rw [hnil, List.nil_append, squeeze_cons hblank, he, Bool.not_true, Bool.and_false]
      cases tight <;> rfl
    | cons c cs ih =>
      intro tight pending
      cases hc : Text.isBlank c with
      | true => rw [List.cons_append, squeeze_blank hc, squeeze_blank hc, ih]
      | false =>
        rw [List.cons_append, squeeze_cons hc, squeeze_cons hc, Text.trimEnd_append_cons hc, ih,
          List.append_assoc, List.cons_append]
  unfold inFront normalize Text.trim
  rw [hsqueeze, Text.trimStart_append_cons hblank, Text.trimStart_trimEnd]

/-- What is left of a text with a space or `>` at its end is nothing, or it ends in a combinator.
The brackets in front of that are closed if those of the text are. -/
theorem inFront_cases (h : Enclosed (normalize cs)) (he : e = ' ' ∨ e = '>') :
    inFront (cs ++ [e]) = [] ∨ ∃ front d, inFront (cs ++ [e]) = front ++ [d] ∧
      (d = ' ' ∨ isTight d = true) ∧ Enclosed front := by
  rcases he with rfl | rfl
  · have hlast : ∀ d ∈ (inFront (cs ++ [' '])).getLast?, d = ' ' ∨ isTight d = true :=
      fun d hd => getLast?_squeeze_space cs false false d
        (mem_getLast?_of_suffix (List.dropWhile_suffix _) hd)
    have heq := inFront_eq (cs ++ [' '])
    rw [normalize_concat_space] at heq
    split_ifs at heq with hspace
    -- A space is left, and the brackets in front of it are those of the text.
    · exact .inr ⟨normalize cs, ' ', heq, .inl rfl, h⟩
    · -- No space is left, so a tight combinator comes last.
      rw [List.append_nil] at heq
      rcases List.eq_nil_or_concat (inFront (cs ++ [' '])) with hnil | ⟨front, d, hfront⟩
      · exact .inl hnil
      rw [List.concat_eq_append] at hfront
      have hnormal : normalize cs = front ++ [d] := heq.symm.trans hfront
      have hmem : d ∈ (inFront (cs ++ [' '])).getLast? := by
        rw [hfront, List.getLast?_concat]
        rfl
      have hblank := (getLast?_normalize cs d (heq ▸ hmem)).1
      have htight : isTight d = true := (hlast d hmem).resolve_left fun hspace => by
        rw [hspace] at hblank
        cases hblank
      exact .inr ⟨front, d, hfront, .inr htight, enclosed_of_concat htight (hnormal ▸ h)⟩
  -- Nothing stands between the text and `>`.
  · exact .inr ⟨normalize cs, '>', inFront_concat_tight rfl cs, .inr rfl, h⟩

/-! ## The text behind -/

/-- A character that starts a token that filters. -/
def StartsFilter (c : Char) : Prop :=
  c ∈ ['.', '#', '[', ':']

/-- Such a character is plain, and no part of a type selector. -/
theorem StartsFilter.plain (h : StartsFilter c) : Plain c ∧ isTagChar c = false := by
  simp only [StartsFilter, List.mem_cons, List.not_mem_nil, or_false] at h
  rcases h with rfl | rfl | rfl | rfl
  all_goals exact ⟨⟨rfl, rfl⟩, rfl⟩

/-- Of the text behind such a character a token that filters is read. -/
theorem StartsFilter.lexeme_eq (h : StartsFilter c) (cs : List Char) :
    ∃ token rest, lexeme c cs = (.token token, rest) ∧ token.isFilter = true := by
  simp only [StartsFilter, List.mem_cons, List.not_mem_nil, or_false] at h
  rcases h with rfl | rfl | rfl | rfl
  · exact ⟨_, _, rfl, rfl⟩
  · exact ⟨_, _, rfl, rfl⟩
  · exact ⟨_, _, rfl, rfl⟩
  · have hfilter : (pseudoClass cs).1.isFilter = true := by
      unfold pseudoClass
      split
      · rfl
      · rfl
    exact ⟨_, _, rfl, hfilter⟩

/-- A `*` in front of such a text is read by itself. -/
theorem StartsFilter.lexemes_star (h : StartsFilter c) (cs : List Char) :
    lexemes ('*' :: c :: cs) = .token (.tag "*") :: lexemes (c :: cs) := by
  have htake : (c :: cs).takeWhile isTagChar = [] :=
    List.takeWhile_cons_of_neg (by simp [h.plain.2])
  have hdrop : (c :: cs).dropWhile isTagChar = c :: cs :=
    List.dropWhile_cons_of_neg (by simp [h.plain.2])
  have hstar : lexeme '*' (c :: cs) = (.token (.tag (String.ofList ('*' :: (c :: cs).takeWhile
      isTagChar))), (c :: cs).dropWhile isTagChar) := rfl
  rw [htake, hdrop] at hstar
  exact lexemes_of_lexeme hstar

/-- A text that starts with a token that filters is read alike behind a `*`. -/
theorem StartsFilter.split_eq (h : StartsFilter c) (cs : List Char) :
    ∃ token group groups, token.isFilter = true ∧
      split (lexemes (c :: cs)) = (token :: group) :: groups ∧
      split (lexemes ('*' :: c :: cs)) = (.tag "*" :: token :: group) :: groups := by
  obtain ⟨token, rest, hread, hfilter⟩ := h.lexeme_eq cs
  obtain ⟨group, groups, hsplit⟩ := exists_split (lexemes rest)
  have htoken : split (lexemes (c :: cs)) = (token :: group) :: groups := by
    rw [lexemes_of_lexeme hread]
    exact split_token hsplit
  refine ⟨token, group, groups, hfilter, htoken, ?_⟩
  rw [h.lexemes_star]
  exact split_token htoken

/-- A test after a sibling combinator accepts the elements that it accepts with a `*` in front of
it, if it starts with a token that filters or asks for nothing. -/
theorem acceptsSibling_star (hchars : ∀ d ∈ cs, isSiblingChar d = true)
    (hhead : ∀ d ∈ cs.head?, StartsFilter d) {t : Tree} {settings : Settings} {n : NodeId}
    (hn : t.isElement n = true) :
    t.acceptsSibling settings (parse (String.ofList cs)) n =
      t.acceptsSibling settings (parse (String.ofList ('*' :: cs))) n := by
  -- The characters of the test are not blank, so both texts are read as they stand.
  have hblank : ∀ d ∈ cs, Text.isBlank d = false := fun d hd =>
    (plain_of_isSiblingChar (hchars d hd)).1
  have hnormal : normalize cs = cs := normalize_eq hblank
  have hnormal' : normalize ('*' :: cs) = '*' :: cs :=
    normalize_eq (List.forall_mem_cons.mpr ⟨rfl, hblank⟩)
  have hparse : parse (String.ofList cs) = ⟨(split (lexemes cs)).map Group.complete⟩ := by
    rw [parse, String.toList_ofList, hnormal]
  have hparse' : parse (String.ofList ('*' :: cs)) =
      ⟨(split (lexemes ('*' :: cs))).map Group.complete⟩ := by
    rw [parse, String.toList_ofList, hnormal']
  rw [hparse, hparse']
  cases cs with
  -- The test asks for nothing, and so does the group that is left of `*`.
  | nil =>
    have hsplit : split (lexemes ['*']) = [[.tag "*"]] := by decide +kernel
    have hall : t.passesAll settings n [] = true := by
      obtain ⟨element, helement⟩ := Option.isSome_iff_exists.mp hn
      unfold Tree.passesAll
      rw [Tree.element?_eq_some_iff.mp helement]
      rfl
    have hnil : split (lexemes []) = [[]] := by rw [lexemes.eq_1, split]
    have hstar : Tree.acceptsSibling t settings ⟨[Group.complete [.tag "*"]]⟩ n = true := by
      rw [Tree.acceptsSibling_cons (Selector.complete_ne_nil (List.cons_ne_nil _ _))]
      show (t.passesAll settings n [.tag "*"] || _) = true
      rw [Tree.passesAll_star hn, hall, Bool.true_or]
    rw [hsplit, hnil]
    exact hstar.symm
  -- The test starts with a token that filters, and `*` in front of it lets every element pass.
  | cons c cs =>
    obtain ⟨token, group, groups, hfilter, hsplit, hsplit'⟩ := (hhead c rfl).split_eq cs
    rw [hsplit, hsplit', List.map_cons, List.map_cons,
      Tree.acceptsSibling_cons (Selector.complete_ne_nil (List.cons_ne_nil _ _)),
      Tree.acceptsSibling_cons (Selector.complete_ne_nil (List.cons_ne_nil _ _))]
    cases token with
    | id _ | classes _ | attr _ =>
      exact congrArg (· || _) (Tree.passesAll_star hn settings (_ :: group)).symm
    | pseudoClass _ _ => rfl
    | _ => cases hfilter

/-- A sibling combinator takes off the run of such a text, with a `*` that stands in front of it. -/
theorem StartsFilter.siblingTest_eq (h : StartsFilter c) (cs : List Char) :
    siblingTest (c :: cs) =
        (String.ofList ((c :: cs).takeWhile isSiblingChar),
          (c :: cs).dropWhile isSiblingChar) ∧
      siblingTest ('*' :: c :: cs) =
        (String.ofList ('*' :: (c :: cs).takeWhile isSiblingChar),
          (c :: cs).dropWhile isSiblingChar) := by
  have hc : c ≠ ' ' := by
    rintro rfl
    cases h.plain.1.1
  have hstar : isSiblingChar '*' = true := rfl
  have hspaces : (c :: cs).dropWhile (· == ' ') = c :: cs :=
    List.dropWhile_cons_of_neg (by simpa using hc)
  have hspaces' : ('*' :: c :: cs).dropWhile (· == ' ') = '*' :: c :: cs :=
    List.dropWhile_cons_of_neg (by decide)
  -- There are no spaces to take off, and the run goes through `*`.
  unfold siblingTest
  rw [hspaces, hspaces']
  dsimp only
  rw [List.takeWhile_cons_of_pos hstar, List.dropWhile_cons_of_pos hstar]
  exact ⟨rfl, rfl⟩

/-! ## The whole text -/

/-- Behind any parts, two lists of parts are read as the same groups but for one, which is alike. -/
def ReadAlike (parts others : List Lexeme) : Prop :=
  ∀ front : List Lexeme, ∃ groups group other more,
    split (front ++ parts) = groups ++ group :: more ∧
      split (front ++ others) = groups ++ other :: more ∧ Query.FindAlike group other

/-- Parts that start with a token each are read alike if the groups that they continue are alike. -/
theorem readAlike_token {token token' : Token} {parts others : List Lexeme} {group other : Group}
    {more : List Group} (hparts : split parts = group :: more)
    (hothers : split others = other :: more)
    (halike : ∀ front : Group,
      Query.FindAlike (front ++ token :: group) (front ++ token' :: other)) :
    ReadAlike (.token token :: parts) (.token token' :: others) := by
  intro front
  obtain ⟨groups, last, -, hjoin⟩ := split_append_token front
  exact ⟨groups, _, _, more, hjoin token hparts, hjoin token' hothers, halike last⟩

/-- Behind a combinator, a text that starts with a token that filters is read like the text with a
`*` in front of it. -/
theorem StartsFilter.readAlike (h : StartsFilter c) (he : e = ' ' ∨ isTight e = true)
    (cs : List Char) : ReadAlike (lexemes (e :: c :: cs)) (lexemes (e :: '*' :: c :: cs)) := by
  obtain ⟨token, group, groups, hfilter, hsplit, hsplit'⟩ := h.split_eq cs
  -- A combinator that is a token by itself: the two texts go on in the same way behind it.
  have hbehind : ∀ combinator : Token, combinator.isCombinator = true →
      (∀ cs, lexeme e cs = (.token combinator, cs)) →
        ReadAlike (lexemes (e :: c :: cs)) (lexemes (e :: '*' :: c :: cs)) := by
    intro combinator hcombinator hread
    rw [lexemes_of_lexeme (hread _), lexemes_of_lexeme (hread _)]
    exact readAlike_token hsplit hsplit' fun front =>
      Query.findAlike_behind hcombinator hfilter front group
  -- A sibling combinator: the two tests accept the same elements, and the rest is the same.
  have hsibling : ∀ make : String → Token,
      (∀ cs, lexeme e cs = (.token (make (siblingTest cs).1), (siblingTest cs).2)) →
      (∀ {sub other : String}, (∀ (settings : Settings) (t : Tree) (n : NodeId),
          t.isElement n = true → t.acceptsSibling settings (parse sub) n =
            t.acceptsSibling settings (parse other) n) →
        ∀ front rest, Query.FindAlike (front ++ make sub :: rest) (front ++ make other :: rest)) →
      ReadAlike (lexemes (e :: c :: cs)) (lexemes (e :: '*' :: c :: cs)) := by
    intro make hread halike
    obtain ⟨others, more, hrest⟩ := exists_split (lexemes ((c :: cs).dropWhile isSiblingChar))
    -- The run starts with the character `c`, if it is not empty.
    have hhead : ∀ d ∈ ((c :: cs).takeWhile isSiblingChar).head?, StartsFilter d := by
      intro d hd
      rw [List.takeWhile_cons] at hd
      split_ifs at hd
      · exact Option.some.inj hd ▸ h
      · cases hd
    rw [lexemes_of_lexeme (hread _), lexemes_of_lexeme (hread _), (h.siblingTest_eq cs).1,
      (h.siblingTest_eq cs).2]
    exact readAlike_token hrest hrest fun front => halike (fun settings t n hn =>
      acceptsSibling_star (fun _ => List.mem_takeWhile_imp) hhead hn) front others
  rcases he with rfl | htight
  · exact hbehind .descendant rfl fun _ => rfl
  unfold isTight at htight
  simp only [Bool.or_eq_true, beq_iff_eq] at htight
  rcases htight with (rfl | rfl) | rfl
  · exact hbehind .child rfl fun _ => rfl
  · exact hsibling .adjacent (fun _ => rfl) fun haccept front rest =>
      (Query.findAlike_sibling haccept front rest).1
  · exact hsibling .general (fun _ => rfl) fun haccept front rest =>
      (Query.findAlike_sibling haccept front rest).2

/-- A text that starts with a token that filters is read like the text with a `*` in front of it,
where nothing stands in front or what does ends with a combinator. -/
theorem StartsFilter.groups_alike (h : StartsFilter c) {front : List Char} (hneat : Neat front)
    (hfront : front = [] ∨ ∃ start d, front = start ++ [d] ∧ (d = ' ' ∨ isTight d = true) ∧
      Enclosed start) (cs : List Char) :
    ∃ groups group other more, split (lexemes (front ++ c :: cs)) = groups ++ group :: more ∧
      split (lexemes (front ++ '*' :: c :: cs)) = groups ++ other :: more ∧
      Query.FindAlike group other := by
  obtain ⟨token, group, more, hfilter, hsplit, hsplit'⟩ := h.split_eq cs
  have hstar := Query.findAlike_star hfilter group
  have hspace : (c == ' ') = false := by
    rw [beq_eq_false_iff_ne]
    rintro rfl
    cases h.plain.1.1
  rcases hfront with rfl | ⟨start, d, rfl, hd, henclosed⟩
  · exact ⟨[], _, _, more, hsplit, hsplit', hstar⟩
  -- The part in front of the combinator is read as it is by itself.
  have hstop : ∀ tail, Separates (d :: tail) := by
    intro tail e he
    obtain rfl := Option.some.inj he
    unfold isTight at hd
    simp only [Bool.or_eq_true, beq_iff_eq] at hd
    rcases hd with rfl | (rfl | rfl) | rfl <;> decide
  have hlast : ∀ (tail : List Char), ∀ e ∈ start.getLast?, Text.isBlank e = false ∧
      (isTight e = true → (d :: tail).head? ≠ some ' ') := by
    intro tail e he
    obtain ⟨hblank, htight⟩ := (neat_append.mp hneat).2.2 e he d rfl
    refine ⟨Bool.eq_false_iff.mpr fun he => ?_, fun he hspace => ?_⟩
    · obtain ⟨hblank, htight⟩ := hblank he
      rcases hd with rfl | hd
      · cases hblank
      · exact absurd hd (Bool.eq_false_iff.mp htight)
    · obtain rfl := Option.some.inj hspace
      cases htight he
  have hread : ∀ tail, lexemes (start ++ [d] ++ tail) =
      lexemes start ++ lexemes (behind (lexemes start) (d :: tail)) := by
    intro tail
    rw [List.append_assoc, List.singleton_append]
    exact lexemes_append henclosed (hstop tail) (hlast tail)
  rw [hread, hread]
  by_cases hcomma : (lexemes start).getLast? = some .comma ∧ d = ' '
  · -- The comma takes the space, and the group starts behind it.
    obtain ⟨hcomma, rfl⟩ := hcomma
    obtain ⟨parts, hparts⟩ := List.getLast?_eq_some_iff.mp hcomma
    have hbehind : ∀ e, (e == ' ') = false → ∀ tail,
        behind (lexemes start) (' ' :: e :: tail) = e :: tail := by
      intro e he tail
      rw [behind, if_pos hcomma, List.dropWhile_cons_of_pos rfl,
        List.dropWhile_cons_of_neg (by simp [he])]
    rw [hbehind c hspace, hbehind '*' rfl, hparts, List.append_assoc, List.append_assoc,
      List.singleton_append, List.singleton_append, split_append_comma, split_append_comma, hsplit,
      hsplit']
    exact ⟨split parts, _, _, more, rfl, rfl, hstar⟩
  · have hbehind : ∀ tail, behind (lexemes start) (d :: tail) = d :: tail := by
      intro tail
      unfold behind
      split_ifs with hlast
      · exact List.dropWhile_cons_of_neg (by simpa using fun hd => hcomma ⟨hlast, hd⟩)
      · rfl
    rw [hbehind, hbehind]
    exact h.readAlike hd cs (lexemes start)

/-- Two texts that differ in a `*` in front of a token that filters, at the start or behind a
combinator, are read as the same groups but for one, which is alike. -/
theorem parse_implied {u k v : String} (h : Enclosed (normalize u.toList))
    (hk : k = " " ∨ k = ">" ∨ u = "" ∧ k = "") (hv : ∃ c ∈ v.toList.head?, StartsFilter c) :
    ∃ groups group other more,
      parse (u ++ k ++ v) = ⟨(groups ++ group :: more).map Group.complete⟩ ∧
      parse (u ++ k ++ "*" ++ v) = ⟨(groups ++ other :: more).map Group.complete⟩ ∧
      Query.FindAlike group other := by
  obtain ⟨c, hc, hfilter⟩ := hv
  obtain ⟨cs, hcs⟩ := List.head?_eq_some_iff.mp hc
  have hplain := hfilter.plain.1
  -- What is left of the text in front does not depend on the `*`.
  have hnormal : normalize (u ++ k ++ v).toList = inFront (u ++ k).toList ++
      c :: Text.trimEnd (squeeze false false cs) := by
    rw [String.toList_append, hcs, normalize_append_plain hplain]
  have hnormal' : normalize (u ++ k ++ "*" ++ v).toList = inFront (u ++ k).toList ++
      '*' :: c :: Text.trimEnd (squeeze false false cs) := by
    have hstar : (u ++ k ++ "*" ++ v).toList = (u ++ k).toList ++ '*' :: c :: cs := by
      simp [hcs]
    rw [hstar, normalize_append_plain (by decide : Plain '*'), squeeze_cons hplain.1, hplain.2,
      Bool.false_and, Bool.false_and, if_neg Bool.false_ne_true, List.nil_append,
      Text.trimEnd_cons hplain.1]
  have hfront : inFront (u ++ k).toList = [] ∨ ∃ start d, inFront (u ++ k).toList = start ++ [d] ∧
      (d = ' ' ∨ isTight d = true) ∧ Enclosed start := by
    rcases hk with rfl | rfl | ⟨rfl, rfl⟩
    · rw [String.toList_append]
      exact inFront_cases h (.inl rfl)
    · rw [String.toList_append]
      exact inFront_cases h (.inr rfl)
    · exact .inl rfl
  obtain ⟨groups, group, other, more, hgroups, hgroups', halike⟩ :=
    hfilter.groups_alike (neat_inFront _) hfront (Text.trimEnd (squeeze false false cs))
  refine ⟨groups, group, other, more, ?_, ?_, halike⟩
  · rw [parse, hnormal, hgroups]
  · rw [parse, hnormal', hgroups']

end Selector

namespace Query

/-- Selectors that differ in one group find the same if the groups are alike. -/
theorem find_of_findAlike {group other : Group} (h : FindAlike group other)
    (groups more : List Group) (settings : Settings) (nodes : List NodeId) :
    find settings ⟨(groups ++ group :: more).map Group.complete⟩ nodes =
      find settings ⟨(groups ++ other :: more).map Group.complete⟩ nodes := by
  simp only [find, List.map_append, List.map_cons, findGroups_append, findGroups, h settings nodes]

/-- At the start of a selector and behind a space or `>`, wherever that stands, `*` may be left out
in front of a class, an id, a test of an attribute or a pseudo-class: the search finds the same
nodes in the same order, or stops with the same error, and gives the same warnings. -/
theorem find_implied_star (settings : Settings) {u k v : String}
    (h : Selector.Enclosed (Selector.normalize u.toList))
    (hk : k = " " ∨ k = ">" ∨ u = "" ∧ k = "")
    (hv : ∃ c ∈ v.toList.head?, Selector.StartsFilter c) (nodes : List NodeId) :
    find settings (Selector.parse (u ++ k ++ v)) nodes =
      find settings (Selector.parse (u ++ k ++ "*" ++ v)) nodes := by
  obtain ⟨groups, group, other, more, hparse, hparse', halike⟩ := Selector.parse_implied h hk hv
  rw [hparse, hparse']
  exact find_of_findAlike halike groups more settings nodes

/-- For one, behind `div, p +` the `*` is part of the test that `.a` is part of, and may be left
out. -/
theorem find_implied_star_adjacent :
    Selector.Enclosed (Selector.normalize "div, p +".toList) ∧
      Selector.parse ("div, p +" ++ " " ++ ".a") =
        ⟨[[.descendant, .tag "div"], [.descendant, .tag "p", .adjacent ".a"]]⟩ ∧
      Selector.parse ("div, p +" ++ " " ++ "*" ++ ".a") =
        ⟨[[.descendant, .tag "div"], [.descendant, .tag "p", .adjacent "*.a"]]⟩ ∧
      find .default (Selector.parse ("div, p +" ++ " " ++ ".a")) [.document] =
        find .default (Selector.parse ("div, p +" ++ " " ++ "*" ++ ".a")) [.document] := by
  have hnormal : Selector.normalize "div, p +".toList = "div, p+".toList := by decide +kernel
  have henclosed : Selector.Enclosed (Selector.normalize "div, p +".toList) := by
    rw [hnormal]
    exact .cons ⟨nofun, nofun⟩ (.cons ⟨nofun, nofun⟩ (.cons ⟨nofun, nofun⟩
      (.cons ⟨nofun, nofun⟩ .nil)))
  refine ⟨henclosed, by decide +kernel, by decide +kernel, ?_⟩
  exact find_implied_star .default henclosed (.inl rfl) ⟨'.', rfl, List.mem_cons_self⟩ [.document]

end Query

end TreeQuery
