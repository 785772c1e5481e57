import TreeQuery.Document
import TreeQuery.Proofs.CompoundOrder

/-!
# Walks and combinators

From a selection one gets on with a walk in the tree whose nodes a selector filters, or with a
search for a combinator and the same selector. A search reads the combinator as the axis of a path
and each test as a step or a predicate of that path, or evaluates what it has and looks at the nodes
itself; a filter looks at nodes alone. Both come out at the nodes that the walk meets and that pass
the tests, in the order of the walk (`meets_walk`, `meets_find_child`, `meets_find_siblings`), so
they make the same selection (`find_alike_walk`).
-/

namespace TreeQuery

/-! ## Reading -/

namespace Selector

variable {selector : String} {tests : List SimpleTest}

/-- What is completed to tests behind a combinator is the tests. -/
theorem eq_tests_of_complete {group : Group}
    (h : group.complete = .descendant :: tests.map (·.token)) :
    group = tests.map (·.token) ∧ tests ≠ [] := by
  cases group with
  | nil => cases h
  | cons token tokens =>
    have hne : tests ≠ [] := by
      rintro rfl
      cases token with
      | _ => cases h
    refine ⟨?_, hne⟩
    cases token with
    | child => cases h
    | pseudoClass name argument =>
      -- A pseudo-class is no test of single nodes.
      have htail := (List.cons.inj h).2
      have hmem : Token.pseudoClass name argument ∈ tests.map (·.token) :=
        htail ▸ List.mem_cons_of_mem _ List.mem_cons_self
      obtain ⟨test, -, htest⟩ := List.mem_map.mp hmem
      cases test with
      | _ => cases htest
    | _ => exact (List.cons.inj h).2

/-- The tokens of a text that is read as a compound. -/
theorem split_of_parse (h : parse selector = ⟨[.descendant :: tests.map (·.token)]⟩) :
    split (lexemes (normalize selector.toList)) = [tests.map (·.token)] ∧ tests ≠ [] := by
  obtain ⟨group, hsplit, hgroup⟩ := List.map_eq_singleton_iff.mp (Selector.mk.inj h)
  obtain ⟨rfl, hne⟩ := eq_tests_of_complete hgroup
  exact ⟨hsplit, hne⟩

/-- Behind `>` a compound is read as it is alone. -/
theorem parse_child (h : parse selector = ⟨[.descendant :: tests.map (·.token)]⟩) :
    parse ("> " ++ selector) = ⟨[.child :: tests.map (·.token)]⟩ := by
  have htext : ("> " ++ selector).toList = '>' :: ' ' :: selector.toList := String.toList_append
  have hchild : ∀ cs, lexeme '>' cs = (.token .child, cs) := fun _ => rfl
  unfold parse
  rw [htext, normalize_cons_space rfl, lexemes_of_lexeme (hchild _), split, (split_of_parse h).1]
  rfl

/-- Behind a sibling combinator its test is read, with white space between them or without. -/
theorem parse_sibling {c : Char} (token : Token) (sub : SiblingTest) (hc : isTight c = true)
    (hchars : token.chars = c :: sub.text.toList) (hread : token.Readable)
    (hstop : token.StopsAt none) :
    parse (String.ofList [c, ' '] ++ sub.text) = ⟨[Group.complete [token]]⟩ := by
  have htext : (String.ofList [c, ' '] ++ sub.text).toList = c :: ' ' :: sub.text.toList := by
    rw [String.toList_append, String.toList_ofList]
    rfl
  unfold parse
  rw [htext, normalize_cons_space hc,
    normalize_eq fun d hd => sub.isBlank_eq_false_of_mem_text hd, ← hchars,
    lexemes_chars_self token hread hstop]
  rfl

/-- The combinator `+` in front of a sibling test is read as one token with the text of the test. -/
theorem parse_adjacent (sub : SiblingTest) :
    parse ("+ " ++ sub.text) = ⟨[[.descendant, .adjacent sub.text]]⟩ :=
  parse_sibling (.adjacent sub.text) sub rfl rfl (fun _ hc => sub.isSiblingChar_of_mem_text hc)
    fun _ hc => nomatch hc

/-- The combinator `~` in front of a sibling test is read as one token with the text of the test. -/
theorem parse_general (sub : SiblingTest) :
    parse ("~ " ++ sub.text) = ⟨[[.descendant, .general sub.text]]⟩ :=
  parse_sibling (.general sub.text) sub rfl rfl (fun _ hc => sub.isSiblingChar_of_mem_text hc)
    fun _ hc => nomatch hc

/-- A text that is read as a group with tokens has more than blanks. -/
theorem isBlankText_eq_false {group : Group} (h : parse selector = ⟨[group]⟩) (hne : group ≠ []) :
    Selection.isBlankText selector = false := by
  refine Bool.eq_false_iff.mpr fun hblank => hne ?_
  have hnil : normalize selector.toList = [] := normalize_eq_nil (List.isEmpty_iff.mp hblank)
  unfold parse at h
  rw [hnil, lexemes] at h
  exact (List.cons.inj (Selector.mk.inj h)).1.symm

end Selector

namespace Query

variable {t : Tree} {settings : Settings} {tests : List SimpleTest} {nodes : List NodeId}

/-! ## Filtering -/

/-- No test of single nodes narrows a list. -/
theorem narrowAll_tests (settings : Settings) (tests : List SimpleTest) (nodes : List NodeId) :
    narrowAll settings (tests.map (·.token)) nodes = pure nodes := by
  induction tests with
  | nil =>
    rw [List.map_nil, narrowAll]
  | cons test tests ih =>
    rw [List.map_cons]
    cases test with
    | _ =>
      rw [SimpleTest.token, narrowAll]
      · exact ih
      · intro name argument htoken
        cases htoken

/-- A filter by tests of single nodes keeps the nodes that pass them, each once, and leaves the
session as it is. -/
theorem keep_tests_eq {group : Group} (hgroup : group.simpleTokens = tests.map (·.token))
    (hne : group ≠ []) (settings : Settings) (nodes : List NodeId) (s : Session) :
    keep settings ⟨[group]⟩ nodes s =
      .ok ((NodeSet.ofList nodes).nodes.filter fun n =>
        s.tree.passesAll settings n (tests.map (·.token))) s := by
  have hkept : keepGroups settings [group] nodes =
      (do let t ← tree
          return nodes.filter fun n => t.passesAll settings n (tests.map (·.token))) := by
    rw [keepGroups, if_neg (mt List.isEmpty_iff.mp hne)]
    dsimp only
    rw [hgroup, keepGroups]
    simp [narrowAll_tests]
  unfold keep
  rw [hkept, ← NodeSet.nodes_ofList_filter]
  rfl

/-- A compound keeps the nodes that pass its tests. -/
theorem meets_keep_tests (settings : Settings) (tests : List SimpleTest) (nodes : List NodeId) :
    Meets t (keep settings ⟨[.descendant :: tests.map (·.token)]⟩ nodes)
      (· = (NodeSet.ofList nodes).nodes.filter fun n =>
        t.passesAll settings n (tests.map (·.token))) Never := by
  rintro s rfl
  have hgroup : Group.simpleTokens (.descendant :: tests.map (·.token)) =
      tests.map (·.token) := rfl
  rw [keep_tests_eq hgroup (List.cons_ne_nil _ _)]
  exact ⟨rfl, rfl⟩

/-- A walk meets nodes, of which it keeps those that pass the tests of a compound. -/
theorem meets_walk {selector : String}
    (h : Selector.parse selector = ⟨[.descendant :: tests.map (·.token)]⟩)
    (step : Tree → NodeId → List NodeId) (selection : Selection) :
    Meets t (selection.walk settings step (some selector))
      (· = selection.derive
        ((NodeSet.ofList (selection.nodes.flatMap (step t))).nodes.filter fun n =>
          t.passesAll settings n (tests.map (·.token)))) Never := by
  unfold Selection.walk Selection.refine
  refine Meets.bind (.tree rfl) fun u hu => ?_
  subst hu
  dsimp only
  rw [Selector.isBlankText_eq_false h (List.cons_ne_nil _ _), if_neg Bool.false_ne_true, h]
  refine (meets_keep_tests settings tests _).bind fun kept hkept => .pure ?_
  rw [hkept, NodeSet.nodes_ofList (NodeSet.nodup _)]

/-! ## Searching -/

/-- One group by itself finds what its tokens find. -/
theorem meets_findGroups_group {group : Group} {post : List NodeId → Prop}
    (h : Meets t (run settings group {} nodes) post Never) :
    Meets t (findGroups settings [group] nodes) post Never := by
  rw [findGroups]
  refine h.bind fun found hfound => ?_
  rw [findGroups]
  refine Meets.bind (.pure rfl) fun more hmore => .pure ?_
  subst hmore
  rwa [List.append_nil]

/-- A selector of one group finds what the group finds, each node once. -/
theorem meets_find_group {group : Group} {post : List NodeId → Prop}
    (h : Meets t (run settings group {} nodes) post Never) :
    Meets t (find settings ⟨[group]⟩ nodes)
      (fun found => ∃ run, post run ∧ found = (NodeSet.ofList run).nodes) Never := by
  unfold find
  exact (meets_findGroups_group h).bind fun found hfound => .pure ⟨found, hfound, rfl⟩

/-- From elements and documents, one group finds what its tokens lead to. -/
theorem Reads.meets_findGroups {group : Group} {goesTo : NodeId → NodeId → Prop}
    (h : Reads t settings group none goesTo) (hnodes : ∀ n ∈ nodes, t.Followable n) :
    Meets t (findGroups settings [group] nodes)
      (fun found => ∀ e, e ∈ found ↔ ∃ n ∈ nodes, goesTo n e) Never := by
  refine meets_findGroups_group ((h {} nodes rfl hnodes).weaken (fun found hfound e => ?_)
    fun _ he => he)
  rw [hfound e]
  refine exists_congr fun n => and_congr_right fun _ => ?_
  constructor
  · rintro ⟨m, hnm, hgoes⟩
    obtain rfl : n = m := hnm
    exact hgoes
  · exact fun hgoes => ⟨n, rfl, hgoes⟩

/-- From the document node, following steps finds what they lead to. -/
theorem meets_follow_document (h : t.WellFormed) (settings : Settings) (steps : List Step) :
    Meets t (follow settings steps [.document]) (· = t.reached steps [.document]) Never := by
  refine meets_follow_of fun n hn => ?_
  obtain rfl := List.mem_singleton.mp hn
  have htop : t.top .document = .document := Tree.top_of_free h.parent_document
  have hattach : Mount.attach t .document = .ok ⟨t, none⟩ :=
    Mount.attach_eq_ok_of_isRoot h.size_pos (htop.symm ▸ h.isRoot_document)
  have hdocument : t.isDocument .document = true := Tree.isDocument_iff.mpr h.document
  have hpath : t.positionalPath .document = .ok (LocationPath.root.join []) := by
    refine Tree.positionalPath_eq_ok_iff.mpr ⟨h.size_pos, [], ?_, rfl⟩
    rw [Tree.climb, if_pos hdocument, if_pos rfl]
  exact meets_followFrom_of_path h (.inr hdocument) hattach hpath settings steps

/-- So does following a draft. -/
theorem meets_followDraft_document (h : t.WellFormed) (settings : Settings) (draft : Draft) :
    Meets t (followDraft settings draft [.document]) (· = draft.reached t [.document]) Never := by
  unfold followDraft Draft.reached
  split_ifs
  · exact .pure rfl
  · exact meets_follow_document h settings draft.steps

/-- A search from the document node for a test that a draft takes in without a narrowing finds the
elements below it that pass the test. -/
theorem meets_find_test (h : t.WellFormed) {test : SimpleTest}
    (hadd : (Draft.add settings ⟨[], some .descendant⟩ test.token).1 = .structural) :
    Meets t (find settings ⟨[[.descendant, test.token]]⟩ [.document])
      (fun found => found.Nodup ∧ ∀ e, e ∈ found ↔
        t.Above .document e ∧ t.isElement e = true ∧ test.Holds t settings e) Never := by
  obtain ⟨drafted, -, ⟨hdrafted, hleads⟩ | ⟨narrowing, hnarrow, -⟩⟩ :=
    test.add_token h settings ⟨[], some .descendant⟩
  · -- The combinator and the test are in the draft, which the end of the group evaluates.
    have hdescendant : (Draft.mk [] none).add settings .descendant =
        (.structural, ⟨[], some .descendant⟩) := rfl
    have hrun : Meets t (run settings [.descendant, test.token] {} [.document])
        (· = drafted.reached t [.document]) Never := by
      refine meets_run_structural hdescendant rfl (meets_run_structural hdrafted rfl ?_)
      rw [run, if_neg (by decide)]
      exact meets_followDraft_document h settings drafted
    have hdocument : ∀ n ∈ [NodeId.document], t.Followable n := fun n hn =>
      List.mem_singleton.mp hn ▸ .inr (Tree.isDocument_iff.mpr h.document)
    refine (meets_find_group hrun).weaken ?_ fun _ he => he
    rintro _ ⟨_, rfl, rfl⟩
    refine ⟨NodeSet.nodup _, fun e => ?_⟩
    rw [NodeSet.mem_ofList, finds_draft_reached drafted hdocument e]
    constructor
    · rintro ⟨n, hn, hsteps⟩
      obtain rfl := List.mem_singleton.mp hn
      obtain ⟨k, hk, ⟨habove, helement⟩, hholds⟩ := (hleads _ _).mp hsteps
      obtain rfl : _ = k := hk
      exact ⟨habove, helement, hholds⟩
    · rintro ⟨habove, helement, hholds⟩
      exact ⟨.document, List.mem_singleton_self _,
        (hleads _ _).mpr ⟨.document, rfl, ⟨habove, helement⟩, hholds⟩⟩
  -- A test that narrows is not in the draft, against what is assumed of it.
  · rw [hnarrow] at hadd
    cases hadd

/-- Behind a combinator the tests of a compound leave of the nodes on its axis those that pass all
of them. -/
theorem meets_find_axis (h : t.Loaded) {token : Token} {axis : Axis}
    (hadd : (Draft.mk [] none).add settings token = (.structural, ⟨[], some axis⟩))
    (hne : tests ≠ []) (nodes : List NodeId) :
    Meets t (find settings ⟨[token :: tests.map (·.token)]⟩ nodes)
      (fun found => Agree (axis ≠ .descendant) found
        ((t.reached [{ axis, test := .any }] nodes).filter (SimpleTest.holdAll t settings tests)))
      Never := by
  have hrun : Meets t (run settings (token :: tests.map (·.token)) {} nodes)
      (fun found => Agree (axis ≠ .descendant) found
        ((t.reached [{ axis, test := .any }] nodes).filter (SimpleTest.holdAll t settings tests)))
      Never := by
    refine meets_run_of_nonempty (by rintro rfl; exact .refl _ _) fun hempty => ?_
    -- The axis waits in a draft without steps, so the tests start from the nodes on it.
    refine meets_run_structural hadd hempty ?_
    refine (meets_run_tests h tests ⟨[], some axis⟩ nodes (fun hnil => absurd hnil hne)
      nofun).weaken (fun found hfound => ?_) fun _ he => he
    exact hfound.mono fun haxis => Draft.level_append.mpr haxis
  refine (meets_find_group hrun).weaken ?_ fun _ he => he
  rintro _ ⟨found, hfound, rfl⟩
  exact hfound.ofList ((NodeSet.nodup _).filter _)

/-- A sibling combinator leads from the nodes at hand to their siblings. -/
theorem meets_find_sibling (h : t.Loaded) {token : Token}
    (htoken : (∃ sub, token = .adjacent sub) ∨ ∃ sub, token = .general sub)
    (nodes : List NodeId) :
    Meets t (find settings ⟨[[.descendant, token]]⟩ nodes)
      (· = (NodeSet.ofList (t.siblingsOf settings token nodes)).nodes) Never := by
  have hrun : Meets t (run settings [.descendant, token] {} nodes)
      (· = t.siblingsOf settings token nodes) Never := by
    have hnone : t.siblingsOf settings token [] = [] := by
      rcases htoken with ⟨sub, rfl⟩ | ⟨sub, rfl⟩
      · rfl
      · rfl
    refine meets_run_of_nonempty (by rintro rfl; exact hnone.symm) fun hempty => ?_
    -- The axis of the first combinator waits for a step in vain.
    have hadd : (Draft.mk [] none).add settings .descendant =
        (.structural, ⟨[], some .descendant⟩) := rfl
    refine meets_run_structural hadd hempty ?_
    refine meets_run_sibling h htoken hempty ?_
    rw [run]
    split_ifs
    · exact .pure rfl
    · exact .pure rfl
  refine (meets_find_group hrun).weaken ?_ fun _ he => he
  rintro _ ⟨found, rfl, rfl⟩
  rfl

end Query

/-! ## The nodes on an axis -/

namespace Tree

variable {t : Tree} {settings : Settings} {tests : List SimpleTest} {nodes : List NodeId}
  {n m : NodeId}

/-- A parent in a tree made of markup is an element or the document node. -/
theorem Loaded.followable_of_parent? (h : t.Loaded) (hp : t.parent? m = some n) :
    t.Followable n := by
  have hne : m ≠ .document := h.ne_document_of_parent? hp
  obtain ⟨p, hparent, hcases⟩ := h.hangs (h.child_lt_size (h.mem_children.mpr hp)) hne
  obtain rfl := Option.some.inj (hp.symm.trans hparent)
  rcases hcases with rfl | helement
  · exact .inr (isDocument_iff.mpr h.document)
  · exact .inl helement

/-- So is a node with others below it. -/
theorem Loaded.followable_of_above (h : t.Loaded) (habove : t.Above n m) : t.Followable n := by
  obtain ⟨c, hc, -⟩ := (above_iff_child h.toWellFormed).mp habove
  exact h.followable_of_parent? (h.mem_children.mp hc)

/-- The step to the children that are elements leads to them, in order. -/
theorem Loaded.followOn_child (h : t.Loaded) (n : NodeId) :
    t.followOn [{ axis := .child, test := .any }] n = t.elementChildren n := by
  by_cases hn : t.Followable n
  · have hpasses : ∀ m, t.passes false .any m = t.isElement m := by
      intro m
      unfold passes isElement
      cases t.element? m with
      | none => rfl
      | some element => rfl
    rw [followOn_eq hn]
    show t.selectFrom _ [n] = _
    rw [h.toWellFormed.selectFrom_singleton]
    exact List.filter_congr fun m _ => hpasses m
  · -- Another node has no children that a walk could meet.
    have hnone : t.children n = [] := List.eq_nil_iff_forall_not_mem.mpr fun m hm =>
      hn (h.followable_of_parent? (h.mem_children.mp hm))
    rw [followOn_eq_nil hn, elementChildren, hnone]
    rfl

/-- That step leads from several nodes to the children that a walk meets, in the order of the
walk. -/
theorem Loaded.reached_child (h : t.Loaded) (nodes : List NodeId) :
    t.reached [{ axis := .child, test := .any }] nodes =
      (NodeSet.ofList (nodes.flatMap t.elementChildren)).nodes := by
  unfold reached
  rw [List.flatMap_congr fun n _ => h.followOn_child n]

/-- The step to all nodes below leads to the elements among them. -/
theorem Loaded.mem_reached_descendant (h : t.Loaded) :
    m ∈ t.reached [{ axis := .descendant, test := .any }] nodes ↔
      t.isElement m = true ∧ ∃ n ∈ nodes, t.Above n m := by
  have haxis : ∀ n, t.StepsTo [{ axis := .descendant, test := .any }] n m ↔
      t.Above n m ∧ t.isElement m = true := by
    intro n
    rw [stepsTo_singleton, h.toWellFormed.mem_select, and_iff_left (passes_any m)]
    rfl
  rw [mem_reached]
  simp only [haxis]
  constructor
  · rintro ⟨n, hn, -, habove, helement⟩
    exact ⟨helement, n, hn, habove⟩
  · rintro ⟨helement, n, hn, habove⟩
    exact ⟨n, hn, h.followable_of_above habove, habove, helement⟩

/-- The next element siblings that pass the tests, in the order of a walk. -/
theorem siblingsOf_adjacent_eq (sub : SiblingTest) (hne : sub.tests ≠ []) :
    t.siblingsOf settings (.adjacent sub.text) nodes =
      (NodeSet.ofList (nodes.flatMap fun n => (t.nextElement? n).toList)).nodes.filter fun n =>
        t.passesAll settings n (sub.tests.map (·.token)) := by
  unfold siblingsOf
  dsimp only
  rw [sub.acceptsSibling_eq hne, List.filterMap_eq_flatMap_toList, ← NodeSet.nodes_ofList_filter,
    List.filter_flatMap]
  unfold adjacentSibling?
  simp only [Option.toList_filter]

/-- The later element siblings that pass the tests, in the order of a walk. -/
theorem siblingsOf_general_eq (sub : SiblingTest) (hne : sub.tests ≠ []) :
    t.siblingsOf settings (.general sub.text) nodes =
      (NodeSet.ofList (nodes.flatMap t.followingElements)).nodes.filter fun n =>
        t.passesAll settings n (sub.tests.map (·.token)) := by
  unfold siblingsOf
  dsimp only
  rw [sub.acceptsSibling_eq hne, ← NodeSet.nodes_ofList_filter, List.filter_flatMap]
  rfl

end Tree

/-! ## Tests that a filter takes for what they are -/

namespace SimpleTest

variable {t : Tree} {settings : Settings} {tests : List SimpleTest}

/-- An id that is not empty, or another test that does not ask for the type of a node. -/
def Ordinary : SimpleTest → Prop
  | id name => name ≠ ""
  | attr test => ¬ (test.name = "nodeType" ∧ test.comparison = .equal)
  | tag _ _ | classes _ => True

/-- With settings that suit the tree, a filter asks the same by such a test as a search. -/
theorem Ordinary.askedAlike {test : SimpleTest} (h : test.Ordinary)
    (hsettings : settings.namespaceAware = t.flavour.namespaceAware) :
    test.AskedAlike t settings := by
  cases test with
  | tag name valid => exact .inr hsettings
  | id name => exact h
  | classes names => exact trivial
  | attr test =>
    have hcode : (test.name == "nodeType" && test.comparison == .equal) = false := by
      refine Bool.eq_false_iff.mpr fun hboth => h ?_
      rwa [Bool.and_eq_true, beq_iff_eq, beq_iff_eq] at hboth
    exact if_neg (Bool.eq_false_iff.mp hcode)

/-- Of elements, a search and a filter leave the same ones. -/
theorem filter_holdAll (hordinary : ∀ test ∈ tests, test.Ordinary)
    (hsettings : settings.namespaceAware = t.flavour.namespaceAware) {nodes : List NodeId}
    (helements : ∀ n ∈ nodes, t.isElement n = true) :
    nodes.filter (holdAll t settings tests) =
      nodes.filter fun n => t.passesAll settings n (tests.map (·.token)) := by
  refine List.filter_congr fun n hn => Bool.eq_iff_iff.mpr ?_
  have halike : ∀ test ∈ tests, test.AskedAlike t settings := fun test htest =>
    (hordinary test htest).askedAlike hsettings
  rw [passesAll_iff halike (helements n hn)]
  unfold holdAll
  rw [List.all_eq_true]
  simp only [decide_eq_true_iff]

end SimpleTest

/-! ## The same selection -/

/-- Two searches succeed from a session, with the same result. -/
def Query.Alike {α : Type} (first second : Query α) (s : Session) : Prop :=
  ∃ result s₁ s₂, first s = .ok result s₁ ∧ second s = .ok result s₂

/-- Searches that no error stops, and that promise the same result, give it. -/
theorem Query.Meets.alike {α : Type} {t : Tree} {first second : Query α} {result : α}
    (hfirst : Meets t first (· = result) Never) (hsecond : Meets t second (· = result) Never)
    {s : Session} (hs : s.tree = t) : Alike first second s := by
  obtain ⟨_, s₁, hok₁, -, rfl⟩ := hfirst.exists_ok hs
  obtain ⟨_, s₂, hok₂, -, rfl⟩ := hsecond.exists_ok hs
  exact ⟨_, s₁, s₂, hok₁, hok₂⟩

namespace Selection

variable {t : Tree} {settings : Settings} {tests : List SimpleTest}

/-- The elements below the selected nodes. -/
def elementsBelow (t : Tree) (selection : Selection) : Selection :=
  ofNodes ((selection.nodes.flatMap t.descendants).filter t.isElement)

/-- Below the selection are the elements that lie below one of its nodes. -/
theorem mem_elementsBelow (h : t.WellFormed) {selection : Selection} {m : NodeId} :
    m ∈ (selection.elementsBelow t).nodes ↔
      t.isElement m = true ∧ ∃ n ∈ selection.nodes, t.Above n m := by
  show m ∈ (NodeSet.ofList _).nodes ↔ _
  rw [NodeSet.mem_ofList, List.mem_filter, List.mem_flatMap, and_comm]
  simp only [h.mem_descendants]

/-- What a selector finds follows the selection. -/
theorem meets_find {selector : String} {parsed : Selector} {post : List NodeId → Prop}
    (hparse : Selector.parse selector = parsed) {selection : Selection}
    (h : Query.Meets t (Query.find settings parsed selection.nodes) post Query.Never) :
    Query.Meets t (selection.find settings selector)
      (fun found => ∃ nodes, post nodes ∧ found = selection.derive nodes) Query.Never := by
  unfold find findFrom
  rw [hparse]
  exact h.bind fun nodes hnodes => .pure ⟨nodes, hnodes, rfl⟩

/-- A search for children that pass tests makes the selection that the walk to the children makes
with those tests. -/
theorem meets_find_child (h : t.Loaded)
    (hsettings : settings.namespaceAware = t.flavour.namespaceAware) {selector : String}
    (hparse : Selector.parse selector = ⟨[.descendant :: tests.map (·.token)]⟩)
    (hordinary : ∀ test ∈ tests, test.Ordinary) (selection : Selection) :
    Query.Meets t (selection.find settings ("> " ++ selector))
      (· = selection.derive
        ((NodeSet.ofList (selection.nodes.flatMap t.elementChildren)).nodes.filter fun n =>
          t.passesAll settings n (tests.map (·.token)))) Query.Never := by
  have hadd : (Draft.mk [] none).add settings .child = (.structural, ⟨[], some .child⟩) := rfl
  -- The search for children with no test behind them, to which the tests are then put.
  have haxis := Query.meets_find_axis h hadd (Selector.split_of_parse hparse).2 selection.nodes
  refine (meets_find (Selector.parse_child hparse) haxis).weaken ?_ fun _ he => he
  rintro _ ⟨found, ⟨-, hfound⟩, rfl⟩
  rw [hfound nofun, h.reached_child, SimpleTest.filter_holdAll hordinary hsettings]
  intro n hn
  obtain ⟨p, -, hn⟩ := List.mem_flatMap.mp (NodeSet.mem_ofList.mp hn)
  exact (List.mem_filter.mp hn).2

/-- A search for nodes below that pass tests finds the elements below that a filter keeps. -/
theorem meets_find_descendant (h : t.Loaded)
    (hsettings : settings.namespaceAware = t.flavour.namespaceAware) {selector : String}
    (hparse : Selector.parse selector = ⟨[.descendant :: tests.map (·.token)]⟩)
    (hordinary : ∀ test ∈ tests, test.Ordinary) (selection : Selection) :
    Query.Meets t (selection.find settings selector)
      (fun found => ∀ m, m ∈ found.nodes ↔ m ∈ (selection.elementsBelow t).nodes.filter fun n =>
        t.passesAll settings n (tests.map (·.token))) Query.Never := by
  have hadd : (Draft.mk [] none).add settings .descendant =
      (.structural, ⟨[], some .descendant⟩) := rfl
  have haxis := Query.meets_find_axis h hadd (Selector.split_of_parse hparse).2 selection.nodes
  refine (meets_find hparse haxis).weaken ?_ fun _ he => he
  -- The nodes are the same, but a step to all nodes below lists them in an order of its own.
  rintro _ ⟨found, ⟨hfound, -⟩, rfl⟩ m
  have helements : ∀ n ∈ (selection.elementsBelow t).nodes, t.isElement n = true := fun n hn =>
    ((mem_elementsBelow h.toWellFormed).mp hn).1
  rw [← SimpleTest.filter_holdAll hordinary hsettings helements]
  show m ∈ found ↔ _
  rw [hfound, List.mem_filter, List.mem_filter, h.mem_reached_descendant,
    mem_elementsBelow h.toWellFormed]

/-- A search for siblings makes the selection that a walk makes, if a sibling combinator leads to
what is left of the nodes that the walk meets. -/
theorem meets_find_siblings (h : t.Loaded) {token : Token}
    (htoken : (∃ sub, token = .adjacent sub) ∨ ∃ sub, token = .general sub) {selector : String}
    (hparse : Selector.parse selector = ⟨[[.descendant, token]]⟩) {selection : Selection}
    {met : List NodeId} {p : NodeId → Bool}
    (hmet : t.siblingsOf settings token selection.nodes = (NodeSet.ofList met).nodes.filter p) :
    Query.Meets t (selection.find settings selector)
      (· = selection.derive ((NodeSet.ofList met).nodes.filter p)) Query.Never := by
  refine (meets_find hparse (Query.meets_find_sibling h htoken _)).weaken ?_ fun _ he => he
  rintro _ ⟨_, rfl, rfl⟩
  rw [hmet, NodeSet.nodes_ofList ((NodeSet.nodup _).filter _)]

/-- **Walks and combinators agree** on every selection from a document made of markup. With a
compound of ordinary tests, a search for children makes the selection that the walk to the children
makes, and a search for nodes below finds the elements below that a filter keeps. With a type
selector and a run of classes, of which one may be missing, searches for siblings make the
selections that the walks to the siblings make. -/
theorem find_alike_walk {flavour : Flavour} {markup : Markup}
    (hbuild : Markup.build? flavour markup = .ok t) (selection : Selection) (s : Session)
    (hs : s.tree = t) :
    (∀ (selector : String) (tests : List SimpleTest),
      Selector.parse selector = ⟨[.descendant :: tests.map (·.token)]⟩ →
      (∀ test ∈ tests, test.Ordinary) →
        Query.Alike (selection.find (Document.ofTree t).settings ("> " ++ selector))
          (selection.children (Document.ofTree t).settings (some selector)) s ∧
        ∃ found kept s₁ s₂,
          selection.find (Document.ofTree t).settings selector s = .ok found s₁ ∧
          (selection.elementsBelow t).filter (Document.ofTree t).settings selector s =
            .ok kept s₂ ∧
          ∀ m, m ∈ found.nodes ↔ m ∈ kept.nodes) ∧
    ∀ sub : SiblingTest, sub.tests ≠ [] →
      Query.Alike (selection.find (Document.ofTree t).settings ("+ " ++ sub.text))
        (selection.next (Document.ofTree t).settings (some sub.text)) s ∧
      Query.Alike (selection.find (Document.ofTree t).settings ("~ " ++ sub.text))
        (selection.nextAll (Document.ofTree t).settings (some sub.text)) s := by
  have h : t.Loaded := Tree.loaded_build? hbuild
  have hsettings : (Document.ofTree t).settings.namespaceAware = t.flavour.namespaceAware := rfl
  constructor
  -- A compound of tests: for children the two make the same selection, for nodes below both are
  -- read off what lies below the selection.
  · intro selector tests hparse hordinary
    constructor
    · exact (meets_find_child h hsettings hparse hordinary selection).alike
        (Query.meets_walk hparse _ selection) hs
    · have hdescendant := meets_find_descendant h hsettings hparse hordinary selection
      obtain ⟨found, s₁, hok₁, -, hfound⟩ := hdescendant.exists_ok hs
      have hfilter : Query.Meets t
          ((selection.elementsBelow t).filter (Document.ofTree t).settings selector)
          (fun kept => kept.nodes = (selection.elementsBelow t).nodes.filter fun n =>
            t.passesAll (Document.ofTree t).settings n (tests.map (·.token))) Query.Never := by
        unfold filter
        rw [hparse]
        refine (Query.meets_keep_tests _ tests _).bind fun kept hkept => .pure ?_
        rw [hkept, NodeSet.nodes_ofList]
        · rfl
        · exact NodeSet.nodup _
      obtain ⟨kept, s₂, hok₂, -, hkept⟩ := hfilter.exists_ok hs
      exact ⟨found, kept, s₁, s₂, hok₁, hok₂, hkept ▸ hfound⟩
  -- A test of siblings: the search has the tests in the combinator and the walk has them behind it.
  · intro sub hne
    have hparse : Selector.parse sub.text = ⟨[.descendant :: sub.tests.map (·.token)]⟩ := by
      rw [sub.parse_text, SiblingTest.complete_tests _ hne]
    constructor
    · exact (meets_find_siblings h (.inl ⟨_, rfl⟩) (Selector.parse_adjacent sub)
        (Tree.siblingsOf_adjacent_eq sub hne)).alike (Query.meets_walk hparse _ selection) hs
    · exact (meets_find_siblings h (.inr ⟨_, rfl⟩) (Selector.parse_general sub)
        (Tree.siblingsOf_general_eq sub hne)).alike (Query.meets_walk hparse _ selection) hs

/-- For one, in a list with two items, from the list and from its first item. -/
theorem find_alike_walk_items :
    ∃ t, Markup.build? .html (.element "ul" .empty
        [.element "LI" (.ofList [("class", "a b"), ("lang", "en")]) [], .text "and",
          .element "li" (.ofList [("class", "b")]) []]) = .ok t ∧
      Selector.parse "li.a[lang]" =
        ⟨[[.descendant, .tag "li", .classes "a", .attr ⟨"lang", .present, ""⟩]]⟩ ∧
      Query.Alike ((start [1, 2]).find (Document.ofTree t).settings ("> " ++ "li.a[lang]"))
        ((start [1, 2]).children (Document.ofTree t).settings (some "li.a[lang]")) { tree := t } ∧
      (∃ found kept s₁ s₂,
        (start [1, 2]).find (Document.ofTree t).settings "li.a[lang]" { tree := t } =
          .ok found s₁ ∧
        ((start [1, 2]).elementsBelow t).filter (Document.ofTree t).settings "li.a[lang]"
          { tree := t } = .ok kept s₂ ∧
        ∀ m, m ∈ found.nodes ↔ m ∈ kept.nodes) ∧
      Query.Alike ((start [1, 2]).find (Document.ofTree t).settings ("+ " ++ "li.b"))
        ((start [1, 2]).next (Document.ofTree t).settings (some "li.b")) { tree := t } := by
  obtain ⟨t, hbuild⟩ : ∃ t, Markup.build? .html (.element "ul" .empty
      [.element "LI" (.ofList [("class", "a b"), ("lang", "en")]) [], .text "and",
        .element "li" (.ofList [("class", "b")]) []]) = .ok t := ⟨_, rfl⟩
  have hparse : Selector.parse "li.a[lang]" =
      ⟨[[.descendant, .tag "li", .classes "a", .attr ⟨"lang", .present, ""⟩]]⟩ := by
    -- The selector is read token by token, as `lexemes` is no structural recursion.
    have hnormal : Selector.normalize "li.a[lang]".toList = 'l' :: "i.a[lang]".toList := by
      decide +kernel
    have htag : Selector.lexeme 'l' "i.a[lang]".toList =
        (.token (.tag "li"), '.' :: "a[lang]".toList) := by
      decide +kernel
    have hclasses : Selector.lexeme '.' "a[lang]".toList =
        (.token (.classes "a"), '[' :: "lang]".toList) := by
      decide +kernel
    have hattr : Selector.lexeme '[' "lang]".toList =
        (.token (.attr ⟨"lang", .present, ""⟩), []) := by
      decide +kernel
    unfold Selector.parse
    rw [hnormal, Selector.lexemes_of_lexeme htag, Selector.lexemes_of_lexeme hclasses,
      Selector.lexemes_of_lexeme hattr, Selector.lexemes]
    rfl
  obtain ⟨hcompound, hsibling⟩ := find_alike_walk hbuild (start [1, 2]) { tree := t } rfl
  obtain ⟨hchild, hdescendant⟩ := hcompound "li.a[lang]"
    [.tag "li" (by decide), .classes "a", .attr ⟨"lang", .present, ""⟩] hparse
    (by simp [SimpleTest.Ordinary])
  have hclass : ∀ c ∈ "b".toList, Selector.isClassChar c = true := fun c hc =>
    List.mem_singleton.mp hc ▸ rfl
  have hnext := (hsibling ⟨some ⟨"li", by decide⟩, some ⟨"b", hclass⟩⟩
    (List.cons_ne_nil _ _)).1
  exact ⟨t, hbuild, hparse, hchild, hdescendant, hnext⟩

end Selection

end TreeQuery
