import TreeQuery.Proofs.CompoundOrder
import TreeQuery.Proofs.Unions

/-!
# Filters that look at nodes one by one

A pseudo-class narrows a whole list at once, and some look at the places of nodes in the list. A
selector without these keeps of any list the nodes that pass a test, whatever else is in the list:
each of its groups does (`Query.exists_tests_keepGroups`), because `:not` takes out what such groups
keep, and `:has` searches from one node at a time. What several groups keep together are the nodes
that pass the first test, then those that pass the second and not the first, and so on
(`NodeSet.cascade`), and a list that is ordered in this way stays as it is when it is filtered again
(`Query.keep_pointwise`).
-/

namespace TreeQuery

/-! ## Positional tokens -/

/-- Whether a pseudo-class looks at the places of nodes in a list, and at nothing else. -/
def PseudoClass.isPositional : PseudoClass → Bool
  | even | odd | eq | gt | lt | first | last | slice => true
  | _ => false

/-- Whether a pseudo-class looks at single nodes and at nothing else, be it below them. -/
def PseudoClass.isSingle : PseudoClass → Bool
  | even | odd | eq | gt | lt | first | last | slice | not | has | nthChild => false
  | _ => true

/-- A token looks at the places of nodes in a list, be it in what it takes out of the list. What
`:has` asks for is searched for below single nodes, so nothing in its argument counts. -/
inductive Token.Positional : Token → Prop
  /-- The pseudo-class keeps nodes by their places. -/
  | place {name : String} {argument : Option String} {pseudoClass : PseudoClass}
    (hname : PseudoClass.ofName? name = some pseudoClass)
    (hplace : pseudoClass.isPositional = true) : Positional (.pseudoClass name argument)
  /-- The selector whose nodes are taken out has such a token. -/
  | not {name : String} {argument : Option String} {group : Group} {token : Token}
    (hname : PseudoClass.ofName? name = some .not)
    (hgroup : group ∈ (Selector.parse (String.ofList (PseudoClass.argumentOf argument))).groups)
    (htoken : token ∈ group) (hpositional : Positional token) :
    Positional (.pseudoClass name argument)

/-- Some token of a selector looks at the places of nodes in a list. -/
def Selector.Positional (selector : Selector) : Prop :=
  ∃ group ∈ selector.groups, ∃ token ∈ group, token.Positional

/-- A pseudo-class looks at places itself, or it takes out what a selector keeps that does. -/
theorem Token.positional_iff {name : String} {argument : Option String} {pseudoClass : PseudoClass}
    (hname : PseudoClass.ofName? name = some pseudoClass) :
    (Token.pseudoClass name argument).Positional ↔ pseudoClass.isPositional = true ∨
      pseudoClass = .not ∧
        (Selector.parse (String.ofList (PseudoClass.argumentOf argument))).Positional := by
  constructor
  · rintro (⟨hname', hplace⟩ | ⟨hname', hgroup, htoken, hpositional⟩)
    · exact .inl (Option.some.inj (hname.symm.trans hname') ▸ hplace)
    · exact .inr ⟨Option.some.inj (hname.symm.trans hname'), _, hgroup, _, htoken, hpositional⟩
  · rintro (hplace | ⟨rfl, group, hgroup, token, htoken, hpositional⟩)
    · exact .place hname hplace
    · exact .not hname hgroup htoken hpositional

/-! ## Several tests -/

namespace NodeSet

variable {tests : List (NodeId → Bool)} {nodes : List NodeId} {n : NodeId}

/-- The nodes that pass the first of several tests, then those that pass the second and not the
first, and so on. -/
def cascade : List (NodeId → Bool) → List NodeId → List NodeId
  | [], _ => []
  | test :: tests, nodes => nodes.filter test ++ cascade tests (nodes.filter fun n => !test n)

/-- In a cascade are the nodes that pass any of the tests. -/
theorem mem_cascade : n ∈ cascade tests nodes ↔ n ∈ nodes ∧ ∃ test ∈ tests, test n = true := by
  induction tests generalizing nodes with
  | nil => simp [cascade]
  | cons test tests ih =>
    rw [cascade, List.mem_append, ih, List.mem_filter, List.mem_filter, List.exists_mem_cons_iff]
    cases htest : test n with
    | true => simp
    | false => simp

/-- A cascade of a cascade is the cascade. -/
theorem cascade_cascade (tests : List (NodeId → Bool)) (nodes : List NodeId) :
    cascade tests (cascade tests nodes) = cascade tests nodes := by
  induction tests generalizing nodes with
  | nil => rfl
  | cons test tests ih =>
    -- The nodes in front pass the first test, and those behind them do not.
    have hfront : ∀ n ∈ nodes.filter test, test n = true := fun n hn => (List.mem_filter.mp hn).2
    have hback : ∀ n ∈ cascade tests (nodes.filter fun n => !test n), test n = false := by
      intro n hn
      have hrest := (List.mem_filter.mp (mem_cascade.mp hn).1).2
      simpa using hrest
    have hnone : (cascade tests (nodes.filter fun n => !test n)).filter test = [] :=
      List.filter_eq_nil_iff.mpr fun n hn => Bool.eq_false_iff.mp (hback n hn)
    have hnone' : (nodes.filter test).filter (fun n => !test n) = [] :=
      List.filter_eq_nil_iff.mpr fun n hn => by simp [hfront n hn]
    have hpassed : (cascade (test :: tests) nodes).filter test = nodes.filter test := by
      rw [cascade, List.filter_append, List.filter_eq_self.mpr hfront, hnone, List.append_nil]
    have hothers : (cascade (test :: tests) nodes).filter (fun n => !test n) =
        cascade tests (nodes.filter fun n => !test n) := by
      rw [cascade, List.filter_append, hnone',
        List.filter_eq_self.mpr fun n hn => by simp [hback n hn], List.nil_append]
    calc cascade (test :: tests) (cascade (test :: tests) nodes)
        = nodes.filter test ++ cascade tests (cascade tests (nodes.filter fun n => !test n)) := by
          rw [cascade, hpassed, hothers]
      _ = cascade (test :: tests) nodes := by rw [ih, cascade]

/-- One node more comes last if it is new. -/
theorem nodes_insert (set : NodeSet) (n : NodeId) :
    (set.insert n).nodes = if n ∈ set.nodes then set.nodes else set.nodes ++ [n] := by
  rw [insert]
  split_ifs
  · rfl
  · rfl

/-- Behind the nodes of a list, only those of another list are added that are not in the first. -/
theorem nodes_ofList_append (front back : List NodeId) :
    (ofList (front ++ back)).nodes =
      (ofList front).nodes ++ (ofList (back.filter fun n => !front.contains n)).nodes := by
  -- By induction over the other list from its end, since nodes are added there.
  induction back using List.reverseRecOn with
  | nil =>
    rw [List.append_nil]
    exact (List.append_nil _).symm
  | append_singleton back n ih =>
    have hlast : ∀ list : List NodeId, ofList (list ++ [n]) = (ofList list).insert n :=
      fun _ => List.foldl_append
    rw [← List.append_assoc, hlast, nodes_insert, ih, List.filter_append]
    by_cases hn : n ∈ front
    · simp [hn]
    · -- The node is new in the whole list if it is new behind the front.
      have hkept : [n].filter (fun n => !front.contains n) = [n] := by simp [hn]
      rw [hkept, hlast, nodes_insert]
      simp only [List.mem_append, mem_ofList, or_iff_right hn]
      split_ifs
      · rfl
      · rw [List.append_assoc]

/-- What passes each of several tests, one list after the other and each node once, is a cascade. -/
theorem nodes_ofList_flatMap_filter (tests : List (NodeId → Bool)) (nodes : List NodeId) :
    (ofList (tests.flatMap fun test => nodes.filter test)).nodes =
      cascade tests (ofList nodes).nodes := by
  induction tests generalizing nodes with
  | nil => rfl
  | cons test tests ih =>
    -- What the first test keeps is taken from what the others keep.
    have hothers : (tests.flatMap fun other => nodes.filter other).filter
          (fun n => !(nodes.filter test).contains n) =
        tests.flatMap fun other => (nodes.filter fun n => !test n).filter other := by
      rw [List.filter_flatMap]
      refine List.flatMap_congr fun other _ => ?_
      rw [List.filter_filter, List.filter_filter]
      refine List.filter_congr fun n hn => ?_
      simp [hn, Bool.and_comm]
    rw [List.flatMap_cons, nodes_ofList_append, hothers, ih, nodes_ofList_filter,
      nodes_ofList_filter, cascade]

end NodeSet

namespace Query

variable {α : Type} {t : Tree} {settings : Settings}

/-- A group without its first combinator has tokens of the group. -/
theorem mem_of_mem_simpleTokens {group : Group} {token : Token}
    (h : token ∈ group.simpleTokens) : token ∈ group := by
  rw [Group.simpleTokens.eq_def] at h
  split at h
  · exact h
  · split_ifs at h
    · exact List.mem_cons_of_mem _ h
    · exact h

/-! ## One test for all lists -/

/-- A search that the tree decides and that nothing stops gives one result in all sessions. -/
theorem Determined.exists_eq {q : Query α} {post : α → Prop} (hdetermined : Determined q)
    (h : Meets t q post Never) : ∃ a, Meets t q (· = a) Never := by
  obtain ⟨a, s₀, hok, -, -⟩ := h.exists_ok (s := { tree := t }) rfl
  refine ⟨a, fun s hs => ?_⟩
  have hrun := h s hs
  have halike := hdetermined { tree := t } s hs.symm
  rw [hok] at halike
  cases hq : q s with
  | ok b s' =>
    rw [hq] at hrun halike
    cases halike with
    | ok _ => exact ⟨hrun.1, rfl⟩
  | error e s' =>
    rw [hq] at hrun
    exact hrun

/-- A search gives no more than one result on a tree. -/
theorem Meets.unique {q : Query α} {a b : α} (ha : Meets t q (· = a) Never)
    (hb : Meets t q (· = b) Never) : a = b := by
  obtain ⟨c, s', hok, -, hc⟩ := ha.exists_ok (s := { tree := t }) rfl
  have hrun := hb { tree := t } rfl
  rw [hok] at hrun
  exact hc.symm.trans hrun.2

/-- If the search for each node gives the outcome of a test, the filter keeps what passes. -/
theorem Meets.filter_eq {search : NodeId → Query Bool} {test : NodeId → Bool}
    (h : ∀ n, Meets t (search n) (· = test n) Never) (nodes : List NodeId) :
    Meets t (Query.filter search nodes) (· = nodes.filter test) Never := by
  induction nodes with
  | nil => exact .pure rfl
  | cons n rest ih =>
    rw [Query.filter, List.filter_cons]
    refine (h n).bind fun passed hpassed => ?_
    rw [hpassed]
    split_ifs
    · exact ih.bind fun kept hkept => .pure (by rw [hkept])
    · exact ih

/-- A filter keeps of every list the nodes that pass the test. -/
def FiltersBy (t : Tree) (narrowing : List NodeId → Query (List NodeId)) (test : NodeId → Bool) :
    Prop :=
  ∀ nodes : List NodeId, Meets t (narrowing nodes) (· = nodes.filter test) Never

/-- A filter that keeps every list as it is keeps the nodes that pass a test that all pass. -/
theorem filtersBy_all {narrowing : List NodeId → Query (List NodeId)}
    (h : ∀ nodes, Meets t (narrowing nodes) (· = nodes) Never) :
    FiltersBy t narrowing fun _ => true :=
  fun nodes => (h nodes).weaken (fun _ hkept => by rw [hkept, List.filter_true]) fun _ he => he

/-- `:nth-child` keeps the nodes that pass a test. -/
theorem exists_test_keepNthChild (argument : List Char) :
    ∃ test, FiltersBy t (keepNthChild argument) test := by
  unfold keepNthChild
  split_ifs
  · exact ⟨_, filtersBy_all fun nodes => .pure rfl⟩
  · split
    · have hwarn : Meets t (warn (.malformedPosition (String.ofList argument)))
          (fun _ => True) Never := .warn trivial
      exact ⟨_, filtersBy_all fun nodes => hwarn.bind fun _ _ => .pure rfl⟩
    · next progression _ =>
      refine ⟨PseudoClass.isNthChild t progression, fun nodes => ?_⟩
      refine Meets.bind (.tree rfl) fun u (hu : t = u) => .pure ?_
      rw [hu]

/-- A pseudo-class that looks at single nodes keeps those of which it holds. -/
theorem narrow_of_single {name : String} {pseudoClass : PseudoClass}
    (hname : PseudoClass.ofName? name = some pseudoClass) (hsingle : pseudoClass.isSingle = true)
    (settings : Settings) (argument : Option String) (nodes : List NodeId) :
    narrow settings name argument nodes = (do
      let t ← tree
      return nodes.filter fun n =>
        pseudoClass.holds settings t (PseudoClass.argumentOf argument) n) := by
  rw [narrow, hname]
  cases pseudoClass with
  | even | odd | eq | gt | lt | first | last | slice | not | has | nthChild => cases hsingle
  | _ => rfl

/-- The test of such a pseudo-class is whether it holds. -/
theorem filtersBy_of_single {name : String} {pseudoClass : PseudoClass}
    (hname : PseudoClass.ofName? name = some pseudoClass) (hsingle : pseudoClass.isSingle = true)
    (argument : Option String) :
    FiltersBy t (narrow settings name argument) fun n =>
      pseudoClass.holds settings t (PseudoClass.argumentOf argument) n := by
  intro nodes
  rw [narrow_of_single hname hsingle]
  exact Meets.bind (.tree rfl) fun u (hu : t = u) => .pure (by rw [hu])

mutual

/-- A pseudo-class that does not look at places keeps the nodes that pass a test. -/
theorem exists_test_narrow (h : t.Loaded) (name : String) (argument : Option String)
    (hplain : ¬ (Token.pseudoClass name argument).Positional) :
    ∃ test, FiltersBy t (narrow settings name argument) test := by
  cases hname : PseudoClass.ofName? name with
  | none =>
    have hwarn : Meets t (warn (.unsupportedPseudoClass name)) (fun _ => True) Never :=
      .warn trivial
    refine ⟨_, filtersBy_all fun nodes => ?_⟩
    rw [narrow, hname]
    exact hwarn.bind fun _ _ => .pure rfl
  | some pseudoClass =>
    have hplace : pseudoClass.isPositional = false :=
      Bool.eq_false_iff.mpr fun hplace => hplain (.place hname hplace)
    cases pseudoClass with
    | not =>
      -- A node is taken out if it passes a test of one of the nested groups.
      obtain ⟨tests, htests⟩ := exists_tests_keepGroups h
        (Selector.parse (String.ofList (PseudoClass.argumentOf argument))).groups
        fun group hgroup token htoken hpositional =>
          hplain (.not hname hgroup htoken hpositional)
      refine ⟨fun n => !tests.any fun test => test n, fun nodes => ?_⟩
      rw [narrow, hname]
      refine (htests nodes).bind fun kept hkept => .pure (List.filter_congr fun n hn => ?_)
      rw [hkept, Bool.eq_iff_iff]
      simp [hn]
    | has =>
      -- Whether anything is found from a node is decided by the tree and the node.
      have hsearch : ∀ n, ∃ found, Meets t (findGroups settings
          (Selector.parse (String.ofList (PseudoClass.argumentOf argument))).groups [n])
          (· = found) Never := fun n =>
        (determined_findGroups settings _ [n]).exists_eq
          (reaches_findGroups (leads_loaded h settings) _ [n])
      choose found hfound using hsearch
      refine ⟨fun n => t.isElement n && !(found n).isEmpty, fun nodes => ?_⟩
      rw [narrow, hname]
      refine Meets.filter_eq (fun n => Meets.bind (.tree rfl) fun u (hu : t = u) => ?_) nodes
      subst hu
      dsimp only
      split_ifs with helement
      · refine (hfound n).bind fun nested hnested => .pure ?_
        rw [hnested, helement, Bool.true_and]
      · refine .pure ?_
        rw [Bool.not_eq_true] at helement
        rw [helement, Bool.false_and]
    | nthChild =>
      obtain ⟨test, htest⟩ := exists_test_keepNthChild (t := t) (PseudoClass.argumentOf argument)
      refine ⟨test, fun nodes => ?_⟩
      rw [narrow, hname]
      exact htest nodes
    | even | odd | eq | gt | lt | first | last | slice => cases hplace
    | _ =>
      exact ⟨_, filtersBy_of_single hname rfl argument⟩
termination_by ((Token.pseudoClass name argument).weight, 0)
decreasing_by
  exact Prod.Lex.left _ _ (weight_argument_lt name argument)

/-- Each group of a selector without positional tokens keeps the nodes that pass a test. -/
theorem exists_tests_keepGroups (h : t.Loaded) : ∀ groups : List Group,
    (∀ group ∈ groups, ∀ token ∈ group, ¬ token.Positional) →
      ∃ tests : List (NodeId → Bool), ∀ nodes, Meets t (keepGroups settings groups nodes)
        (· = tests.flatMap fun test => nodes.filter test) Never
  -- Without groups no test is left, and nothing is kept.
  | [], _ => by
    refine ⟨[], fun nodes => ?_⟩
    rw [keepGroups]
    exact .pure rfl
  | group :: groups, hplain => by
    obtain ⟨hgroup, hgroups⟩ := List.forall_mem_cons.mp hplain
    obtain ⟨tests, htests⟩ := exists_tests_keepGroups h groups hgroups
    -- An empty group keeps nothing.
    by_cases hempty : group.isEmpty = true
    · refine ⟨tests, fun nodes => ?_⟩
      rw [keepGroups, if_pos hempty]
      exact htests nodes
    -- A group asks for its simple tokens and for what its pseudo-classes keep, which is one test.
    · have hsimple : ∀ token ∈ group.simpleTokens, ¬ token.Positional := fun token htoken =>
        hgroup token (mem_of_mem_simpleTokens htoken)
      obtain ⟨test, htest⟩ := exists_test_narrowAll h group.simpleTokens hsimple
      refine ⟨(fun n => t.passesAll settings n group.simpleTokens && test n) :: tests,
        fun nodes => ?_⟩
      rw [keepGroups, if_neg hempty]
      refine Meets.bind (.tree rfl) fun u (hu : t = u) => ?_
      subst hu
      refine (htest _).bind fun kept hkept => (htests nodes).bind fun more hmore => .pure ?_
      rw [hkept, hmore, List.flatMap_cons, List.filter_filter]
      simp only [Bool.and_comm]
termination_by groups => (Group.totalWeight groups, extent groups)
decreasing_by
  all_goals
    have hweight := weight_simpleTokens_le group
    have hlength := length_simpleTokens_le group
    simp only [Group.totalWeight, extent, Prod.lex_def]
    omega

/-- The pseudo-classes among some tokens keep the nodes that pass a test if none of them looks at
places. -/
theorem exists_test_narrowAll (h : t.Loaded) : ∀ tokens : List Token,
    (∀ token ∈ tokens, ¬ token.Positional) →
      ∃ test, FiltersBy t (narrowAll settings tokens) test
  -- Without tokens all nodes are kept.
  | [] => fun _ => by
    refine ⟨_, filtersBy_all fun nodes => ?_⟩
    rw [narrowAll]
    exact .pure rfl
  | token :: tokens => by
    cases token with
    -- A pseudo-class keeps the nodes that pass its test, and the others go on from these.
    | pseudoClass name argument =>
      intro hplain
      obtain ⟨htoken, htokens⟩ := List.forall_mem_cons.mp hplain
      obtain ⟨test, htest⟩ := exists_test_narrow h name argument htoken
      obtain ⟨rest, hrest⟩ := exists_test_narrowAll h tokens htokens
      refine ⟨fun n => test n && rest n, fun nodes => ?_⟩
      rw [narrowAll]
      refine (htest nodes).bind fun kept hkept => ?_
      refine (hrest kept).weaken (fun more hmore => ?_) fun _ he => he
      rw [hmore, hkept, List.filter_filter]
      simp only [Bool.and_comm]
    -- A token that is no pseudo-class narrows nothing here.
    | _ =>
      intro hplain
      obtain ⟨rest, hrest⟩ := exists_test_narrowAll h tokens (List.forall_mem_cons.mp hplain).2
      refine ⟨rest, fun nodes => ?_⟩
      rw [narrowAll]
      · exact hrest nodes
      · exact fun _ _ => nofun
termination_by tokens => (Group.weight tokens, tokens.length)
decreasing_by
  all_goals
    simp only [Group.weight, List.length_cons, Prod.lex_def]
    omega

end

/-! ## Whole selectors -/

/-- A selector without positional tokens keeps of every list a cascade of tests. -/
theorem exists_tests_keep (h : t.Loaded) (settings : Settings) {selector : Selector}
    (hplain : ¬ selector.Positional) :
    ∃ tests : List (NodeId → Bool), ∀ nodes, Meets t (keep settings selector nodes)
      (· = NodeSet.cascade tests (NodeSet.ofList nodes).nodes) Never := by
  obtain ⟨tests, htests⟩ : ∃ tests : List (NodeId → Bool), ∀ nodes,
      Meets t (keepGroups settings selector.groups nodes)
        (· = tests.flatMap fun test => nodes.filter test) Never :=
    exists_tests_keepGroups h _ fun group hgroup token htoken hpositional =>
      hplain ⟨group, hgroup, token, htoken, hpositional⟩
  refine ⟨tests, fun nodes => (htests nodes).bind fun kept hkept => .pure ?_⟩
  rw [hkept, NodeSet.nodes_ofList_flatMap_filter]

/-- On the tree of a document, a selector without positional tokens filters any list of nodes. It
keeps those nodes of the list that it keeps when they are alone, and keeps all of these, in the same
order, when it filters them again. -/
theorem keep_pointwise {flavour : Flavour} {markup : Markup}
    (hbuild : Markup.build? flavour markup = .ok t) (settings : Settings) {selector : Selector}
    (hplain : ¬ selector.Positional) (nodes : List NodeId) :
    ∃ kept, Meets t (keep settings selector nodes) (· = kept) Never ∧
      (∀ n, n ∈ kept ↔ n ∈ nodes ∧
        ∃ alone, Meets t (keep settings selector [n]) (· = alone) Never ∧ n ∈ alone) ∧
      Meets t (keep settings selector kept) (· = kept) Never := by
  -- The groups are tests, and what passes any of them is kept.
  obtain ⟨tests, htests⟩ := exists_tests_keep (Tree.loaded_build? hbuild) settings hplain
  have hkept : ∀ {nodes : List NodeId} {n : NodeId},
      n ∈ NodeSet.cascade tests (NodeSet.ofList nodes).nodes ↔
        n ∈ nodes ∧ ∃ test ∈ tests, test n = true :=
    NodeSet.mem_cascade.trans (and_congr_left' NodeSet.mem_ofList)
  refine ⟨_, htests nodes, fun n => ?_, ?_⟩
  · rw [hkept]
    refine and_congr_right fun _ => ⟨fun hpasses => ?_, fun ⟨alone, halone, hn⟩ => ?_⟩
    · exact ⟨_, htests [n], hkept.mpr ⟨List.mem_singleton_self n, hpasses⟩⟩
    · exact (hkept.mp (halone.unique (htests [n]) ▸ hn)).2
  -- What is kept passes already, in the order in which the tests list it.
  · have hnodup : (NodeSet.cascade tests (NodeSet.ofList nodes).nodes).Nodup :=
      NodeSet.nodes_ofList_flatMap_filter tests nodes ▸ NodeSet.nodup _
    have hagain := htests (NodeSet.cascade tests (NodeSet.ofList nodes).nodes)
    rwa [NodeSet.nodes_ofList hnodup, NodeSet.cascade_cascade] at hagain

/-- For one, `:has(b), p:not(.a)`, which keeps the same nodes of a list in any order of it. -/
theorem keep_pointwise_groups :
    ∃ t, Markup.build? .html (.element "div" .empty
        [.element "p" (.ofList [("class", "a")]) [], .element "p" .empty
          [.element "b" .empty []]]) = .ok t ∧
      ¬ (Selector.parse ":has(b), p:not(.a)").Positional ∧
      ∃ kept, Meets t (keep .default (Selector.parse ":has(b), p:not(.a)") [2, 3, 1, 3])
          (· = kept) Never ∧
        (∀ n, n ∈ kept ↔ n ∈ [2, 3, 1, 3] ∧ ∃ alone,
          Meets t (keep .default (Selector.parse ":has(b), p:not(.a)") [n]) (· = alone) Never ∧
            n ∈ alone) ∧
        Meets t (keep .default (Selector.parse ":has(b), p:not(.a)") kept) (· = kept) Never := by
  obtain ⟨t, hbuild⟩ : ∃ t, Markup.build? .html (.element "div" .empty
      [.element "p" (.ofList [("class", "a")]) [], .element "p" .empty
        [.element "b" .empty []]]) = .ok t := ⟨_, rfl⟩
  -- Neither `:has` nor `:not` looks at places, and the selector in `:not` has no pseudo-class in
  -- it.
  have hparse : Selector.parse ":has(b), p:not(.a)" =
      ⟨[[.descendant, .tag "*", .pseudoClass "has" (some "b")],
        [.descendant, .tag "p", .pseudoClass "not" (some ".a")]]⟩ := by decide +kernel
  have hnested : (Selector.parse (String.ofList (PseudoClass.argumentOf (some ".a")))).groups =
      [[.descendant, .classes "a"]] := by decide +kernel
  have hhas : ¬ (Token.pseudoClass "has" (some "b")).Positional := by
    have hname : PseudoClass.ofName? "has" = some .has := rfl
    rw [Token.positional_iff hname]
    exact nofun
  have hnot : ¬ (Token.pseudoClass "not" (some ".a")).Positional := by
    have hname : PseudoClass.ofName? "not" = some .not := rfl
    rw [Token.positional_iff hname, Selector.Positional, hnested]
    simp only [List.mem_cons, List.not_mem_nil, or_false, exists_eq_or_imp, exists_eq_left]
    rintro (hplace | ⟨-, hcombinator | hclasses⟩)
    · cases hplace
    · cases hcombinator
    · cases hclasses
  have hplain : ¬ (Selector.parse ":has(b), p:not(.a)").Positional := by
    rw [hparse, Selector.Positional]
    simp only [List.mem_cons, List.not_mem_nil, or_false, exists_eq_or_imp, exists_eq_left]
    rintro ((hcombinator | htag | hpseudo) | hcombinator | htag | hpseudo)
    · cases hcombinator
    · cases htag
    · exact hhas hpseudo
    · cases hcombinator
    · cases htag
    · exact hnot hpseudo
  exact ⟨t, hbuild, hplain, keep_pointwise hbuild .default hplain [2, 3, 1, 3]⟩

end Query

end TreeQuery
