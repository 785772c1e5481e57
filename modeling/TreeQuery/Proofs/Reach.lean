import TreeQuery.Proofs.Contracts
import TreeQuery.Query.Search

/-!
# What a search reaches

A search goes on from a node in two ways: it follows steps, and it goes to later element siblings.
All else that it does is to keep some of the nodes at hand. So what relates a node to the nodes that
one such step leads to relates the nodes that a search starts from to the nodes that it finds, if
the relation is reflexive and transitive (`Query.Leads`, `Query.reaches_find`), and what keeps one
step from failing keeps the search from failing. The recursion through tokens, groups and nested
selectors is gone through here, once for all such relations.
-/

namespace TreeQuery

/-! ## Parts of a list -/

/-- The entries of a list that pass a test of the entry and its place are a part of the list. -/
theorem zipIdx_filter_sublist {α : Type} (test : α × Nat → Bool) (items : List α) :
    ((items.zipIdx.filter test).map (·.1)).Sublist items := by
  have hfilter : (items.zipIdx.filter test).Sublist items.zipIdx := List.filter_sublist
  have hsub := hfilter.map (·.1)
  rwa [List.zipIdx_map_fst] at hsub

/-- A piece of a list is a part of it. -/
theorem piece_sublist {α : Type} (items : List α) (offset : Int64) (count : Option Int64) :
    (piece items offset count).Sublist items :=
  (List.take_sublist _ _).trans (List.drop_sublist _ _)

/-- One place of a list holds a part of it. -/
theorem toList_sublist_of_mem {α : Type} {a? : Option α} {items : List α}
    (h : ∀ a, a? = some a → a ∈ items) : a?.toList.Sublist items := by
  cases a? with
  | none => exact List.nil_sublist items
  | some a => exact List.singleton_sublist.mpr (h a rfl)

/-- What a pseudo-class keeps by place is a part of the list. -/
theorem PseudoClass.byPlace?_sublist {argument : List Char} {nodes kept : List NodeId}
    {pseudoClass : PseudoClass} (h : pseudoClass.byPlace? argument nodes = some kept) :
    kept.Sublist nodes := by
  unfold byPlace? at h
  split at h
  -- The pseudo-classes that look at places: `:even`, `:odd`, `:eq`, `:gt`, `:lt`, `:first`, `:last`
  -- and `:slice`. The others keep nothing by place.
  · exact Option.some.inj h ▸ zipIdx_filter_sublist _ nodes
  · exact Option.some.inj h ▸ zipIdx_filter_sublist _ nodes
  · obtain rfl := Option.some.inj h
    split_ifs
    · exact List.nil_sublist nodes
    · exact toList_sublist_of_mem fun _ => List.mem_of_getElem?
  · exact Option.some.inj h ▸ piece_sublist nodes _ _
  · exact Option.some.inj h ▸ piece_sublist nodes _ _
  · exact Option.some.inj h ▸ toList_sublist_of_mem fun _ => List.mem_of_head?
  · exact Option.some.inj h ▸ toList_sublist_of_mem fun _ => List.mem_of_getLast?
  · obtain rfl := Option.some.inj h
    unfold sliceOf
    split
    · exact piece_sublist nodes _ _
    · exact piece_sublist nodes _ _
    · exact .refl nodes
  · cases h

/-- A sibling combinator leads to later element siblings. Any other token leads nowhere. -/
theorem Tree.mem_or_mem_followingElements {t : Tree} {settings : Settings} {token : Token}
    {nodes : List NodeId} {e : NodeId} (he : e ∈ t.siblingsOf settings token nodes) :
    e ∈ nodes ∨ ∃ n ∈ nodes, e ∈ t.followingElements n := by
  unfold siblingsOf at he
  split at he
  · rw [NodeSet.mem_ofList, List.mem_filterMap] at he
    obtain ⟨n, hn, he⟩ := he
    obtain ⟨hnext, -⟩ := Option.filter_eq_some_iff.mp he
    refine .inr ⟨n, hn, List.mem_filter.mpr ⟨List.mem_of_find?_eq_some hnext, ?_⟩⟩
    exact List.find?_some hnext
  · rw [NodeSet.mem_ofList, List.mem_flatMap] at he
    obtain ⟨n, hn, he⟩ := he
    exact .inr ⟨n, hn, (List.mem_filter.mp he).1⟩
  · exact .inl he

namespace Query

variable {t : Tree} {settings : Settings} {R : NodeId → NodeId → Prop} {err : QueryError → Prop}

/-- Run on the tree `t`, a search leaves the tree as it was, and only an error as `err` says stops
it. -/
def StopsOnly {α : Type} (t : Tree) (q : Query α) (err : QueryError → Prop) : Prop :=
  Meets t q (fun _ => True) err

/-- Every node found is related to one of the nodes at hand. -/
def Reached (R : NodeId → NodeId → Prop) (nodes found : List NodeId) : Prop :=
  ∀ e ∈ found, ∃ n ∈ nodes, R n e

/-- What is found from each of several nodes is reached from them. -/
theorem reached_flatten {nodes : List NodeId} {parts : List (List NodeId)}
    (h : List.Forall₂ (fun n part => ∀ e ∈ part, R n e) nodes parts) :
    Reached R nodes parts.flatten := by
  induction h with
  | nil => exact fun _ he => nomatch he
  | cons hpart _ ih =>
    intro e he
    rcases List.mem_append.mp he with he | he
    · exact ⟨_, List.mem_cons_self, hpart e he⟩
    · obtain ⟨n, hn, hne⟩ := ih e he
      exact ⟨n, List.mem_cons_of_mem _ hn, hne⟩

/-- What is reached by two searches is reached by the two together. -/
theorem reached_append {nodes found more : List NodeId} (hfound : Reached R nodes found)
    (hmore : Reached R nodes more) : Reached R nodes (found ++ more) :=
  fun e he => (List.mem_append.mp he).elim (hfound e) (hmore e)

/-- What a search goes on to from a node in one step is related to the node, the relation is
reflexive and transitive, and only an error as `err` says stops a step. -/
structure Leads (t : Tree) (settings : Settings) (R : NodeId → NodeId → Prop)
    (err : QueryError → Prop) : Prop where
  /-- A node is related to itself. -/
  refl : ∀ n : NodeId, R n n
  /-- What is related to a related node is related. -/
  trans : ∀ {a b c : NodeId}, R a b → R b c → R a c
  /-- Later element siblings are related. -/
  sibling : ∀ {n e : NodeId}, e ∈ t.followingElements n → R n e
  /-- What steps lead to is related. -/
  followFrom : ∀ (steps : List Step) (n : NodeId),
    Meets t (followFrom settings steps n) (fun found => ∀ e ∈ found, R n e) err

namespace Leads

/-- A part of the nodes at hand is related to them. -/
theorem reached_of_subset (h : Leads t settings R err) {nodes kept : List NodeId}
    (hkept : kept ⊆ nodes) : Reached R nodes kept :=
  fun e he => ⟨e, hkept he, h.refl e⟩

/-- What is reached from what has been reached is reached. -/
theorem reached_trans (h : Leads t settings R err) {nodes found more : List NodeId}
    (hfound : Reached R nodes found) (hmore : Reached R found more) : Reached R nodes more := by
  intro e he
  obtain ⟨m, hm, hme⟩ := hmore e he
  obtain ⟨n, hn, hnm⟩ := hfound m hm
  exact ⟨n, hn, h.trans hnm hme⟩

/-- What a sibling combinator leads to is reached. -/
theorem reached_siblingsOf (h : Leads t settings R err) (token : Token) (nodes : List NodeId) :
    Reached R nodes (t.siblingsOf settings token nodes) := by
  intro e he
  rcases Tree.mem_or_mem_followingElements he with he | ⟨n, hn, he⟩
  · exact ⟨e, he, h.refl e⟩
  · exact ⟨n, hn, h.sibling he⟩

/-! ## Single steps -/

/-- Following steps from several nodes reaches what it finds. -/
theorem follow (h : Leads t settings R err) (steps : List Step) (nodes : List NodeId) :
    Meets t (follow settings steps nodes) (Reached R nodes) err := by
  have hfrom := Meets.flatMap fun n (_ : n ∈ nodes) => h.followFrom steps n
  refine hfrom.bind fun all hall => .pure fun e he => ?_
  obtain ⟨parts, hparts, rfl⟩ := hall
  exact reached_flatten hparts e (NodeSet.mem_ofList.mp he)

/-- Following a draft reaches what it finds. -/
theorem followDraft (h : Leads t settings R err) (draft : Draft) (nodes : List NodeId) :
    Meets t (followDraft settings draft nodes) (Reached R nodes) err := by
  unfold Query.followDraft
  split_ifs
  · exact .pure (h.reached_of_subset fun _ hn => hn)
  · exact h.follow draft.steps nodes

end Leads

/-- Taking a token into a draft stops with no error. -/
theorem stopsOnly_draftToken (draft : Draft) (token : Token) :
    StopsOnly t (draftToken settings draft token) err := by
  unfold draftToken
  obtain ⟨outcome, drafted⟩ := draft.add settings token
  dsimp only
  have hwarn : StopsOnly t (warn (.unrecognizedToken token.render)) err := .warn trivial
  split_ifs
  · exact hwarn.bind fun _ _ => .pure trivial
  · exact .pure trivial

/-- What `:nth-child` keeps is a part of the list. -/
theorem sublist_keepNthChild (argument : List Char) (nodes : List NodeId) :
    Meets t (keepNthChild argument nodes) (fun kept => kept.Sublist nodes) err := by
  unfold keepNthChild
  split_ifs
  · exact .pure (.refl nodes)
  · split
    · have hwarn : StopsOnly t (warn (.malformedPosition (String.ofList argument))) err :=
        .warn trivial
      exact hwarn.bind fun _ _ => .pure (.refl nodes)
    · exact Meets.bind (.tree rfl) fun u (_ : t = u) => .pure List.filter_sublist

/-! ## The recursion -/

mutual

/-- Searching with groups reaches what it finds. -/
theorem reaches_findGroups (h : Leads t settings R err) :
    ∀ (groups : List Group) (nodes : List NodeId),
      Meets t (findGroups settings groups nodes) (Reached R nodes) err
  | [], nodes => by
    rw [findGroups]
    exact .pure fun _ he => nomatch he
  | group :: groups, nodes => by
    rw [findGroups]
    refine (reaches_run h group {} nodes).bind fun found hfound => ?_
    refine (reaches_findGroups h groups nodes).bind fun more hmore => .pure ?_
    exact reached_append hfound hmore
termination_by groups => (Group.totalWeight groups, extent groups)
decreasing_by
  all_goals
    simp only [Group.totalWeight, extent, Prod.lex_def]
    omega

/-- Running the tokens of a group reaches what it finds. -/
theorem reaches_run (h : Leads t settings R err) :
    ∀ (tokens : Group) (draft : Draft) (nodes : List NodeId),
      Meets t (run settings tokens draft nodes) (Reached R nodes) err
  | [], draft, nodes => by
    rw [run]
    split_ifs
    · exact .pure (h.reached_of_subset fun _ hn => hn)
    · exact h.followDraft draft nodes
  | token :: tokens, draft, nodes => by
    rw [run]
    split_ifs
    · exact .pure (h.reached_of_subset fun _ hn => hn)
    -- What the rest of the group reaches from nodes that have been reached is reached.
    have hrest : ∀ (draft : Draft) {found : List NodeId}, Reached R nodes found →
        Meets t (run settings tokens draft found) (Reached R nodes) err :=
      fun draft found hfound => (reaches_run h tokens draft found).weaken
        (fun more hmore => h.reached_trans hfound hmore) fun _ he => he
    refine (stopsOnly_draftToken draft token).bind fun drafted _ => ?_
    -- The token is drawn up, skipped, drawn up with a narrowing, or done by hand.
    split
    · exact reaches_run h tokens _ nodes
    · exact reaches_run h tokens _ nodes
    · refine (h.follow _ nodes).bind fun found hfound => ?_
      refine Meets.bind (.tree rfl) fun u (_ : t = u) => hrest {} ?_
      exact h.reached_trans hfound (h.reached_of_subset (List.filter_subset_self _))
    · cases token with
      | pseudoClass name argument =>
        refine (h.followDraft _ nodes).bind fun found hfound => ?_
        dsimp only
        split_ifs
        · exact hrest {} hfound
        · refine (sublist_narrow h name argument found).bind fun kept hkept => hrest {} ?_
          exact h.reached_trans hfound (h.reached_of_subset hkept.subset)
      | _ =>
        refine (h.followDraft _ nodes).bind fun found hfound => ?_
        refine Meets.bind (.tree rfl) fun u (hu : t = u) => hrest {} ?_
        exact h.reached_trans hfound (hu ▸ h.reached_siblingsOf _ found)
termination_by tokens => (Group.weight tokens, tokens.length)
decreasing_by
  all_goals
    simp only [Group.weight, List.length_cons, Prod.lex_def]
    omega

/-- A pseudo-class keeps a part of a list. -/
theorem sublist_narrow (h : Leads t settings R err) (name : String) (argument : Option String)
    (nodes : List NodeId) :
    Meets t (narrow settings name argument nodes) (fun kept => kept.Sublist nodes) err := by
  rw [narrow]
  split
  -- The kinds of pseudo-classes, as in the search. A warning does not stop it, and a nested search
  -- stops as a search does.
  · have hwarn : StopsOnly t (warn (.unsupportedPseudoClass name)) err := .warn trivial
    exact hwarn.bind fun _ _ => .pure (.refl nodes)
  · exact (subset_keepGroups h _ nodes).bind fun kept _ => .pure List.filter_sublist
  · refine Meets.filter fun n _ => ?_
    refine Meets.bind (.tree rfl) fun u (_ : t = u) => ?_
    split_ifs
    · exact (reaches_findGroups h _ [n]).bind fun found _ => .pure trivial
    · exact .pure trivial
  · exact sublist_keepNthChild _ nodes
  · split
    · next hplace => exact .pure (PseudoClass.byPlace?_sublist hplace)
    · exact Meets.bind (.tree rfl) fun u (_ : t = u) => .pure List.filter_sublist
termination_by ((Token.pseudoClass name argument).weight, 0)
decreasing_by
  all_goals exact Prod.Lex.left _ _ (weight_argument_lt name argument)

/-- Filtering by groups keeps nodes of the list. -/
theorem subset_keepGroups (h : Leads t settings R err) :
    ∀ (groups : List Group) (nodes : List NodeId),
      Meets t (keepGroups settings groups nodes) (fun kept => kept ⊆ nodes) err
  | [], nodes => by
    rw [keepGroups]
    exact .pure fun _ he => nomatch he
  | group :: groups, nodes => by
    rw [keepGroups]
    split_ifs
    · exact subset_keepGroups h groups nodes
    · refine Meets.bind (.tree rfl) fun u (_ : t = u) => ?_
      refine (sublist_narrowAll h group.simpleTokens _).bind fun kept hkept => ?_
      refine (subset_keepGroups h groups nodes).bind fun more hmore => .pure ?_
      exact List.append_subset.mpr
        ⟨List.Subset.trans hkept.subset (List.filter_subset_self _), hmore⟩
termination_by groups => (Group.totalWeight groups, extent groups)
decreasing_by
  all_goals
    have hweight := weight_simpleTokens_le group
    have hlength := length_simpleTokens_le group
    simp only [Group.totalWeight, extent, Prod.lex_def]
    omega

/-- The pseudo-classes among some tokens keep a part of a list. -/
theorem sublist_narrowAll (h : Leads t settings R err) :
    ∀ (tokens : List Token) (nodes : List NodeId),
      Meets t (narrowAll settings tokens nodes) (fun kept => kept.Sublist nodes) err
  -- Without tokens the list is kept as it is.
  | [], nodes => by
    rw [narrowAll]
    exact .pure (.refl nodes)
  | token :: tokens, nodes => by
    cases token with
    -- Each pseudo-class keeps a part of what the one before it has kept.
    | pseudoClass name argument =>
      rw [narrowAll]
      refine (sublist_narrow h name argument nodes).bind fun kept hkept => ?_
      exact (sublist_narrowAll h tokens kept).weaken (fun _ hmore => hmore.trans hkept)
        fun _ he => he
    | _ =>
      rw [narrowAll]
      · exact sublist_narrowAll h tokens nodes
      · exact fun _ _ => nofun
termination_by tokens => (Group.weight tokens, tokens.length)
decreasing_by
  all_goals
    simp only [Group.weight, List.length_cons, Prod.lex_def]
    omega

end

/-! ## Whole selectors -/

/-- What a selector finds is reached from the nodes that the search starts from. -/
theorem reaches_find (h : Leads t settings R err) (selector : Selector) (nodes : List NodeId) :
    Meets t (find settings selector nodes) (Reached R nodes) err :=
  (reaches_findGroups h selector.groups nodes).bind fun _ hfound =>
    .pure fun e he => hfound e (NodeSet.mem_ofList.mp he)

/-- What a selector keeps are nodes of the list. -/
theorem subset_keep (h : Leads t settings R err) (selector : Selector) (nodes : List NodeId) :
    Meets t (keep settings selector nodes) (fun kept => kept ⊆ nodes) err :=
  (subset_keepGroups h selector.groups nodes).bind fun _ hkept =>
    .pure fun _ he => hkept (NodeSet.mem_ofList.mp he)

end Query

end TreeQuery
