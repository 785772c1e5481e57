import TreeQuery.Proofs.Following
import TreeQuery.Proofs.Frame

/-!
# The tree decides what a search gives

A search reads the tree, and it writes warnings and a log that it never reads. So two sessions with
the same tree lead to the same result, or to the same error, whatever warnings have been given in
them before (`Query.determined_find`, `Query.determined_keep`). That is what allows searches that
run one after the other to be looked at one by one (`Query.result_bind`).
-/

namespace TreeQuery.Query

variable {α β : Type}

/-- Two runs have ended alike: with one result or with one error, and on one tree. -/
inductive EndAlike :
    EStateM.Result QueryError Session α → EStateM.Result QueryError Session α → Prop
  /-- Both have given a result. -/
  | ok {a : α} {s s' : Session} (htree : s.tree = s'.tree) : EndAlike (.ok a s) (.ok a s')
  /-- Both have stopped with an error. -/
  | error {e : QueryError} {s s' : Session} (htree : s.tree = s'.tree) :
    EndAlike (.error e s) (.error e s')

/-- Runs of the search that start on one tree end alike. -/
def Determined (q : Query α) : Prop :=
  ∀ s s' : Session, s.tree = s'.tree → EndAlike (q s) (q s')

/-- Where the tree is the same, so is the result. -/
theorem Determined.result_eq {q : Query α} (h : Determined q) {s s' : Session}
    (htree : s.tree = s'.tree) : result q s = result q s' := by
  have halike := h s s' htree
  unfold result
  generalize q s = r at halike ⊢
  generalize q s' = r' at halike ⊢
  cases halike with
  | ok htree => rfl
  | error htree => rfl

/-! ## Single steps -/

/-- A query that gives a value is determined. -/
theorem Determined.pure (a : α) : Determined (Pure.pure a) :=
  fun _ _ htree => .ok htree

/-- A query that is stopped is determined. -/
theorem Determined.throw (e : QueryError) : Determined (throw e : Query α) :=
  fun _ _ htree => .error htree

/-- A chain of two steps is determined if both are. -/
theorem Determined.bind {q : Query α} {f : α → Query β} (hq : Determined q)
    (hf : ∀ a, Determined (f a)) : Determined (q >>= f) := by
  intro s s' htree
  have halike := hq s s' htree
  simp only [Bind.bind, EStateM.bind]
  generalize q s = r at halike ⊢
  generalize q s' = r' at halike ⊢
  cases halike with
  | ok htree => exact hf _ _ _ htree
  | error htree => exact .error htree

/-- To read the tree is determined, since the two sessions have the same one. -/
theorem Determined.tree : Determined tree := by
  intro s s' htree
  show EndAlike (.ok s.tree s) (.ok s'.tree s')
  rw [htree]
  exact .ok htree

/-- To record an event is determined. -/
theorem Determined.record (event : Event) : Determined (record event) :=
  fun _ _ htree => .ok htree

/-- Whether a warning is new or not, it gives the same result and leaves the tree alone. -/
theorem Determined.warn (warning : Warning) : Determined (warn warning) := by
  have hwarn : ∀ s : Session, ∃ s', Query.warn warning s = .ok () s' ∧ s'.tree = s.tree := by
    intro s
    have hmeets : Meets s.tree (Query.warn warning) (fun _ => True) Never := .warn trivial
    obtain ⟨_, s', hok, hkept, -⟩ := hmeets.exists_ok rfl
    exact ⟨s', hok, hkept⟩
  intro s s' htree
  obtain ⟨s₁, hs, hs₁⟩ := hwarn s
  obtain ⟨s₂, hs', hs₂⟩ := hwarn s'
  rw [hs, hs']
  exact .ok (hs₁.trans (htree.trans hs₂.symm))

/-- An outcome that is computed beforehand is determined. -/
theorem Determined.ofExcept (x : Except TreeError α) : Determined (ofExcept x) := by
  cases x with
  | ok a => exact .pure a
  | error e => exact .throw _

/-! ## Several nodes -/

/-- A filter is determined if its test is. -/
theorem Determined.filter {test : NodeId → Query Bool} (htest : ∀ n, Determined (test n))
    (nodes : List NodeId) : Determined (filter test nodes) := by
  induction nodes with
  | nil => exact .pure _
  | cons n rest ih =>
    rw [Query.filter]
    refine (htest n).bind fun kept => ?_
    split_ifs
    · exact ih.bind fun _ => .pure _
    · exact ih

/-- Searching from one node after the other is determined if the search from each one is. -/
theorem Determined.flatMap {search : NodeId → Query (List NodeId)}
    (hsearch : ∀ n, Determined (search n)) (nodes : List NodeId) :
    Determined (flatMap search nodes) := by
  induction nodes with
  | nil => exact .pure _
  | cons n rest ih =>
    rw [Query.flatMap]
    exact (hsearch n).bind fun _ => ih.bind fun _ => .pure _

/-! ## Mounting -/

/-- The same subtree is mounted in the same tree, and taken down again. -/
theorem Determined.mounted (n : NodeId) {body : Query α} (hbody : Determined body) :
    Determined (mounted n body) := by
  intro s s' htree
  unfold Query.mounted
  rw [htree]
  cases Mount.attach s'.tree n with
  | error e => exact .error htree
  | ok m =>
    have halike := hbody { s with tree := m.tree } { s' with tree := m.tree } rfl
    dsimp only
    generalize body { s with tree := m.tree } = r at halike ⊢
    generalize body { s' with tree := m.tree } = r' at halike ⊢
    cases halike with
    | ok htree => exact .ok (by rw [htree])
    | error htree => exact .error (by rw [htree])

/-- Following steps from one node is determined, also where the node has to be mounted for it. -/
theorem determined_followFrom (settings : Settings) (steps : List Step) (n : NodeId) :
    Determined (followFrom settings steps n) := by
  unfold followFrom
  refine Determined.tree.bind fun t => ?_
  split_ifs
  · exact .pure _
  · refine .mounted n (Determined.tree.bind fun t => ?_)
    split
    · exact .throw _
    · exact .throw _
    · refine (Determined.record _).bind fun _ => (Determined.ofExcept _).bind fun found => ?_
      dsimp only
      split_ifs
      · exact (Determined.record _).bind fun _ => .pure _
      · exact .pure _

/-- Following steps from a list of nodes is determined. -/
theorem determined_follow (settings : Settings) (steps : List Step) (nodes : List NodeId) :
    Determined (follow settings steps nodes) :=
  (Determined.flatMap (determined_followFrom settings steps) nodes).bind fun _ => .pure _

/-- Following a draft is determined. -/
theorem determined_followDraft (settings : Settings) (draft : Draft) (nodes : List NodeId) :
    Determined (followDraft settings draft nodes) := by
  unfold followDraft
  split_ifs
  · exact .pure _
  · exact determined_follow settings draft.steps nodes

/-- What becomes of a draft with one token more is determined. -/
theorem determined_draftToken (settings : Settings) (draft : Draft) (token : Token) :
    Determined (draftToken settings draft token) := by
  unfold draftToken
  obtain ⟨outcome, drafted⟩ := draft.add settings token
  dsimp only
  split_ifs
  · exact (Determined.warn _).bind fun _ => .pure _
  · exact .pure _

/-- Keeping the nodes at some places among their siblings is determined. -/
theorem determined_keepNthChild (argument : List Char) (nodes : List NodeId) :
    Determined (keepNthChild argument nodes) := by
  unfold keepNthChild
  split_ifs
  · exact .pure _
  · split
    · exact (Determined.warn _).bind fun _ => .pure _
    · exact Determined.tree.bind fun _ => .pure _

/-! ## The recursion -/

section

variable (settings : Settings)

mutual

/-- Searching with groups is determined. -/
theorem determined_findGroups :
    ∀ (groups : List Group) (nodes : List NodeId), Determined (findGroups settings groups nodes)
  | [], nodes => by
    rw [findGroups]
    exact .pure _
  | group :: groups, nodes => by
    rw [findGroups]
    refine (determined_run group {} nodes).bind fun found => ?_
    exact (determined_findGroups groups nodes).bind fun more => .pure _
termination_by groups => (Group.totalWeight groups, extent groups)
decreasing_by
  all_goals
    simp only [Group.totalWeight, extent, Prod.lex_def]
    omega

/-- Running the tokens of a group is determined. -/
theorem determined_run :
    ∀ (tokens : Group) (draft : Draft) (nodes : List NodeId),
      Determined (run settings tokens draft nodes)
  | [], draft, nodes => by
    rw [run]
    split_ifs
    · exact .pure _
    · exact determined_followDraft settings draft nodes
  | token :: tokens, draft, nodes => by
    rw [run]
    split_ifs
    · exact .pure _
    -- What becomes of the draft decides how the group goes on: with the draft, or with the nodes
    -- that it leads to, narrowed by a test or a pseudo-class.
    refine (determined_draftToken settings draft token).bind fun drafted => ?_
    split
    · exact determined_run tokens _ nodes
    · exact determined_run tokens _ nodes
    · refine (determined_follow settings _ nodes).bind fun found => ?_
      exact Determined.tree.bind fun t => determined_run tokens {} _
    · cases token with
      | pseudoClass name argument =>
        refine (determined_followDraft settings _ nodes).bind fun found => ?_
        dsimp only
        split_ifs
        · exact determined_run tokens {} found
        · refine (determined_narrow name argument found).bind fun kept => ?_
          exact determined_run tokens {} kept
      | _ =>
        refine (determined_followDraft settings _ nodes).bind fun found => ?_
        exact Determined.tree.bind fun t => determined_run tokens {} _
termination_by tokens => (Group.weight tokens, tokens.length)
decreasing_by
  all_goals
    simp only [Group.weight, List.length_cons, Prod.lex_def]
    omega

/-- Narrowing by a pseudo-class is determined. -/
theorem determined_narrow (name : String) (argument : Option String) (nodes : List NodeId) :
    Determined (narrow settings name argument nodes) := by
  rw [narrow]
  split
  · exact (Determined.warn _).bind fun _ => .pure _
  · exact (determined_keepGroups _ nodes).bind fun kept => .pure _
  · refine .filter (fun n => Determined.tree.bind fun t => ?_) nodes
    split_ifs
    · exact (determined_findGroups _ [n]).bind fun found => .pure _
    · exact .pure _
  · exact determined_keepNthChild _ nodes
  · split
    · exact .pure _
    · exact Determined.tree.bind fun t => .pure _
termination_by ((Token.pseudoClass name argument).weight, 0)
decreasing_by
  all_goals exact Prod.Lex.left _ _ (weight_argument_lt name argument)

/-- Filtering by groups is determined. -/
theorem determined_keepGroups :
    ∀ (groups : List Group) (nodes : List NodeId), Determined (keepGroups settings groups nodes)
  | [], nodes => by
    rw [keepGroups]
    exact .pure _
  | group :: groups, nodes => by
    rw [keepGroups]
    split_ifs
    · exact determined_keepGroups groups nodes
    · refine Determined.tree.bind fun t => ?_
      refine (determined_narrowAll group.simpleTokens _).bind fun kept => ?_
      exact (determined_keepGroups groups nodes).bind fun more => .pure _
termination_by groups => (Group.totalWeight groups, extent groups)
decreasing_by
  all_goals
    have hweight := weight_simpleTokens_le group
    have hlength := length_simpleTokens_le group
    simp only [Group.totalWeight, extent, Prod.lex_def]
    omega

/-- Narrowing by the pseudo-classes among some tokens is determined. -/
theorem determined_narrowAll :
    ∀ (tokens : List Token) (nodes : List NodeId),
      Determined (narrowAll settings tokens nodes)
  | [], nodes => by
    rw [narrowAll]
    exact .pure _
  | token :: tokens, nodes => by
    cases token with
    | pseudoClass name argument =>
      rw [narrowAll]
      refine (determined_narrow name argument nodes).bind fun kept => ?_
      exact determined_narrowAll tokens kept
    | _ =>
      rw [narrowAll]
      · exact determined_narrowAll tokens nodes
      · exact fun _ _ => nofun
termination_by tokens => (Group.weight tokens, tokens.length)
decreasing_by
  all_goals
    simp only [Group.weight, List.length_cons, Prod.lex_def]
    omega

end

/-- What a selector finds is decided by the tree. -/
theorem determined_find (selector : Selector) (nodes : List NodeId) :
    Determined (find settings selector nodes) :=
  (determined_findGroups settings selector.groups nodes).bind fun _ => .pure _

/-- What a selector keeps is decided by the tree. -/
theorem determined_keep (selector : Selector) (nodes : List NodeId) :
    Determined (keep settings selector nodes) :=
  (determined_keepGroups settings selector.groups nodes).bind fun _ => .pure _

end

/-! ## One search after the other -/

/-- What two searches give one after the other is what they give by themselves, if the first keeps
the tree and the tree decides about the second. -/
theorem result_bind {q : Query α} {f : α → Query β} {s : Session} (hq : Keeps s.tree q)
    (hf : ∀ a, Determined (f a)) :
    result (q >>= f) s = (do let a ← result q s; result (f a) s) := by
  have hkept := hq s rfl
  cases hs : q s with
  | ok a s' =>
    -- Both queries start from the same tree, for the first one keeps it.
    rw [hs] at hkept
    have hrun : result (q >>= f) s = result (f a) s' := by
      simp only [result, Bind.bind, EStateM.bind, hs]
    have hfirst : result q s = .ok a := by rw [result, hs]
    rw [hrun, hfirst, (hf a).result_eq hkept.1]
    rfl
  -- If the first query is stopped, the second one does not run.
  | error e s' =>
    have hrun : result (q >>= f) s = .error e := by
      simp only [result, Bind.bind, EStateM.bind, hs]
    have hfirst : result q s = .error e := by rw [result, hs]
    rw [hrun, hfirst]
    rfl

/-- What is put together from two searches is put together from what each gives by itself. -/
theorem result_both {γ : Type} {q : Query α} {q' : Query β} {s : Session} (hq : Keeps s.tree q)
    (hq' : Keeps s.tree q') (hdetermined : Determined q') (f : α → β → γ) :
    result (do let a ← q; let b ← q'; return f a b) s =
      (do let a ← result q s; let b ← result q' s; return f a b) := by
  rw [result_bind hq fun a => hdetermined.bind fun b => .pure (f a b)]
  refine bind_congr fun a => ?_
  rw [result_bind hq' fun b => .pure (f a b)]
  rfl

end TreeQuery.Query
