import TreeQuery.Proofs.Contracts
import TreeQuery.Proofs.Loaded
import TreeQuery.Proofs.Positional
import TreeQuery.Proofs.Steps
import TreeQuery.Query.Search

/-!
# Following steps in a loaded tree

In a tree made of markup every node hangs from the document node, so nothing is ever mounted
(`attach_eq_ok`), every element has a positional path, and following steps from nodes never fails:
it finds what the steps lead to, in the order in which it is met (`meets_follow`).
-/

namespace TreeQuery

variable {t : Tree} {n : NodeId} {nodes : List NodeId}

/-! ## Nothing to mount -/

namespace Tree

/-- Elements and documents are the nodes that steps lead on from. -/
def Followable (t : Tree) (n : NodeId) : Prop :=
  t.isElement n = true ∨ t.isDocument n = true

/-- In a tree made of markup the walk upwards ends at the document node. -/
theorem Loaded.top_eq (h : t.Loaded) (hn : n < t.size) : t.top n = .document := by
  by_contra hne
  obtain ⟨p, hp, -⟩ := h.hangs (h.toWellFormed.top_lt_size hn) hne
  rw [h.toWellFormed.parent?_top] at hp
  cases hp

end Tree

/-- Below a node that may stand as a root nothing has to be mounted. -/
theorem Mount.attach_eq_ok_of_isRoot (hn : n < t.size) (hroot : t.isRoot (t.top n) = true) :
    attach t n = .ok ⟨t, none⟩ := by
  unfold attach
  rw [Tree.contains_of_lt hn, hroot]
  rfl

/-- In a tree made of markup nothing has to be mounted. -/
theorem Mount.attach_eq_ok (h : t.Loaded) (hn : n < t.size) : attach t n = .ok ⟨t, none⟩ :=
  attach_eq_ok_of_isRoot hn ((h.top_eq hn).symm ▸ h.isRoot_document)

namespace Query

/-- No error stops a search. -/
def Never (_ : QueryError) : Prop :=
  False

/-- A search that no error stops gives a result as promised. -/
theorem Meets.exists_ok {α : Type} {q : Query α} {post : α → Prop} (h : Meets t q post Never)
    {s : Session} (hs : s.tree = t) : ∃ a s', q s = .ok a s' ∧ s'.tree = t ∧ post a := by
  have hrun := h s hs
  cases hq : q s with
  | ok a s' =>
    rw [hq] at hrun
    exact ⟨a, s', rfl, hrun⟩
  | error e s' =>
    rw [hq] at hrun
    exact absurd hrun.2 id

/-! ## Steps -/

end Query

/-- Where steps lead from a node, in order: nowhere, unless the node is an element or a document. -/
def Tree.followOn (t : Tree) (steps : List Step) (n : NodeId) : List NodeId :=
  if t.isElement n || t.isDocument n then t.follow steps [n] else []

/-- Where steps lead from several nodes, in the order in which they are met. -/
def Tree.reached (t : Tree) (steps : List Step) (nodes : List NodeId) : List NodeId :=
  (NodeSet.ofList (nodes.flatMap (t.followOn steps))).nodes

/-- Where a draft leads from several nodes: to the nodes themselves, if it has no steps. -/
def Draft.reached (t : Tree) (draft : Draft) (nodes : List NodeId) : List NodeId :=
  if draft.isEmpty then nodes else t.reached draft.steps nodes

/-- From an element or a document, steps lead where they are followed to. -/
theorem Tree.followOn_eq {steps : List Step} (hn : t.Followable n) :
    t.followOn steps n = t.follow steps [n] := by
  unfold followOn
  rw [if_pos (Bool.or_eq_true_iff.mpr hn)]

/-- From another node steps lead nowhere. -/
theorem Tree.followOn_eq_nil {steps : List Step} (hn : ¬ t.Followable n) :
    t.followOn steps n = [] := by
  unfold followOn
  rw [if_neg fun hgo => hn (Bool.or_eq_true_iff.mp hgo)]

/-- Steps lead to a node from an element or a document. -/
theorem Tree.mem_followOn {steps : List Step} {m : NodeId} :
    m ∈ t.followOn steps n ↔ t.Followable n ∧ t.StepsTo steps n m := by
  by_cases hn : t.Followable n
  · rw [followOn_eq hn, mem_follow, and_iff_right hn]
    simp only [List.mem_singleton, exists_eq_left]
  · rw [followOn_eq_nil hn]
    exact iff_of_false List.not_mem_nil fun hm => hn hm.1

/-- What steps lead to from several nodes is what they lead to from an element or a document among
them. -/
theorem Tree.mem_reached {steps : List Step} {m : NodeId} :
    m ∈ t.reached steps nodes ↔ ∃ n ∈ nodes, t.Followable n ∧ t.StepsTo steps n m := by
  unfold reached
  rw [NodeSet.mem_ofList, List.mem_flatMap]
  simp only [mem_followOn]

namespace Query

/-- Following steps from an element or a document that has a path, where nothing has to be mounted,
finds what the steps lead to, in order. -/
theorem meets_followFrom_of_path (h : t.WellFormed) (hn : t.Followable n)
    (hattach : Mount.attach t n = .ok ⟨t, none⟩) {path : LocationPath}
    (hpath : t.positionalPath n = .ok path) (settings : Settings) (steps : List Step) :
    Meets t (followFrom settings steps n) (· = t.followOn steps n) Never := by
  unfold followFrom
  -- The tree that the query reads is `t`, in which the path leads to the node again.
  refine Meets.bind (.tree rfl) fun u hu => ?_
  subst hu
  have hfollow := h.follow_positionalPath hpath steps
  have hgo : ¬ (!t.isElement n && !t.isDocument n) = true := by
    rcases hn with hn | hn <;> simp [hn]
  rw [if_neg hgo, Tree.followOn_eq hn]
  refine .mounted h (fun m hm => ?_) fun e he => ?_
  · -- The tree to search is the tree itself.
    rw [hattach] at hm
    obtain rfl := Except.ok.inj hm
    refine Meets.bind (.tree rfl) fun v hv => ?_
    subst hv
    rw [hpath]
    have hrecord : ∀ event, Meets t (record event) (fun _ => True) Never :=
      fun _ => .record trivial
    refine Meets.bind (hrecord _) fun _ _ => ?_
    rw [hfollow]
    refine Meets.bind (.pure rfl) fun found hfound => ?_
    subst hfound
    dsimp only
    split_ifs
    · exact Meets.bind (hrecord _) fun _ _ => .pure rfl
    · exact .pure rfl
  -- Nothing has to be mounted, so mounting cannot fail.
  · rw [hattach] at he
    cases he

/-- Following steps from a node finds what they lead to, in order. -/
theorem meets_followFrom (h : t.Loaded) (settings : Settings) (steps : List Step) (n : NodeId) :
    Meets t (followFrom settings steps n) (· = t.followOn steps n) Never := by
  by_cases hn : t.Followable n
  -- An element or a document has a path in a loaded tree, from which the steps are followed.
  · have hlt := Tree.lt_size_of_isElement_or_isDocument hn
    obtain ⟨path, hpath⟩ := h.positionalPath_eq_ok hn
    exact meets_followFrom_of_path h.toWellFormed hn (Mount.attach_eq_ok h hlt) hpath settings steps
  -- From any other node nothing is followed.
  · have hstop : (!t.isElement n && !t.isDocument n) = true := by
      unfold Tree.Followable at hn
      rw [not_or, Bool.not_eq_true, Bool.not_eq_true] at hn
      rw [hn.1, hn.2]
      rfl
    unfold followFrom
    refine Meets.bind (.tree rfl) fun u hu => ?_
    subst hu
    rw [if_pos hstop, Tree.followOn_eq_nil hn]
    exact .pure rfl

/-- The results for several nodes, if each is decided by its node. -/
theorem flatten_eq_flatMap {f : NodeId → List NodeId} {parts : List (List NodeId)}
    (h : List.Forall₂ (fun n part => part = f n) nodes parts) :
    parts.flatten = nodes.flatMap f := by
  induction h with
  | nil => rfl
  | cons heq _ ih => rw [List.flatten_cons, List.flatMap_cons, heq, ih]

/-- Following steps from several nodes finds what they lead to, if it does so from each. -/
theorem meets_follow_of {settings : Settings} {steps : List Step}
    (h : ∀ n ∈ nodes, Meets t (followFrom settings steps n) (· = t.followOn steps n) Never) :
    Meets t (follow settings steps nodes) (· = t.reached steps nodes) Never := by
  refine (Meets.flatMap h).bind fun all hall => .pure ?_
  obtain ⟨parts, hparts, rfl⟩ := hall
  rw [flatten_eq_flatMap hparts]
  rfl

/-- Following steps from several nodes finds what they lead to, in order. -/
theorem meets_follow (h : t.Loaded) (settings : Settings) (steps : List Step)
    (nodes : List NodeId) :
    Meets t (follow settings steps nodes) (· = t.reached steps nodes) Never :=
  meets_follow_of fun n _ => meets_followFrom h settings steps n

/-- Following a draft finds what it leads to, in order. -/
theorem meets_followDraft (h : t.Loaded) (settings : Settings) (draft : Draft)
    (nodes : List NodeId) :
    Meets t (followDraft settings draft nodes) (· = draft.reached t nodes) Never := by
  unfold followDraft Draft.reached
  split_ifs
  · exact .pure rfl
  · exact meets_follow h settings draft.steps nodes

/-- A list of nodes has exactly the nodes that steps lead to from any of several nodes. -/
def Finds (t : Tree) (steps : List Step) (nodes found : List NodeId) : Prop :=
  ∀ e, e ∈ found ↔ ∃ c ∈ nodes, t.StepsTo steps c e

/-- What is reached from elements and documents is what the steps lead to. -/
theorem finds_reached (steps : List Step) (hnodes : ∀ n ∈ nodes, t.Followable n) :
    Finds t steps nodes (t.reached steps nodes) := by
  intro e
  rw [Tree.mem_reached]
  exact exists_congr fun c => and_congr_right fun hc => and_iff_right (hnodes c hc)

/-- What a draft reaches from elements and documents is what its steps lead to. -/
theorem finds_draft_reached (draft : Draft) (hnodes : ∀ n ∈ nodes, t.Followable n) :
    Finds t draft.steps nodes (draft.reached t nodes) := by
  unfold Draft.reached
  split_ifs with hempty
  · intro e
    rw [List.isEmpty_iff.mp hempty]
    constructor
    · intro he
      exact ⟨e, he, rfl⟩
    · rintro ⟨c, hc, rfl⟩
      exact hc
  · exact finds_reached draft.steps hnodes

/-- A token is taken into a draft as the draft takes it, with a warning or without. -/
theorem meets_draftToken {err : QueryError → Prop} (settings : Settings) (draft : Draft)
    (token : Token) :
    Meets t (draftToken settings draft token) (· = draft.add settings token) err := by
  unfold draftToken
  obtain ⟨outcome, drafted⟩ := draft.add settings token
  dsimp only
  have hwarn : Meets t (warn (.unrecognizedToken token.render)) (fun _ => True) err :=
    .warn trivial
  split_ifs
  · exact hwarn.bind fun _ _ => .pure rfl
  · exact .pure rfl

end Query

end TreeQuery
