import TreeQuery.Proofs.Following
import TreeQuery.Proofs.SiblingTests

/-!
# Searching finds what matches

A group is a chain of compounds, and a node matches it from another if there is a chain of elements
between the two, each related to the one before as its combinator says and passing the tests of its
compound (`Tree.Matches`). A search goes about it differently: it draws up a path as long as it can,
evaluates it from the document node, once for each node at hand, and goes on from what is left.
Where it stops to evaluate makes no difference: `Query.Reads` says what the tokens still to read and
the draft at hand lead to together, there is one rule for each token, and `find_iff_matches` follows
by going through the tokens.
-/

namespace TreeQuery

/-! ## Compounds -/

/-- A compound with the combinator that leads to it. -/
inductive Compound where
  /-- Among the children. -/
  | child (first : SimpleTest) (others : List SimpleTest)
  /-- Among the nodes below. -/
  | descendant (first : SimpleTest) (others : List SimpleTest)
  /-- The next element sibling. -/
  | adjacent (sub : SiblingTest) (others : List SimpleTest)
  /-- Among the later element siblings. -/
  | general (sub : SiblingTest) (others : List SimpleTest)

namespace Compound

/-- The tokens of a compound. -/
def tokens : Compound → List Token
  | child first others => .child :: (first :: others).map (·.token)
  | descendant first others => .descendant :: (first :: others).map (·.token)
  | adjacent sub others => .adjacent sub.text :: others.map (·.token)
  | general sub others => .general sub.text :: others.map (·.token)

/-- The tests of a compound. -/
def tests : Compound → List SimpleTest
  | child first others | descendant first others => first :: others
  | adjacent sub others | general sub others => sub.tests ++ others

/-- Two nodes are related as the combinator of a compound says. -/
def Relates (t : Tree) : Compound → NodeId → NodeId → Prop
  | child _ _, n, m => t.parent? m = some n
  | descendant _ _, n, m => t.Above n m
  | adjacent _ _, n, m =>
    ∃ between, t.Later between n m ∧ ∀ k ∈ between, t.isElement k = false
  | general _ _, n, m => ∃ between, t.Later between n m

end Compound

/-- A chain of elements leads from one node to another, each of them related to the one before as
the combinator of its compound says, and passing all tests of the compound. -/
def Tree.Matches (t : Tree) (settings : Settings) : List Compound → NodeId → NodeId → Prop
  | [], n, e => n = e
  | compound :: compounds, n, e =>
    ∃ m, t.isElement m = true ∧ compound.Relates t n m ∧
      (∀ test ∈ compound.tests, test.Holds t settings m) ∧ Matches t settings compounds m e

namespace Query

variable {t : Tree} {settings : Settings} {tokens : List Token} {axis? : Option Axis}
  {goesTo : NodeId → NodeId → Prop}

/-! ## Running tokens -/

/-- With the axis `axis?` waiting, tokens lead from where the draft leads on as `goesTo` says. -/
def Reads (t : Tree) (settings : Settings) (tokens : List Token) (axis? : Option Axis)
    (goesTo : NodeId → NodeId → Prop) : Prop :=
  ∀ (draft : Draft) (nodes : List NodeId), draft.axis? = axis? →
    (∀ n ∈ nodes, t.Followable n) →
      Meets t (run settings tokens draft nodes)
        (fun found => ∀ e, e ∈ found ↔
          ∃ c ∈ nodes, ∃ m, t.StepsTo draft.steps c m ∧ goesTo m e) Never

/-- What tokens lead to may be said in another way. -/
theorem Reads.congr {goesTo' : NodeId → NodeId → Prop} (h : Reads t settings tokens axis? goesTo)
    (hiff : ∀ n e, goesTo n e ↔ goesTo' n e) : Reads t settings tokens axis? goesTo' := by
  have heq : goesTo = goesTo' := funext fun n => funext fun e => propext (hiff n e)
  exact heq ▸ h

/-- Where there are no nodes nothing is found, and elsewhere tokens are looked at. -/
theorem meets_run_of_nonempty {draft : Draft} {nodes : List NodeId} {post : List NodeId → Prop}
    (hnone : nodes = [] → post [])
    (h : nodes.isEmpty = false → Meets t (run settings tokens draft nodes) post Never) :
    Meets t (run settings tokens draft nodes) post Never := by
  cases hempty : nodes.isEmpty with
  | false => exact h hempty
  | true =>
    have hrun : run settings tokens draft nodes = pure nodes := by
      cases tokens with
      | nil => rw [run, if_pos hempty]
      | cons token tokens => rw [run, if_pos hempty]
    have hnil : nodes = [] := List.isEmpty_iff.mp hempty
    rw [hrun, hnil]
    exact .pure (hnone hnil)

/-- What tokens lead to need be known only where there are nodes. -/
theorem reads_of_nonempty
    (h : ∀ (draft : Draft) (nodes : List NodeId), nodes.isEmpty = false → draft.axis? = axis? →
      (∀ n ∈ nodes, t.Followable n) →
        Meets t (run settings tokens draft nodes)
          (fun found => ∀ e, e ∈ found ↔
            ∃ c ∈ nodes, ∃ m, t.StepsTo draft.steps c m ∧ goesTo m e) Never) :
    Reads t settings tokens axis? goesTo := by
  intro draft nodes haxis hnodes
  refine meets_run_of_nonempty (fun hnil e => ?_) fun hempty => h draft nodes hempty haxis hnodes
  simp [hnil]

/-- At the end of a group the search is where the draft leads. An axis that waits is dropped. -/
theorem reads_nil (h : t.Loaded) (axis? : Option Axis) : Reads t settings [] axis? Eq := by
  refine reads_of_nonempty fun draft nodes hempty _ hnodes => ?_
  rw [run, hempty]
  refine (meets_followDraft h settings draft nodes).weaken (fun found hfound e => ?_)
    fun _ he => he
  rw [hfound, finds_draft_reached draft hnodes e]
  refine exists_congr fun c => and_congr_right fun _ => ?_
  constructor
  · intro he
    exact ⟨e, he, rfl⟩
  · rintro ⟨m, hm, rfl⟩
    exact hm

/-- A search goes on after a token that the draft has taken in. -/
theorem meets_run_structural {token : Token} {draft drafted : Draft} {nodes : List NodeId}
    {post : List NodeId → Prop} (hadd : draft.add settings token = (.structural, drafted))
    (hempty : nodes.isEmpty = false)
    (hrest : Meets t (run settings tokens drafted nodes) post Never) :
    Meets t (run settings (token :: tokens) draft nodes) post Never := by
  rw [run, hempty]
  refine (meets_draftToken settings draft token).bind fun result hresult => ?_
  rw [hresult, hadd]
  exact hrest

/-- A combinator that leads downwards waits for the next test. -/
theorem reads_axis {token : Token} {axis : Axis}
    (hadd : ∀ draft : Draft, draft.add settings token =
      (.structural, { draft with axis? := some axis }))
    (hrest : Reads t settings tokens (some axis) goesTo) :
    Reads t settings (token :: tokens) axis? goesTo :=
  reads_of_nonempty fun draft nodes hempty _ hnodes =>
    meets_run_structural (hadd draft) hempty (hrest _ nodes rfl hnodes)

/-- A search goes on from the nodes that pass a narrowing. -/
theorem meets_run_narrow (h : t.Loaded) {token : Token} {draft drafted : Draft}
    {narrowing : Narrowing} {nodes : List NodeId} {post : List NodeId → Prop}
    (hadd : draft.add settings token = (.narrow narrowing, drafted))
    (hempty : nodes.isEmpty = false)
    (hrest : Meets t (run settings tokens {}
      ((t.reached drafted.steps nodes).filter fun n => narrowing.holds t n)) post Never) :
    Meets t (run settings (token :: tokens) draft nodes) post Never := by
  rw [run, hempty]
  refine (meets_draftToken settings draft token).bind fun result hresult => ?_
  rw [hresult, hadd]
  refine (meets_follow h settings drafted.steps nodes).bind fun found hfound => ?_
  refine Meets.bind (.tree rfl) fun u hu => ?_
  subst hfound hu
  exact hrest

/-- A search goes on from the siblings of what the draft leads to. -/
theorem meets_run_sibling (h : t.Loaded) {token : Token} {draft : Draft} {nodes : List NodeId}
    {post : List NodeId → Prop}
    (htoken : (∃ sub, token = .adjacent sub) ∨ ∃ sub, token = .general sub)
    (hempty : nodes.isEmpty = false)
    (hrest : Meets t (run settings tokens {}
      (t.siblingsOf settings token (draft.reached t nodes))) post Never) :
    Meets t (run settings (token :: tokens) draft nodes) post Never := by
  -- The token is left to the search, the draft is followed, and the siblings of what it finds are
  -- where the rest starts from.
  rw [run, hempty]
  refine (meets_draftToken settings draft token).bind fun result hresult => ?_
  rw [hresult]
  have hfollow := meets_followDraft h settings draft nodes
  rcases htoken with ⟨sub, rfl⟩ | ⟨sub, rfl⟩
  · refine hfollow.bind fun found hfound => Meets.bind (.tree rfl) fun u hu => ?_
    subst hfound hu
    exact hrest
  · refine hfollow.bind fun found hfound => Meets.bind (.tree rfl) fun u hu => ?_
    subst hfound hu
    exact hrest

/-! ## One rule for each token -/

/-- A test leads along the axis that waits to the nodes that pass it, whether it is drawn up as a
step, as a predicate, or as a predicate and a narrowing. -/
theorem reads_test (h : t.Loaded) (test : SimpleTest)
    (hrest : Reads t settings tokens none goesTo) :
    Reads t settings (test.token :: tokens) axis? fun n e =>
      ∃ m, t.AxisTo (axis?.getD .self) n m ∧ test.Holds t settings m ∧ goesTo m e := by
  refine reads_of_nonempty fun draft nodes hempty haxis hnodes => ?_
  subst haxis
  -- The node that the test leads on to may be named before or after the one it starts from.
  have hthrough : ∀ c e, (∃ m, test.LeadsOn t settings draft c m ∧ goesTo m e) ↔
      ∃ k, t.StepsTo draft.steps c k ∧ ∃ m, t.AxisTo (draft.axis?.getD .self) k m ∧
        test.Holds t settings m ∧ goesTo m e := by
    intro c e
    constructor
    · rintro ⟨m, ⟨k, hk, haxis, hholds⟩, hgoes⟩
      exact ⟨k, hk, m, haxis, hholds, hgoes⟩
    · rintro ⟨k, hk, m, haxis, hholds, hgoes⟩
      exact ⟨m, ⟨k, hk, haxis, hholds⟩, hgoes⟩
  obtain ⟨drafted, hnone, ⟨hadd, hleads⟩ | ⟨narrowing, hadd, hleads⟩⟩ :=
    test.add_token h.toWellFormed settings draft
  · refine meets_run_structural hadd hempty ?_
    refine (hrest drafted nodes hnone hnodes).weaken (fun found hfound e => ?_) fun _ he => he
    rw [hfound e]
    simp only [hleads, hthrough]
  · -- The draft is used up here, and the rest of the tokens starts from the nodes that are left.
    refine meets_run_narrow h hadd hempty ?_
    -- What passes the narrowing is where the test leads.
    have hmem : ∀ m, m ∈ ((t.reached drafted.steps nodes).filter fun n => narrowing.holds t n) ↔
        ∃ c ∈ nodes, test.LeadsOn t settings draft c m := by
      intro m
      rw [List.mem_filter, finds_reached drafted.steps hnodes m]
      constructor
      · rintro ⟨⟨c, hc, hsteps⟩, hholds⟩
        exact ⟨c, hc, (hleads c m).mp ⟨hsteps, hholds⟩⟩
      · rintro ⟨c, hc, hlead⟩
        obtain ⟨hsteps, hholds⟩ := (hleads c m).mpr hlead
        exact ⟨⟨c, hc, hsteps⟩, hholds⟩
    have helements : ∀ m ∈ ((t.reached drafted.steps nodes).filter fun n => narrowing.holds t n),
        t.Followable m :=
      fun m hm => .inl (narrowing.isElement_of_holds (List.mem_filter.mp hm).2)
    refine (hrest {} _ rfl helements).weaken (fun result hresult e => ?_) fun _ he => he
    rw [hresult e]
    constructor
    · rintro ⟨m, hm, k, hmk, hgoes⟩
      obtain rfl : m = k := hmk
      obtain ⟨c, hc, hlead⟩ := (hmem m).mp hm
      exact ⟨c, hc, (hthrough c e).mp ⟨m, hlead, hgoes⟩⟩
    · rintro ⟨c, hc, hgoes⟩
      obtain ⟨m, hlead, hgoes⟩ := (hthrough c e).mpr hgoes
      exact ⟨m, (hmem m).mpr ⟨c, hc, hlead⟩, m, rfl, hgoes⟩

/-- Tests without a combinator between them are tests of one node. -/
theorem reads_tests (h : t.Loaded) (tests : List SimpleTest)
    (hrest : Reads t settings tokens none goesTo) :
    Reads t settings (tests.map (·.token) ++ tokens) none fun n e =>
      (∀ test ∈ tests, test.Holds t settings n) ∧ goesTo n e := by
  induction tests with
  | nil => exact hrest.congr fun n e => by simp
  | cons test tests ih =>
    refine (reads_test h test ih).congr fun n e => ?_
    rw [List.forall_mem_cons]
    constructor
    · rintro ⟨m, hnm, htest, htests, hgoes⟩
      obtain rfl : n = m := hnm
      exact ⟨⟨htest, htests⟩, hgoes⟩
    · rintro ⟨⟨htest, htests⟩, hgoes⟩
      exact ⟨n, rfl, htest, htests, hgoes⟩

/-- A sibling combinator leads to the siblings of what the draft leads to. -/
theorem reads_sibling (h : t.Loaded) {token : Token} {reaches : NodeId → NodeId → Prop}
    (htoken : (∃ sub, token = .adjacent sub) ∨ ∃ sub, token = .general sub)
    (hmem : ∀ found m, m ∈ t.siblingsOf settings token found ↔ ∃ n ∈ found, reaches n m)
    (helement : ∀ n m, reaches n m → t.isElement m = true)
    (hrest : Reads t settings tokens none goesTo) :
    Reads t settings (token :: tokens) axis? fun n e => ∃ m, reaches n m ∧ goesTo m e := by
  refine reads_of_nonempty fun draft nodes hempty _ hnodes => ?_
  refine meets_run_sibling h htoken hempty ?_
  -- The draft finds the nodes that its steps lead to, and the siblings of these are elements.
  have hfound := finds_draft_reached draft hnodes
  have helements : ∀ m ∈ t.siblingsOf settings token (draft.reached t nodes), t.Followable m := by
    intro m hm
    obtain ⟨n, -, hnm⟩ := (hmem _ m).mp hm
    exact .inl (helement n m hnm)
  refine (hrest {} _ rfl helements).weaken (fun result hresult e => ?_) fun _ he => he
  rw [hresult e]
  -- From what the rest finds back to where the search started, and the other way round.
  constructor
  · rintro ⟨m, hm, k, hmk, hgoes⟩
    obtain rfl : m = k := hmk
    obtain ⟨n, hn, hnm⟩ := (hmem _ m).mp hm
    obtain ⟨c, hc, hsteps⟩ := (hfound n).mp hn
    exact ⟨c, hc, n, hsteps, m, hnm, hgoes⟩
  · rintro ⟨c, hc, n, hsteps, m, hnm, hgoes⟩
    exact ⟨m, (hmem _ m).mpr ⟨n, (hfound n).mpr ⟨c, hc, hsteps⟩, hnm⟩, m, rfl, hgoes⟩

/-! ## Compounds and groups -/

/-- A compound leads to the elements that are related to a node as its combinator says and pass its
tests. -/
theorem reads_compound (h : t.Loaded) (compound : Compound)
    (hrest : Reads t settings tokens none goesTo) :
    Reads t settings (compound.tokens ++ tokens) none fun n e =>
      ∃ m, t.isElement m = true ∧ compound.Relates t n m ∧
        (∀ test ∈ compound.tests, test.Holds t settings m) ∧ goesTo m e := by
  have hwf := h.toWellFormed
  -- Behind `>` and a space an axis waits, which the first test takes. Behind `+` and `~` the
  -- siblings that the test accepts are found first, and the other tests go on from them.
  cases compound with
  | child first others =>
    refine (reads_axis (fun _ => rfl) (reads_test h first (reads_tests h others hrest))).congr
      fun n e => exists_congr fun m => ?_
    unfold Compound.tests
    rw [List.forall_mem_cons]
    show (t.parent? m = some n ∧ t.isElement m = true) ∧ _ ↔ _ ∧ t.parent? m = some n ∧ _
    tauto
  | descendant first others =>
    refine (reads_axis (fun _ => rfl) (reads_test h first (reads_tests h others hrest))).congr
      fun n e => exists_congr fun m => ?_
    unfold Compound.tests
    rw [List.forall_mem_cons]
    show (t.Above n m ∧ t.isElement m = true) ∧ _ ↔ _ ∧ t.Above n m ∧ _
    tauto
  -- The next element sibling counts if it passes the tests of the combinator.
  | adjacent sub others =>
    have hsiblings : ∀ found m, m ∈ t.siblingsOf settings (.adjacent sub.text) found ↔
        ∃ n ∈ found, t.isElement m = true ∧ (Compound.adjacent sub others).Relates t n m ∧
          ∀ test ∈ sub.tests, test.Holds t settings m := by
      intro found m
      rw [Tree.mem_siblingsOf_adjacent]
      refine exists_congr fun n => and_congr_right fun _ => ?_
      rw [hwf.nextElement?_eq_some_iff, and_assoc]
      exact and_congr_right fun hm => and_congr_right fun _ => sub.acceptsSibling_iff hm
    refine (reads_sibling h (.inl ⟨_, rfl⟩) hsiblings (fun _ _ hreach => hreach.1)
      (reads_tests h others hrest)).congr fun n e => exists_congr fun m => ?_
    unfold Compound.tests
    rw [List.forall_mem_append]
    tauto
  -- All element siblings behind the node that pass them count.
  | general sub others =>
    have hsiblings : ∀ found m, m ∈ t.siblingsOf settings (.general sub.text) found ↔
        ∃ n ∈ found, t.isElement m = true ∧ (Compound.general sub others).Relates t n m ∧
          ∀ test ∈ sub.tests, test.Holds t settings m := by
      intro found m
      rw [Tree.mem_siblingsOf_general]
      refine exists_congr fun n => and_congr_right fun _ => ?_
      rw [hwf.mem_followingElements, and_assoc]
      exact and_congr_right fun hm => and_congr_right fun _ => sub.acceptsSibling_iff hm
    refine (reads_sibling h (.inr ⟨_, rfl⟩) hsiblings (fun _ _ hreach => hreach.1)
      (reads_tests h others hrest)).congr fun n e => exists_congr fun m => ?_
    unfold Compound.tests
    rw [List.forall_mem_append]
    tauto

/-- A group leads to the elements that match it. -/
theorem reads_group (h : t.Loaded) (compounds : List Compound) :
    Reads t settings (compounds.flatMap (·.tokens)) none (t.Matches settings compounds) := by
  induction compounds with
  | nil => exact reads_nil h none
  | cons compound compounds ih => exact reads_compound h compound ih

/-- Searching a tree made of markup with a group of compounds finds, without an error, each element
that matches the group from one of the given elements and documents, each once, and no other
node. -/
theorem find_iff_matches {flavour : Flavour} {markup : Markup}
    (hbuild : Markup.build? flavour markup = .ok t) (settings : Settings)
    (compounds : List Compound) {nodes : List NodeId}
    (hnodes : ∀ n ∈ nodes, t.isElement n = true ∨ t.isDocument n = true) (s : Session)
    (hs : s.tree = t) :
    ∃ found s', find settings ⟨[compounds.flatMap (·.tokens)]⟩ nodes s = .ok found s' ∧
      found.Nodup ∧ ∀ e, e ∈ found ↔ ∃ c ∈ nodes, t.Matches settings compounds c e := by
  -- A tree made of markup is loaded, so nothing has to be mounted and no search is stopped.
  have h : t.Loaded := Tree.loaded_build? hbuild
  have hreads : Reads t settings _ none (t.Matches settings compounds) := reads_group h compounds
  have hfind : Meets t (find settings ⟨[compounds.flatMap (·.tokens)]⟩ nodes)
      (fun found => found.Nodup ∧
        ∀ e, e ∈ found ↔ ∃ c ∈ nodes, t.Matches settings compounds c e) Never := by
    -- The list of groups has one group, and the search starts where its draft is empty.
    have hgroups : Meets t (findGroups settings [compounds.flatMap (·.tokens)] nodes)
        (fun found => ∀ e, e ∈ found ↔ ∃ c ∈ nodes, t.Matches settings compounds c e) Never := by
      rw [findGroups]
      refine (hreads {} nodes rfl hnodes).bind fun found hfound => ?_
      rw [findGroups]
      refine Meets.bind (.pure rfl) fun more hmore => .pure fun e => ?_
      subst hmore
      rw [List.append_nil, hfound e]
      refine exists_congr fun c => and_congr_right fun _ => ?_
      constructor
      · rintro ⟨m, hcm, hm⟩
        obtain rfl : c = m := hcm
        exact hm
      · intro hm
        exact ⟨c, rfl, hm⟩
    -- What is found is made a set, with the same members.
    unfold find
    refine hgroups.bind fun found hfound => .pure ⟨NodeSet.nodup _, fun e => ?_⟩
    rw [NodeSet.mem_ofList]
    exact hfound e
  obtain ⟨found, s', hok, -, hfound⟩ := hfind.exists_ok hs
  exact ⟨found, s', hok, hfound⟩

/-- For one, `div > p.first + p` in a division with two paragraphs. -/
theorem find_iff_matches_paragraphs :
    ∃ t, Markup.build? .html (.element "div" .empty
        [.element "p" (.ofList [("class", "first")]) [], .text "and", .element "p" .empty []]) =
          .ok t ∧
      t.isDocument .document = true ∧
      ∃ found s', find .default ⟨[[.descendant, .tag "div", .child, .tag "p", .classes "first",
          .adjacent "p"]]⟩ [.document] { tree := t } = .ok found s' ∧
        found.Nodup ∧ ∀ e, e ∈ found ↔ ∃ c ∈ [NodeId.document],
          t.Matches .default [.descendant (.tag "div" (by decide)) [],
            .child (.tag "p" (by decide)) [.classes "first"],
            .adjacent ⟨some ⟨"p", by decide⟩, none⟩ []] c e := by
  obtain ⟨t, hbuild⟩ : ∃ t, Markup.build? .html (.element "div" .empty
      [.element "p" (.ofList [("class", "first")]) [], .text "and", .element "p" .empty []]) =
        .ok t := ⟨_, rfl⟩
  have hdocument : t.isDocument .document = true :=
    Tree.isDocument_iff.mpr (Tree.loaded_build? hbuild).document
  refine ⟨t, hbuild, hdocument, ?_⟩
  refine find_iff_matches hbuild .default [.descendant (.tag "div" (by decide)) [],
    .child (.tag "p" (by decide)) [.classes "first"],
    .adjacent ⟨some ⟨"p", by decide⟩, none⟩ []] (fun n hn => ?_) _ rfl
  rw [List.mem_singleton.mp hn]
  exact .inr hdocument

end Query

end TreeQuery
