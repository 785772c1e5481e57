import TreeQuery.Proofs.CompoundOrder
import TreeQuery.Proofs.Mounted
import TreeQuery.Proofs.Reach

/-!
# The scope of a search

What a search finds hangs together with the nodes that it starts from, although paths are evaluated
from the document node, with one free subtree after another mounted below it. Following steps from a
node leads down from it, in the mounted tree and so in the tree as it is (`Mount.above_of_attach`),
and a sibling has the same nodes above it. `Tree.Within` is what is left of this after any number of
such steps. A group that asks for something behind its first combinators leads strictly down at
least once, and what lies within what it has found there lies below where it started
(`Query.below_run`). `Query.scope_of_find` is about whole selectors.
-/

namespace TreeQuery

namespace Tree

variable {t : Tree} {n e : NodeId}

/-- A node hangs together with another and lies below all that the other lies below. -/
structure Within (t : Tree) (n e : NodeId) : Prop where
  /-- The two nodes have the same topmost node. -/
  top_eq : t.top e = t.top n
  /-- What lies above the first lies above the second. -/
  above : ∀ {a : NodeId}, t.Above a n → t.Above a e

/-- A node lies below an element or a document. -/
structure Below (t : Tree) (n e : NodeId) : Prop where
  /-- The upper node is an element or a document. -/
  followable : t.Followable n
  /-- It lies above the lower one. -/
  above : t.Above n e

/-- A node lies within itself. -/
theorem Within.refl (t : Tree) (n : NodeId) : t.Within n n :=
  ⟨rfl, id⟩

/-- What lies within a node that lies within another lies within that one. -/
theorem Within.trans {a b c : NodeId} (hab : t.Within a b) (hbc : t.Within b c) : t.Within a c :=
  ⟨hbc.top_eq.trans hab.top_eq, fun h => hbc.above (hab.above h)⟩

/-- What lies within a node that lies below another lies below the other. -/
theorem Below.trans_within {a b c : NodeId} (hab : t.Below a b) (hbc : t.Within b c) :
    t.Below a c :=
  ⟨hab.followable, hbc.above hab.above⟩

/-- A node has the topmost node of any node above it. -/
theorem WellFormed.top_of_above (h : t.WellFormed) (hne : t.Above n e) : t.top e = t.top n := by
  -- The walk goes down from `n`, one child after the other.
  induction hne with
  | single hp => exact h.top_of_parent? hp
  | tail _ hp ih => exact (h.top_of_parent? hp).trans ih

/-- A node lies within those above it. -/
theorem WellFormed.within_of_above (h : t.WellFormed) (hne : t.Above n e) : t.Within n e :=
  ⟨h.top_of_above hne, fun ha => ha.trans hne⟩

/-- A later sibling has the same nodes above it. -/
theorem WellFormed.within_of_sibling (h : t.WellFormed) (he : e ∈ t.followingElements n) :
    t.Within n e := by
  obtain ⟨-, between, p, before, after, hsplit⟩ := h.mem_followingElements.mp he
  have hn : t.parent? n = some p := h.mem_children.mp (by simp [hsplit])
  have hp : t.parent? e = some p := h.mem_children.mp (by simp [hsplit])
  refine ⟨(h.top_of_parent? hp).trans (h.top_of_parent? hn).symm, fun {a} ha => ?_⟩
  obtain ⟨q, hq, hqa⟩ := above_iff.mp ha
  obtain rfl : p = q := Option.some.inj (hn.symm.trans hq)
  exact above_iff.mpr ⟨p, hp, hqa⟩

/-! ## Steps lead down -/

/-- A step along another axis than `self` leads strictly down. -/
theorem WellFormed.above_of_select (h : t.WellFormed) {step : Step} (haxis : step.axis ≠ .self)
    (he : e ∈ t.select step n) : t.Above n e := by
  unfold select at he
  split at he
  · next hself => exact absurd hself haxis
  · exact .of_parent? (h.mem_children.mp ((selectChildren_sublist step n).subset he))
  · rw [h.cons_descendants] at he
    obtain ⟨p, hp, he⟩ := List.mem_flatMap.mp he
    have hchild := h.mem_children.mp ((selectChildren_sublist step p).subset he)
    rcases h.mem_subtree.mp hp with rfl | hp
    · exact .of_parent? hchild
    · exact hp.child hchild

/-- Steps lead from a node to itself or down. -/
theorem WellFormed.eq_or_above_of_stepsTo (h : t.WellFormed) {steps : List Step}
    (he : t.StepsTo steps n e) : e = n ∨ t.Above n e := by
  induction steps generalizing n with
  | nil => exact .inl (Eq.symm he)
  | cons step steps ih =>
    obtain ⟨m, hm, he⟩ := he
    have hnm := h.mem_subtree.mp (h.mem_subtree_of_select hm)
    rcases ih he with rfl | hme
    · exact hnm
    · rcases hnm with rfl | hnm
      · exact .inr hme
      · exact .inr (hnm.trans hme)

/-- Steps lead strictly down if the first of them does. -/
theorem WellFormed.above_of_stepsTo (h : t.WellFormed) {step : Step} {steps : List Step}
    (haxis : step.axis ≠ .self) (he : t.StepsTo (step :: steps) n e) : t.Above n e := by
  obtain ⟨m, hm, he⟩ := he
  have hnm := h.above_of_select haxis hm
  rcases h.eq_or_above_of_stepsTo he with rfl | hme
  · exact hnm
  · exact hnm.trans hme

end Tree

/-- Mounting the subtree of a node puts no node below it that was not below it before. -/
theorem Mount.above_of_attach {t : Tree} {n e : NodeId} {m : Mount} (h : t.WellFormed)
    (hok : Mount.attach t n = .ok m) (he : m.tree.Above n e) : t.Above n e := by
  rcases attach_cases h hok with ⟨-, rfl⟩ | ⟨hroot, -, -, hput, -⟩
  · exact he
  · -- A new link leads down from the document node, which the node is not and does not lie above.
    rcases hput.above he with he | ⟨hn, -⟩
    · exact he
    · exact absurd (h.mem_subtree.mpr (hn.imp_left Eq.symm)) (h.document_not_mem_subtree hroot)

namespace Query

open TreeQuery.Tree (Within Below)

variable {t : Tree} {settings : Settings}

/-- What is found from a node is what the steps lead to from an element or a document, in the tree
in which its subtree is mounted. -/
theorem meets_followFrom_mounted (h : t.WellFormed) (settings : Settings) (steps : List Step)
    (n : NodeId) :
    Meets t (followFrom settings steps n)
      (fun found => ∀ e ∈ found, t.Followable n ∧
        ∃ m, Mount.attach t n = .ok m ∧ m.tree.StepsTo steps n e) fun _ => True := by
  unfold followFrom
  refine Meets.bind (.tree rfl) fun u hu => ?_
  subst hu
  -- Only elements and documents are followed, each in the tree in which its subtree is mounted.
  split_ifs with hstop
  · exact .pure fun _ he => absurd he List.not_mem_nil
  have hn : t.Followable n := by
    unfold Tree.Followable
    revert hstop
    cases t.isElement n <;> cases t.isDocument n <;> simp
  refine .mounted h (fun m hm => ?_) fun _ _ => trivial
  refine Meets.bind (.tree rfl) fun u hu => ?_
  subst hu
  -- A node without a path there stops the search, and one with a path has its steps followed.
  split
  · exact .throw trivial
  · exact .throw trivial
  · next path hpath =>
    have hfollow := (Mount.wellFormed_attach h hm).follow_positionalPath hpath steps
    have hrecord : ∀ event, StopsOnly m.tree (record event) fun _ => True :=
      fun _ => .record trivial
    refine (hrecord _).bind fun _ _ => ?_
    rw [hfollow]
    refine Meets.bind (.pure rfl) fun found hfound => ?_
    have hscope : ∀ e ∈ found, t.Followable n ∧
        ∃ m, Mount.attach t n = .ok m ∧ m.tree.StepsTo steps n e := by
      intro e he
      obtain ⟨n', hn', he⟩ := Tree.mem_follow.mp (hfound ▸ he)
      obtain rfl := List.mem_singleton.mp hn'
      exact ⟨hn, m, hm, he⟩
    dsimp only
    split_ifs
    · exact (hrecord _).bind fun _ _ => .pure hscope
    · exact .pure hscope

/-- A search goes on from a node to nodes within it. -/
theorem leads_within (h : t.WellFormed) (settings : Settings) :
    Leads t settings t.Within fun _ => True where
  refl := Within.refl t
  trans := Within.trans
  sibling := h.within_of_sibling
  followFrom steps n := by
    refine (meets_followFrom_mounted h settings steps n).weaken (fun found hfound e he => ?_)
      fun _ he => he
    obtain ⟨-, m, hm, hsteps⟩ := hfound e he
    rcases (Mount.wellFormed_attach h hm).eq_or_above_of_stepsTo hsteps with rfl | habove
    · exact .refl t e
    · exact h.within_of_above (Mount.above_of_attach h hm habove)

end Query

/-! ## Drafts that lead down -/

namespace Draft

/-- The axis of the first step, or the one that waits for it. -/
def firstAxis? (draft : Draft) : Option Axis :=
  (draft.steps.head?.map (·.axis)).or draft.axis?

/-- The first step, if there is one or if there will be, leads strictly down. -/
def Downward (draft : Draft) : Prop :=
  ∃ axis, draft.firstAxis? = some axis ∧ axis ≠ .self

/-- One more step goes along the axis that waits, if it is the first one. -/
theorem firstAxis?_addStep (draft : Draft) (test : NameTest) :
    (draft.addStep test).firstAxis? = some (draft.firstAxis?.getD .self) := by
  unfold firstAxis? addStep
  cases draft.steps with
  | nil => rfl
  | cons step steps => rfl

/-- A predicate leaves the axes of the steps as they are. -/
theorem firstAxis?_refineLast (draft : Draft) (predicate : Predicate) :
    { draft with steps := refineLast predicate draft.steps }.firstAxis? = draft.firstAxis? := by
  have hhead : (refineLast predicate draft.steps).head?.map (·.axis) =
      draft.steps.head?.map (·.axis) := by
    match draft.steps with
    | [] => rfl
    | [_] => rfl
    | _ :: _ :: _ => rfl
  rw [firstAxis?, hhead, firstAxis?]

/-- A draft that leads down still does with one step more. -/
theorem Downward.addStep {draft : Draft} (h : draft.Downward) (test : NameTest) :
    (draft.addStep test).Downward := by
  obtain ⟨axis, haxis, hne⟩ := h
  rw [Downward, firstAxis?_addStep, haxis]
  exact ⟨axis, rfl, hne⟩

/-- A draft that leads down still does with one predicate more. -/
theorem Downward.addPredicate {draft : Draft} (h : draft.Downward) (predicate : Predicate) :
    (draft.addPredicate predicate).Downward := by
  unfold Draft.addPredicate
  rw [Downward, firstAxis?_refineLast]
  split_ifs
  · exact h.addStep .any
  · exact h

/-- A draft that leads down still does once the axis that waits has got its step. -/
theorem Downward.closeAxis {draft : Draft} (h : draft.Downward) : draft.closeAxis.Downward := by
  unfold Draft.closeAxis
  split_ifs
  · exact h.addStep .any
  · exact h

/-- A draft that leads down has a step once no axis waits. -/
theorem Downward.isEmpty_closeAxis {draft : Draft} (h : draft.Downward) :
    draft.closeAxis.isEmpty = false := by
  unfold Draft.closeAxis
  split_ifs with hwaits
  · exact draft.isEmpty_addStep .any
  · obtain ⟨axis, haxis, -⟩ := h
    obtain ⟨steps, axis?⟩ := draft
    cases steps with
    | nil =>
      obtain rfl : axis? = some axis := haxis
      exact absurd rfl hwaits
    | cons step steps => rfl

/-- The axis of a combinator waits for the first step only where there is none yet. -/
theorem downward_setAxis {draft : Draft} {axis : Axis} (h : draft.Downward) (hne : axis ≠ .self) :
    { draft with axis? := some axis }.Downward := by
  obtain ⟨steps, axis?⟩ := draft
  cases steps with
  | nil => exact ⟨axis, rfl, hne⟩
  | cons step steps => exact h

end Draft

/-- Whether a token asks something of the nodes that it is put to. A type selector that is none asks
nothing, and neither does a combinator. -/
def Token.isTest : Token → Bool
  | tag name => isTypeSelector name
  | id _ | classes _ | attr _ | pseudoClass _ _ => true
  | child | descendant | adjacent _ | general _ => false

/-- Whether a group asks something of nodes right behind its first combinators. -/
def Group.isLed : Group → Bool
  | [] => false
  | token :: tokens => if token.isCombinator then isLed tokens else token.isTest

/-- What a token may do to a draft that it is taken into, and what the search does about it. -/
inductive Draft.Takes (draft : Draft) : Token → Outcome → Draft → Prop
  /-- A type selector is one step more. -/
  | step {name : String} (hname : isTypeSelector name = true) (test : NameTest) :
    Takes draft (.tag name) .structural (draft.addStep test)
  /-- A tag that is no type selector is skipped. -/
  | skip {name : String} (hname : isTypeSelector name ≠ true) :
    Takes draft (.tag name) .unrecognized draft
  /-- A test of attributes is a predicate, whether or not the search narrows by it afterwards. -/
  | predicate {token : Token} {outcome : Outcome} (predicate : Predicate)
    (houtcome : outcome ≠ .procedural) : Takes draft token outcome (draft.addPredicate predicate)
  /-- The axis of a combinator waits for a step. -/
  | axis {token : Token} {axis : Axis} (htoken : token.isCombinator = true) (hne : axis ≠ .self) :
    Takes draft token .structural { draft with axis? := some axis }
  /-- For siblings the draft is followed as it is. -/
  | siblings {token : Token} (hcombinator : token.isCombinator = false)
    (htest : token.isTest = false) : Takes draft token .procedural draft
  /-- For a pseudo-class it is followed likewise. -/
  | pseudoClass (name : String) (argument : Option String) :
    Takes draft (.pseudoClass name argument) .procedural draft

namespace Draft

variable {draft drafted : Draft} {token : Token} {tokens : Group} {outcome : Outcome}

/-- Every token is taken in one of these ways. -/
theorem takes_add (settings : Settings) (draft : Draft) (token : Token) :
    draft.Takes token (draft.add settings token).1 (draft.add settings token).2 := by
  -- Each kind of token is taken in as the draft says.
  cases token with
  | tag name =>
    unfold add
    dsimp only
    split_ifs with hname
    · exact .step hname _
    · exact .skip hname
  | id name => exact .predicate _ nofun
  | classes names => exact .predicate _ nofun
  | attr test =>
    unfold add
    dsimp only
    split
    · exact .predicate _ nofun
    · exact .predicate _ nofun
    · exact .predicate _ nofun
  | child => exact .axis rfl nofun
  | descendant => exact .axis rfl nofun
  | adjacent sub => exact .siblings rfl rfl
  | general sub => exact .siblings rfl rfl
  | pseudoClass name argument => exact .pseudoClass name argument

/-- A draft that leads down still does when a token has been taken into it. -/
theorem Takes.downward (htakes : draft.Takes token outcome drafted) (h : draft.Downward) :
    drafted.Downward := by
  cases htakes with
  | step hname test => exact h.addStep test
  | predicate predicate => exact h.addPredicate predicate
  | axis htoken hne => exact downward_setAxis h hne
  | skip | siblings | pseudoClass => exact h

/-- A token that is taken into the draft leaves a draft with a step, or a group that asks for
something, or both, if it was so before. -/
theorem Takes.hasStep_or_isLed (htakes : draft.Takes token outcome drafted)
    (h : draft.isEmpty = false ∨ Group.isLed (token :: tokens) = true)
    (hdrawn : outcome ≠ .procedural) :
    drafted.isEmpty = false ∨ Group.isLed tokens = true := by
  cases htakes with
  | step hname test => exact .inl (draft.isEmpty_addStep test)
  | skip hname => exact .inl (h.resolve_right hname)
  | predicate predicate => exact .inl (draft.isEmpty_addPredicate predicate)
  | axis htoken hne =>
    -- A combinator is no step yet, and a group goes on behind its first combinators.
    rw [Group.isLed, if_pos htoken] at h
    exact h
  | siblings | pseudoClass => exact absurd rfl hdrawn

/-- A draft that is to be followed by a narrowing has a step. -/
theorem Takes.isEmpty_of_narrow {narrowing : Narrowing}
    (htakes : draft.Takes token (.narrow narrowing) drafted) : drafted.isEmpty = false := by
  cases htakes with
  | predicate predicate => exact draft.isEmpty_addPredicate predicate

/-- Where a group goes to siblings, its draft has a step, unless nothing has been asked for. -/
theorem Takes.isEmpty_of_procedural (htakes : draft.Takes token .procedural drafted)
    (htoken : ∀ name argument, token ≠ .pseudoClass name argument)
    (h : draft.isEmpty = false ∨ Group.isLed (token :: tokens) = true) :
    drafted.isEmpty = false := by
  cases htakes with
  | predicate predicate houtcome => exact absurd rfl houtcome
  | siblings hcombinator htest =>
    rw [Group.isLed, hcombinator, if_neg Bool.false_ne_true, htest] at h
    exact h.resolve_right Bool.false_ne_true
  | pseudoClass name argument => exact absurd rfl (htoken name argument)

end Draft

/-- Each group of a selector that has been read starts with a combinator, unless it is empty. -/
theorem Group.complete_cases (group : Group) :
    group.complete = [] ∨
      ∃ token tokens, group.complete = token :: tokens ∧ token.isCombinator = true := by
  unfold complete
  split
  · exact .inl rfl
  all_goals exact .inr ⟨_, _, rfl, rfl⟩

namespace Query

open TreeQuery.Tree (Within Below)

variable {t : Tree} {settings : Settings}

/-! ## Groups that ask for something -/

/-- What is reached in one way from what has been reached in another. -/
theorem Reached.comp {R S T : NodeId → NodeId → Prop} {nodes found more : List NodeId}
    (hmore : Reached S found more) (hfound : Reached R nodes found)
    (hcomp : ∀ {a b c : NodeId}, R a b → S b c → T a c) : Reached T nodes more := by
  intro e he
  obtain ⟨m, hm, hme⟩ := hmore e he
  obtain ⟨n, hn, hnm⟩ := hfound m hm
  exact ⟨n, hn, hcomp hnm hme⟩

/-- A part of what has been reached has been reached. -/
theorem Reached.mono {R : NodeId → NodeId → Prop} {nodes found kept : List NodeId}
    (hfound : Reached R nodes found) (hkept : kept ⊆ found) : Reached R nodes kept :=
  fun e he => hfound e (hkept he)

/-- A draft with a step that leads down finds nodes below elements and documents. -/
theorem below_follow (h : t.WellFormed) {draft : Draft} (hdown : draft.Downward)
    (hstep : draft.isEmpty = false) (nodes : List NodeId) :
    Meets t (follow settings draft.steps nodes) (Reached t.Below nodes) fun _ => True := by
  -- From each node, the first step leads down in the tree in which the subtree is mounted, and so
  -- it leads down in the tree itself.
  have hfrom : ∀ n ∈ nodes, Meets t (followFrom settings draft.steps n)
      (fun found => ∀ e ∈ found, t.Below n e) fun _ => True := by
    intro n _
    refine (meets_followFrom_mounted h settings draft.steps n).weaken (fun found hfound e he => ?_)
      fun _ he => he
    obtain ⟨hn, m, hm, hsteps⟩ := hfound e he
    obtain ⟨axis, haxis, hne⟩ := hdown
    obtain ⟨steps, axis?⟩ := draft
    cases steps with
    | nil => cases hstep
    | cons step steps =>
      have hself : step.axis ≠ .self := fun hself => hne (hself ▸ (Option.some.inj haxis).symm)
      have habove := (Mount.wellFormed_attach h hm).above_of_stepsTo hself hsteps
      exact ⟨hn, Mount.above_of_attach h hm habove⟩
  -- What is found from all nodes together is reached from one of them.
  refine (Meets.flatMap hfrom).bind fun all hall => .pure fun e he => ?_
  obtain ⟨parts, hparts, rfl⟩ := hall
  exact reached_flatten hparts e (NodeSet.mem_ofList.mp he)

/-- The same where the draft need not have been looked at. -/
theorem below_followDraft (h : t.WellFormed) {draft : Draft} (hdown : draft.Downward)
    (hstep : draft.isEmpty = false) (nodes : List NodeId) :
    Meets t (followDraft settings draft nodes) (Reached t.Below nodes) fun _ => True := by
  unfold followDraft
  rw [hstep]
  exact below_follow h hdown hstep nodes

/-- What the rest of a group finds from nodes below others lies below the others. -/
theorem below_rest (h : t.WellFormed) (tokens : Group) {nodes found : List NodeId}
    (hfound : Reached t.Below nodes found) :
    Meets t (run settings tokens {} found) (Reached t.Below nodes) fun _ => True :=
  (reaches_run (leads_within h settings) tokens {} found).weaken
    (fun _ hmore => hmore.comp hfound Below.trans_within) fun _ he => he

/-- From no nodes, no nodes are reached. -/
theorem reached_of_isEmpty {R : NodeId → NodeId → Prop} {nodes : List NodeId}
    (hnone : nodes.isEmpty = true) : Reached R nodes nodes := by
  rw [List.isEmpty_iff.mp hnone]
  exact fun _ he => absurd he List.not_mem_nil

/-- Once its draft leads down, a group finds nodes below those at hand, if the draft has a step or
the group asks for something before it goes to siblings. -/
theorem below_run (h : t.WellFormed) (tokens : Group) (draft : Draft) (nodes : List NodeId)
    (hdown : draft.Downward) (hled : draft.isEmpty = false ∨ tokens.isLed = true) :
    Meets t (run settings tokens draft nodes) (Reached t.Below nodes) fun _ => True := by
  induction tokens generalizing draft with
  | nil =>
    rw [run]
    split_ifs with hnone
    · exact .pure (reached_of_isEmpty hnone)
    · have hstep := hled.resolve_right Bool.false_ne_true
      exact below_followDraft h hdown hstep nodes
  | cons token tokens ih =>
    rw [run]
    split_ifs with hnone
    · exact .pure (reached_of_isEmpty hnone)
    refine (meets_draftToken settings draft token).bind fun drafted hdrafted => ?_
    have htakes : draft.Takes token drafted.1 drafted.2 :=
      hdrafted ▸ draft.takes_add settings token
    have hdown' := htakes.downward hdown
    have hled' := htakes.hasStep_or_isLed hled
    split
    · exact ih _ hdown' (hled' (by rintro ⟨⟩))
    · exact ih _ hdown' (hled' (by rintro ⟨⟩))
    · have hstep := htakes.isEmpty_of_narrow
      refine (below_follow h hdown' hstep nodes).bind fun found hfound => ?_
      refine Meets.bind (.tree rfl) fun u (_ : t = u) => below_rest h tokens ?_
      exact hfound.mono (List.filter_subset_self _)
    · cases token with
      | pseudoClass name argument =>
        refine (below_followDraft h hdown'.closeAxis hdown'.isEmpty_closeAxis nodes).bind
          fun found hfound => ?_
        dsimp only
        split_ifs
        · exact below_rest h tokens hfound
        · refine (sublist_narrow (leads_within h settings) name argument found).bind
            fun kept hkept => ?_
          exact below_rest h tokens (hfound.mono hkept.subset)
      | _ =>
        have hstep := htakes.isEmpty_of_procedural (by rintro _ _ ⟨⟩) hled
        refine (below_followDraft h hdown' hstep nodes).bind fun found hfound => ?_
        refine Meets.bind (.tree rfl) fun u (hu : t = u) => below_rest h tokens ?_
        subst hu
        -- The siblings lie within what has been found, and so below the nodes at hand.
        exact Reached.comp ((leads_within h settings).reached_siblingsOf _ found) hfound
          Below.trans_within

/-- A group that starts with a combinator and asks for something behind its first combinators finds
nodes below those at hand. -/
theorem below_group (h : t.WellFormed) {group : Group}
    (hlead : ∃ token tokens, group = token :: tokens ∧ token.isCombinator = true)
    (hled : group.isLed = true) (nodes : List NodeId) :
    Meets t (run settings group {} nodes) (Reached t.Below nodes) fun _ => True := by
  obtain ⟨token, tokens, rfl, hcombinator⟩ := hlead
  rw [Group.isLed, if_pos hcombinator] at hled
  rw [run]
  split_ifs with hnone
  · exact .pure (reached_of_isEmpty hnone)
  -- The combinator leaves its axis in the draft, which has no step yet.
  obtain ⟨axis, hne, hadd⟩ : ∃ axis : Axis, axis ≠ .self ∧
      Draft.add settings {} token = (.structural, { axis? := some axis }) := by
    cases token with
    | child => exact ⟨.child, nofun, rfl⟩
    | descendant => exact ⟨.descendant, nofun, rfl⟩
    | _ => cases hcombinator
  refine (meets_draftToken settings {} token).bind fun drafted hdrafted => ?_
  rw [hdrafted, hadd]
  exact below_run h tokens _ nodes ⟨axis, rfl, hne⟩ (.inr hled)

/-- Several groups find nodes below those at hand if each of them does. -/
theorem below_findGroups {groups : List Group} {nodes : List NodeId}
    (hgroups : ∀ group ∈ groups,
      Meets t (run settings group {} nodes) (Reached t.Below nodes) fun _ => True) :
    Meets t (findGroups settings groups nodes) (Reached t.Below nodes) fun _ => True := by
  induction groups with
  | nil =>
    rw [findGroups]
    exact .pure fun _ he => absurd he List.not_mem_nil
  | cons group groups ih =>
    rw [findGroups]
    refine (hgroups group List.mem_cons_self).bind fun found hfound => ?_
    refine (ih fun other hother => hgroups other (List.mem_cons_of_mem _ hother)).bind
      fun more hmore => .pure ?_
    exact reached_append hfound hmore

/-- Whatever a search of a well-formed tree finds has the same topmost node as one of the nodes that
it starts from, so nothing gets from one free subtree into another or into the document. If besides
every group asks for something right behind its first combinators, all that is found lies strictly
below elements and documents that the search starts from. -/
theorem scope_of_find (settings : Settings) (selector : String) (nodes : List NodeId)
    {s : Session} {found : List NodeId} (h : s.tree.WellFormed)
    (hfind : result (find settings (Selector.parse selector) nodes) s = .ok found) :
    (∀ e ∈ found, ∃ n ∈ nodes, s.tree.top e = s.tree.top n) ∧
      ((∀ group ∈ (Selector.parse selector).groups, group.isLed = true) →
        ∀ e ∈ found, ∃ n ∈ nodes,
          (s.tree.isElement n = true ∨ s.tree.isDocument n = true) ∧ s.tree.Above n e) := by
  constructor
  -- By the search as a whole: no step leads out of the subtree of a topmost node.
  · intro e he
    have hreached := (reaches_find (leads_within h settings) _ nodes).of_result hfind
    obtain ⟨n, hn, hwithin⟩ := hreached e he
    exact ⟨n, hn, hwithin.top_eq⟩
  -- Each group that has been completed starts with a combinator, so its first step leads down.
  · intro hled e he
    have hgroups : ∀ group ∈ (Selector.parse selector).groups,
        Meets s.tree (run settings group {} nodes) (Reached s.tree.Below nodes)
          fun _ => True := by
      intro group hgroup
      obtain ⟨tokens, -, rfl⟩ := List.mem_map.mp hgroup
      have hasks := hled _ hgroup
      rcases tokens.complete_cases with hempty | hlead
      · rw [hempty] at hasks
        cases hasks
      · exact below_group h hlead hasks nodes
    have hbelow : Meets s.tree (find settings (Selector.parse selector) nodes)
        (Reached s.tree.Below nodes) fun _ => True :=
      (below_findGroups hgroups).bind fun _ hfound =>
        .pure fun e he => hfound e (NodeSet.mem_ofList.mp he)
    obtain ⟨n, hn, hne⟩ := hbelow.of_result hfind e he
    exact ⟨n, hn, hne.followable, hne.above⟩

/-- For one, a search from a paragraph that stands free and holds another one, beside a document
with a paragraph of its own. -/
theorem scope_of_find_free :
    let t := Edit.run (.empty .html) [.createElement "p" [], .createElement "p" [],
      .createElement "p" [], .append 0 1, .append 2 3]
    t.WellFormed ∧ result (find .default (Selector.parse "p") [2]) { tree := t } = .ok [3] ∧
      t.top 3 = t.top 2 ∧ t.Above 2 3 := by
  intro t
  have h : t.WellFormed := Edit.wellFormed_run (Tree.wellFormed_empty .html) _
  have hparse : Selector.parse "p" = ⟨[[.descendant, .tag "p"]]⟩ := by decide +kernel
  -- The search is run, since its outcome is a hypothesis.
  have hfind : result (find .default (Selector.parse "p") [2]) { tree := t } = .ok [3] := by
    rw [hparse]
    simp only [find, findGroups, run]
    decide +kernel
  obtain ⟨htop, hbelow⟩ := scope_of_find .default "p" [2] h hfind
  have hled : ∀ group ∈ (Selector.parse "p").groups, group.isLed = true := by
    rw [hparse]
    decide
  obtain ⟨n, hn, hne⟩ := htop 3 (List.mem_singleton_self 3)
  obtain ⟨m, hm, -, habove⟩ := hbelow hled 3 (List.mem_singleton_self 3)
  rw [List.mem_singleton.mp hn] at hne
  rw [List.mem_singleton.mp hm] at habove
  exact ⟨h, hfind, hne, habove⟩

end Query

end TreeQuery
