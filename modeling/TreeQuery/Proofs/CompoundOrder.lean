import Mathlib.Data.List.Sort
import TreeQuery.Proofs.Matching
import TreeQuery.Proofs.PathOrder

/-!
# The order of what a compound finds

The tests of a compound may be evaluated in one go or in several, and each evaluation from several
nodes puts what it finds in document order. Unless the compound leads to all nodes below, this
changes nothing: what is found from one node is in document order in any case, so the compound
leaves of the nodes on its axis those that pass all tests, in the order in which the nodes are met
(`meets_run_tests`). On the way down to all nodes below, the same nodes are found in an order of
their own.
-/

namespace TreeQuery

/-- Leaving nodes out and leaving repetitions out can be done in either order. -/
theorem NodeSet.nodes_ofList_filter (p : NodeId → Bool) (nodes : List NodeId) :
    (ofList (nodes.filter p)).nodes = (ofList nodes).nodes.filter p := by
  -- The set at hand and its filtered copy grow side by side.
  have hgrow : ∀ {set part : NodeSet}, part.nodes = set.nodes.filter p →
      (part.insertAll (nodes.filter p)).nodes = (set.insertAll nodes).nodes.filter p := by
    induction nodes with
    | nil => exact fun hpart => hpart
    | cons n nodes ih =>
      intro set part hpart
      have hset : set.insertAll (n :: nodes) = (set.insert n).insertAll nodes := rfl
      rw [hset, List.filter_cons]
      split_ifs with hn
      · refine @ih (set.insert n) (part.insert n) ?_
        have hmem : n ∈ part.nodes ↔ n ∈ set.nodes := by
          rw [hpart, List.mem_filter, and_iff_left hn]
        unfold insert
        by_cases hin : n ∈ set.nodes
        · rw [dif_pos hin, dif_pos (hmem.mpr hin), hpart]
        · rw [dif_neg hin, dif_neg (mt hmem.mp hin)]
          simp [hpart, hn]
      · refine @ih (set.insert n) part ?_
        unfold insert
        split_ifs
        · exact hpart
        · simp [hpart, hn]
  exact hgrow rfl

/-! ## Lists in document order -/

namespace Tree

variable {t : Tree}

/-- Nodes in document order are decided by which nodes they are. -/
theorem InOrder.eq_of_mem_iff {nodes others : List NodeId} (hnodes : t.InOrder nodes)
    (hothers : t.InOrder others) (hmem : ∀ m, m ∈ nodes ↔ m ∈ others) : nodes = others := by
  have : Std.Irrefl fun x y => t.place x < t.place y := ⟨fun x => Nat.lt_irrefl _⟩
  have : Std.Antisymm fun x y => t.place x < t.place y :=
    ⟨fun x y hxy hyx => absurd hxy (Nat.lt_asymm hyx)⟩
  exact List.Pairwise.eq_of_mem_iff hnodes hothers hmem

/-- The last of some steps, if there is any, does not lead to all nodes below. -/
def Level (steps : List Step) : Prop :=
  ∀ step ∈ steps.getLast?, step.axis ≠ .descendant

/-- Where there are no steps, none leads to all nodes below. -/
theorem level_nil : Level [] :=
  fun _ hstep => nomatch hstep

/-- From one node, steps lead to nodes in document order, unless the last one leads to all nodes
below. -/
theorem WellFormed.inOrder_follow (h : t.WellFormed) {steps : List Step} (hlevel : Level steps)
    {n : NodeId} (hn : t.Attached n) : t.InOrder (t.follow steps [n]) := by
  have hstart : ∀ m ∈ [n], t.Attached m := fun m hm => List.mem_singleton.mp hm ▸ hn
  rcases List.eq_nil_or_concat steps with rfl | ⟨front, last, rfl⟩
  · exact inOrder_of_length_le (Nat.le_refl 1)
  · rw [List.concat_eq_append] at hlevel ⊢
    rw [follow_append]
    refine (h.inOrder_selectFrom_iff (h.attached_follow hstart)).mpr fun hcrossed => ?_
    exact hlevel last (by simp) hcrossed.1

/-- In a tree made of markup every node is attached. -/
theorem Loaded.attached (h : t.Loaded) {n : NodeId} (hn : n < t.size) : t.Attached n := by
  have htop := h.top_eq hn
  rcases h.toWellFormed.top_eq_or_above n with heq | habove
  · exact .inl (heq ▸ htop)
  · exact .inr (htop ▸ habove)

/-- Such steps lead to nodes in document order from every node. -/
theorem Loaded.inOrder_followOn (h : t.Loaded) {steps : List Step} (hlevel : Level steps)
    (n : NodeId) : t.InOrder (t.followOn steps n) := by
  by_cases hn : t.Followable n
  · rw [followOn_eq hn]
    have hattached := h.attached (lt_size_of_isElement_or_isDocument hn)
    exact h.toWellFormed.inOrder_follow hlevel hattached
  · rw [followOn_eq_nil hn]
    exact .nil

end Tree

/-! ## Lists that agree -/

/-- Two lists have the same members, and also the same order if `ordered` holds. -/
def Agree (ordered : Prop) (nodes others : List NodeId) : Prop :=
  (∀ m, m ∈ nodes ↔ m ∈ others) ∧ (ordered → nodes = others)

namespace Agree

variable {ordered : Prop} {nodes others : List NodeId}

/-- A list agrees with itself. -/
theorem refl (ordered : Prop) (nodes : List NodeId) : Agree ordered nodes nodes :=
  ⟨fun _ => Iff.rfl, fun _ => rfl⟩

/-- Lists that agree with the same list agree with each other. -/
theorem trans {more : List NodeId} (h : Agree ordered nodes others)
    (hmore : Agree ordered others more) : Agree ordered nodes more :=
  ⟨fun m => (h.1 m).trans (hmore.1 m), fun hordered => (h.2 hordered).trans (hmore.2 hordered)⟩

/-- Lists that agree in order do so where less is known. -/
theorem mono {weaker : Prop} (h : Agree ordered nodes others) (hweaker : weaker → ordered) :
    Agree weaker nodes others :=
  ⟨h.1, fun hw => h.2 (hweaker hw)⟩

/-- Lists that agree still do so when nodes are left out of both. -/
theorem filter (h : Agree ordered nodes others) (p : NodeId → Bool) :
    Agree ordered (nodes.filter p) (others.filter p) := by
  refine ⟨fun m => ?_, fun hordered => by rw [h.2 hordered]⟩
  rw [List.mem_filter, List.mem_filter, h.1]

/-- The set of a list agrees with a list without repetition that the list agrees with. -/
theorem ofList (h : Agree ordered nodes others) (hnodup : others.Nodup) :
    Agree ordered (NodeSet.ofList nodes).nodes others := by
  refine ⟨fun m => ?_, fun hordered => ?_⟩
  · rw [NodeSet.mem_ofList, h.1]
  · rw [h.2 hordered, NodeSet.nodes_ofList hnodup]

end Agree

/-! ## Taking a test in -/

namespace Draft

/-- The last step decides whether steps are level. -/
theorem level_append {steps : List Step} {last : Step} :
    Tree.Level (steps ++ [last]) ↔ last.axis ≠ .descendant := by
  unfold Tree.Level
  simp

/-- A predicate is added to the last step. -/
theorem refineLast_append (predicate : Predicate) (steps : List Step) (last : Step) :
    refineLast predicate (steps ++ [last]) =
      steps ++ [{ last with predicates := last.predicates ++ [predicate] }] := by
  induction steps with
  | nil => rfl
  | cons step steps ih =>
    cases steps with
    | nil => rfl
    | cons second steps => exact congrArg (step :: ·) ih

/-- A predicate leaves steps level. -/
theorem level_refineLast {predicate : Predicate} {steps : List Step} (h : Tree.Level steps) :
    Tree.Level (refineLast predicate steps) := by
  rcases List.eq_nil_or_concat steps with rfl | ⟨front, last, rfl⟩
  · exact h
  · rw [List.concat_eq_append] at h ⊢
    rw [refineLast_append]
    have hlast := level_append.mp h
    exact level_append.mpr hlast

/-- Without an axis that waits there is none to close. -/
theorem closeAxis_eq {draft : Draft} (haxis : draft.axis? = none) : draft.closeAxis = draft := by
  unfold closeAxis
  rw [haxis]
  rfl

/-- A draft with one more step is as level as it was with the axis that waited. -/
theorem level_addStep {draft : Draft} (h : Tree.Level draft.closeAxis.steps) (test : NameTest) :
    Tree.Level (draft.addStep test).steps := by
  refine level_append.mpr ?_
  cases haxis : draft.axis? with
  | none => exact nofun
  | some axis =>
    unfold closeAxis at h
    rw [haxis] at h
    have hlast := level_append.mp h
    rwa [haxis] at hlast

/-- A draft with one more predicate is as level as it was with the axis that waited. -/
theorem level_addPredicate {draft : Draft} (h : Tree.Level draft.closeAxis.steps)
    (predicate : Predicate) : Tree.Level (draft.addPredicate predicate).steps := by
  unfold addPredicate
  split_ifs with hnew
  · exact level_refineLast (level_addStep h .any)
  · rw [Bool.or_eq_true, not_or, Option.not_isSome_iff_eq_none] at hnew
    rw [closeAxis_eq hnew.1] at h
    exact level_refineLast h

/-- A draft with one more step has a step. -/
theorem isEmpty_addStep (draft : Draft) (test : NameTest) : (draft.addStep test).isEmpty = false :=
  List.isEmpty_eq_false_iff.mpr (List.append_ne_nil_of_right_ne_nil _ (List.cons_ne_nil _ _))

/-- A draft with one more predicate has a step. -/
theorem isEmpty_addPredicate (draft : Draft) (predicate : Predicate) :
    (draft.addPredicate predicate).isEmpty = false := by
  have hrefine : ∀ steps : List Step, steps.isEmpty = false →
      (refineLast predicate steps).isEmpty = false := by
    intro steps hsteps
    rcases List.eq_nil_or_concat steps with rfl | ⟨front, last, rfl⟩
    · exact hsteps
    · rw [List.concat_eq_append, refineLast_append]
      exact List.isEmpty_eq_false_iff.mpr (by simp)
  unfold addPredicate
  refine hrefine _ ?_
  split_ifs with hnew
  · exact draft.isEmpty_addStep .any
  · rw [Bool.or_eq_true, not_or] at hnew
    exact Bool.eq_false_iff.mpr hnew.2

end Draft

namespace SimpleTest

variable {t : Tree} {settings : Settings}

/-- Whether a test holds for a node can be computed, by what the search computes for it. -/
instance (n : NodeId) (test : SimpleTest) : Decidable (test.Holds t settings n) :=
  match test with
  | tag name _ => decidable_of_iff _ (passes_ofTag t settings n name)
  | id name => inferInstanceAs (Decidable (t.attribute? n "id" = some name))
  | classes _ => decidable_of_iff _ hasClasses_iff
  | attr _ => decidable_of_iff _ passesTest_iff

/-- Whether a node passes all of some tests. -/
def holdAll (t : Tree) (settings : Settings) (tests : List SimpleTest) (n : NodeId) : Bool :=
  tests.all fun test => decide (test.Holds t settings n)

/-- A test is taken in as a step or as a predicate. -/
theorem add_eq (settings : Settings) (draft : Draft) (test : SimpleTest) :
    (∃ names, (draft.add settings test.token).2 = draft.addStep names) ∨
      ∃ predicate, (draft.add settings test.token).2 = draft.addPredicate predicate := by
  cases test with
  | tag name valid => exact .inl ⟨_, congrArg Prod.snd (if_pos valid)⟩
  | id name => exact .inr ⟨_, rfl⟩
  | classes names => exact .inr ⟨_, rfl⟩
  | attr test =>
    obtain ⟨name, comparison, value⟩ := test
    cases comparison with
    | _ => exact .inr ⟨_, rfl⟩

/-- A test leads on to the nodes on the axis that waits that pass it. -/
theorem leadsOn_iff_closeAxis (h : t.WellFormed) (draft : Draft) (test : SimpleTest)
    {n m : NodeId} :
    test.LeadsOn t settings draft n m ↔
      t.StepsTo draft.closeAxis.steps n m ∧ test.Holds t settings m := by
  unfold LeadsOn Draft.closeAxis
  cases haxis : draft.axis? with
  -- No axis waits, so the test is for the node itself that the draft leads to.
  | none =>
    constructor
    · rintro ⟨k, hk, rfl, hholds⟩
      exact ⟨hk, hholds⟩
    · rintro ⟨hm, hholds⟩
      exact ⟨m, hm, rfl, hholds⟩
  -- An axis waits, and one more step goes along it to nodes of any kind.
  | some axis =>
    show _ ↔ t.StepsTo (draft.addStep .any).steps n m ∧ _
    rw [Draft.stepsTo_addStep h, haxis]
    constructor
    · rintro ⟨k, hk, hkm, hholds⟩
      exact ⟨⟨k, hk, hkm, Tree.passes_any m⟩, hholds⟩
    · rintro ⟨⟨k, hk, hkm, -⟩, hholds⟩
      exact ⟨k, hk, hkm, hholds⟩

/-- A draft takes a test in and is as level afterwards as it was with the axis that waited. With
what the narrowing leaves, if there is one, it leads where that axis leads and the test holds. -/
theorem add_token_level (h : t.WellFormed) (settings : Settings) (draft : Draft)
    (test : SimpleTest) :
    ∃ drafted : Draft, drafted.axis? = none ∧ drafted.isEmpty = false ∧
      (Tree.Level draft.closeAxis.steps → Tree.Level drafted.steps) ∧
      ∃ p : NodeId → Bool,
        (∀ n m, t.StepsTo drafted.steps n m ∧ p m = true ↔
          t.StepsTo draft.closeAxis.steps n m ∧ test.Holds t settings m) ∧
        (draft.add settings test.token = (.structural, drafted) ∧ (∀ m, p m = true) ∨
          ∃ narrowing, draft.add settings test.token = (.narrow narrowing, drafted) ∧
            ∀ m, p m = narrowing.holds t m) := by
  obtain ⟨drafted, hnone, hadd⟩ := test.add_token h settings draft
  simp only [leadsOn_iff_closeAxis h] at hadd
  -- The draft that comes out is the given one with one more step or with one more predicate.
  have hdrafted : (draft.add settings test.token).2 = drafted := by
    rcases hadd with ⟨hadd, -⟩ | ⟨narrowing, hadd, -⟩
    · rw [hadd]
    · rw [hadd]
  have hshape : drafted.isEmpty = false ∧
      (Tree.Level draft.closeAxis.steps → Tree.Level drafted.steps) := by
    rcases add_eq settings draft test with ⟨names, heq⟩ | ⟨predicate, heq⟩
    · rw [← hdrafted, heq]
      exact ⟨draft.isEmpty_addStep names, fun hlevel => Draft.level_addStep hlevel names⟩
    · rw [← hdrafted, heq]
      exact ⟨draft.isEmpty_addPredicate predicate,
        fun hlevel => Draft.level_addPredicate hlevel predicate⟩
  refine ⟨drafted, hnone, hshape.1, hshape.2, ?_⟩
  -- The test is in the draft, so nothing is left of it; or the narrowing is all that is left of it.
  rcases hadd with ⟨hadd, hleads⟩ | ⟨narrowing, hadd, hleads⟩
  · exact ⟨fun _ => true, fun n m => by rw [← hleads, and_iff_left rfl], .inl ⟨hadd, fun _ => rfl⟩⟩
  · exact ⟨narrowing.holds t, hleads, .inr ⟨narrowing, hadd, fun _ => rfl⟩⟩

end SimpleTest

/-! ## Running the tests of a compound -/

namespace Query

variable {t : Tree} {settings : Settings} {nodes : List NodeId}

/-- What is left of the nodes that steps lead to agrees if the same nodes are left from each one. -/
theorem agree_reached (h : t.Loaded) {steps others : List Step} {p q : NodeId → Bool}
    (hiff : ∀ n m, t.StepsTo steps n m ∧ p m = true ↔ t.StepsTo others n m ∧ q m = true) :
    Agree (Tree.Level steps ∧ Tree.Level others) ((t.reached steps nodes).filter p)
      ((t.reached others nodes).filter q) := by
  refine ⟨fun m => ?_, fun ⟨hsteps, hothers⟩ => ?_⟩
  · rw [List.mem_filter, List.mem_filter, Tree.mem_reached, Tree.mem_reached]
    simp only [exists_and_right.symm, and_assoc, hiff]
  · -- From each node both lists are in document order.
    have hsame : ∀ n, (t.followOn steps n).filter p = (t.followOn others n).filter q := by
      intro n
      refine Tree.InOrder.eq_of_mem_iff ((h.inOrder_followOn hsteps n).filter p)
        ((h.inOrder_followOn hothers n).filter q) fun m => ?_
      rw [List.mem_filter, List.mem_filter, Tree.mem_followOn, Tree.mem_followOn, and_assoc,
        and_assoc, hiff]
    unfold Tree.reached
    rw [← NodeSet.nodes_ofList_filter, ← NodeSet.nodes_ofList_filter, List.filter_flatMap,
      List.filter_flatMap]
    simp only [hsame]

/-- Without steps, elements and documents that are listed once lead to themselves. -/
theorem reached_nil (hnodup : nodes.Nodup) (hfollowable : ∀ n ∈ nodes, t.Followable n) :
    t.reached [] nodes = nodes := by
  have hone : ∀ n ∈ nodes, t.followOn [] n = [n] := fun n hn =>
    Tree.followOn_eq (hfollowable n hn)
  unfold Tree.reached
  rw [List.flatMap_congr hone, List.flatMap_singleton', NodeSet.nodes_ofList hnodup]

/-- A test and those after it are the tests that all have to be passed. -/
theorem filter_holdAll_cons (test : SimpleTest) (tests : List SimpleTest) (nodes : List NodeId) :
    (nodes.filter fun m => decide (test.Holds t settings m)).filter
        (SimpleTest.holdAll t settings tests) =
      nodes.filter (SimpleTest.holdAll t settings (test :: tests)) := by
  rw [List.filter_filter]
  congr 1
  funext m
  exact Bool.and_comm _ _

/-- The tests of a compound leave of the nodes on the axis that waits those that pass them all. -/
theorem meets_run_tests (h : t.Loaded) (tests : List SimpleTest) (draft : Draft)
    (nodes : List NodeId) (haxis : tests = [] → draft.axis? = none)
    (hnodes : draft.closeAxis.isEmpty = true → nodes.Nodup ∧ ∀ n ∈ nodes, t.Followable n) :
    Meets t (run settings (tests.map (·.token)) draft nodes)
      (fun found => Agree (Tree.Level draft.closeAxis.steps) found
        ((t.reached draft.closeAxis.steps nodes).filter (SimpleTest.holdAll t settings tests)))
      Never := by
  induction tests generalizing draft nodes with
  -- No test is left, so the draft is followed. Without steps it gives the nodes themselves.
  | nil =>
    refine meets_run_of_nonempty (by rintro rfl; exact .refl _ _) fun hempty => ?_
    have hclose : draft.closeAxis = draft := Draft.closeAxis_eq (haxis rfl)
    rw [hclose] at hnodes ⊢
    have hall : (t.reached draft.steps nodes).filter (SimpleTest.holdAll t settings []) =
        t.reached draft.steps nodes := List.filter_eq_self.mpr fun _ _ => rfl
    rw [hall, List.map_nil, run, hempty]
    refine (meets_followDraft h settings draft nodes).weaken (fun found hfound => ?_) fun _ he => he
    have hreached : draft.reached t nodes = t.reached draft.steps nodes := by
      unfold Draft.reached
      split_ifs with hnosteps
      · obtain ⟨hnodup, hfollowable⟩ := hnodes hnosteps
        rw [List.isEmpty_iff.mp hnosteps, reached_nil hnodup hfollowable]
      · rfl
    rw [hfound, hreached]
    exact .refl _ _
  | cons test tests ih =>
    refine meets_run_of_nonempty (by rintro rfl; exact .refl _ _) fun hempty => ?_
    rw [← filter_holdAll_cons]
    -- The first test is taken into the draft, and what is left of it is a narrowing or nothing.
    obtain ⟨drafted, hnone, hsome, hlevel, p, hleads, hadd⟩ :=
      test.add_token_level h.toWellFormed settings draft
    have hclose : drafted.closeAxis = drafted := Draft.closeAxis_eq hnone
    have hagree : Agree (Tree.Level draft.closeAxis.steps)
        ((t.reached drafted.steps nodes).filter p)
        ((t.reached draft.closeAxis.steps nodes).filter fun m =>
          decide (test.Holds t settings m)) :=
      (agree_reached h fun n m => by rw [hleads, decide_eq_true_iff]).mono
        fun hl => ⟨hlevel hl, hl⟩
    rcases hadd with ⟨hadd, hp⟩ | ⟨narrowing, hadd, hp⟩
    · -- The draft goes on with the test in it.
      rw [List.filter_eq_self.mpr fun m _ => hp m] at hagree
      have hrest := ih drafted nodes (fun _ => hnone) fun hnil => by
        rw [hclose, hsome] at hnil
        cases hnil
      rw [hclose] at hrest
      refine meets_run_structural hadd hempty
        (hrest.weaken (fun found hfound => ?_) fun _ he => he)
      exact (hfound.mono hlevel).trans (hagree.filter _)
    · -- The draft is used up, and what is left of its nodes is where the other tests start from.
      rw [funext hp] at hagree
      refine meets_run_narrow h hadd hempty ?_
      have hnodup : ((t.reached drafted.steps nodes).filter fun m => narrowing.holds t m).Nodup :=
        (NodeSet.nodup _).filter _
      have hfollowable : ∀ n ∈ (t.reached drafted.steps nodes).filter fun m => narrowing.holds t m,
          t.Followable n :=
        fun n hn => .inl (narrowing.isElement_of_holds (List.mem_filter.mp hn).2)
      have hrest := ih {} _ (fun _ => rfl) fun _ => ⟨hnodup, hfollowable⟩
      refine hrest.weaken (fun found hfound => ?_) fun _ he => he
      have hself := reached_nil hnodup hfollowable
      rw [show ({} : Draft).closeAxis.steps = [] from rfl, hself] at hfound
      exact (hfound.mono fun _ => Tree.level_nil).trans (hagree.filter _)

end Query

end TreeQuery
