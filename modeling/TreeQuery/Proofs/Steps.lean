import TreeQuery.Proofs.Evaluation
import TreeQuery.Query.Draft

/-!
# Where steps lead

Following steps is a relation between nodes (`Tree.StepsTo`, `Tree.mem_follow`): what is found from
several nodes is what is found from any of them, and steps that are put together lead through the
nodes between them. A draft grows by a step or by a predicate, and `stepsTo_addStep` and
`stepsTo_addPredicate` say where it leads afterwards: along the axis that waits, if one does, and
only to nodes that pass the test.
-/

namespace TreeQuery

namespace Tree

variable {t : Tree}

/-- Steps lead from a node to another. -/
def StepsTo (t : Tree) : List Step → NodeId → NodeId → Prop
  | [], n, m => n = m
  | step :: steps, n, m => ∃ k ∈ t.select step n, StepsTo t steps k m

/-- Following steps from several nodes gives the nodes that they lead to from any of them. -/
theorem mem_follow {steps : List Step} {nodes : List NodeId} {m : NodeId} :
    m ∈ t.follow steps nodes ↔ ∃ n ∈ nodes, t.StepsTo steps n m := by
  induction steps generalizing nodes with
  -- The first step leads to nodes in between, from which the others lead on.
  | nil =>
    unfold follow StepsTo
    constructor
    · intro hm
      exact ⟨m, hm, rfl⟩
    · rintro ⟨n, hn, rfl⟩
      exact hn
  | cons step steps ih =>
    unfold follow StepsTo
    rw [ih]
    constructor
    · rintro ⟨k, hk, hsteps⟩
      obtain ⟨n, hn, hselect⟩ := mem_selectFrom.mp hk
      exact ⟨n, hn, k, hselect, hsteps⟩
    · rintro ⟨n, hn, k, hselect, hsteps⟩
      exact ⟨k, mem_selectFrom.mpr ⟨n, hn, hselect⟩, hsteps⟩

/-- Steps that are put together lead through a node between them. -/
theorem stepsTo_append {first second : List Step} {n m : NodeId} :
    t.StepsTo (first ++ second) n m ↔ ∃ k, t.StepsTo first n k ∧ t.StepsTo second k m := by
  induction first generalizing n with
  | nil =>
    show t.StepsTo second n m ↔ ∃ k, n = k ∧ t.StepsTo second k m
    rw [exists_eq_left']
  | cons step first ih =>
    show (∃ k ∈ t.select step n, t.StepsTo (first ++ second) k m) ↔ _
    constructor
    · rintro ⟨k, hk, h⟩
      obtain ⟨l, hfirst, hsecond⟩ := ih.mp h
      exact ⟨l, ⟨k, hk, hfirst⟩, hsecond⟩
    · rintro ⟨l, ⟨k, hk, hfirst⟩, hsecond⟩
      exact ⟨k, hk, ih.mpr ⟨l, hfirst, hsecond⟩⟩

/-- One step leads to what it selects. -/
theorem stepsTo_singleton {step : Step} {n m : NodeId} :
    t.StepsTo [step] n m ↔ m ∈ t.select step n := by
  show (∃ k ∈ t.select step n, k = m) ↔ _
  rw [exists_eq_right]

/-! ## One more predicate -/

section Refine

variable {predicate : Predicate} {holds : NodeId → Bool}

/-- One more predicate filters what a step selects among children. -/
theorem selectChildren_refine (hkeep : ∀ nodes, t.keep nodes predicate = nodes.filter holds)
    (step : Step) (n : NodeId) :
    t.selectChildren { step with predicates := step.predicates ++ [predicate] } n =
      (t.selectChildren step n).filter holds := by
  unfold selectChildren keepAll
  rw [List.foldl_append]
  exact hkeep _

/-- One more predicate filters what a step selects. -/
theorem mem_select_refine (hkeep : ∀ nodes, t.keep nodes predicate = nodes.filter holds)
    {step : Step} {n m : NodeId} :
    m ∈ t.select { step with predicates := step.predicates ++ [predicate] } n ↔
      m ∈ t.select step n ∧ holds m = true := by
  obtain ⟨axis, test, predicates⟩ := step
  have hchildren := selectChildren_refine hkeep ⟨axis, test, predicates⟩
  unfold select
  cases axis with
  | self =>
    dsimp only
    by_cases hpass : t.passes true test n = true
    · rw [if_pos hpass, if_pos hpass]
      -- The new predicate is the last that the node has to pass.
      unfold keepAll
      rw [List.foldl_append]
      show m ∈ t.keep _ predicate ↔ _
      rw [hkeep, List.mem_filter]
    · rw [if_neg hpass, if_neg hpass]
      exact ⟨fun hm => (nomatch hm), fun hm => (nomatch hm.1)⟩
  | child =>
    show m ∈ t.selectChildren _ n ↔ _
    rw [hchildren, List.mem_filter]
  | descendant =>
    show m ∈ (n :: t.descendants n).flatMap (t.selectChildren _) ↔
      m ∈ (n :: t.descendants n).flatMap (t.selectChildren _) ∧ _
    -- The children of each node are filtered by themselves, so the predicate goes through the
    -- union.
    rw [List.mem_flatMap, List.mem_flatMap]
    constructor
    · rintro ⟨p, hp, hm⟩
      rw [hchildren, List.mem_filter] at hm
      exact ⟨⟨p, hp, hm.1⟩, hm.2⟩
    · rintro ⟨⟨p, hp, hm⟩, hholds⟩
      refine ⟨p, hp, ?_⟩
      rw [hchildren, List.mem_filter]
      exact ⟨hm, hholds⟩

/-- One more predicate on the last step filters where steps lead. -/
theorem stepsTo_refineLast (hkeep : ∀ nodes, t.keep nodes predicate = nodes.filter holds)
    {steps : List Step} (hne : steps ≠ []) {n m : NodeId} :
    t.StepsTo (Draft.refineLast predicate steps) n m ↔ t.StepsTo steps n m ∧ holds m = true := by
  induction steps generalizing n with
  | nil => exact absurd rfl hne
  | cons step steps ih =>
    cases steps with
    | nil =>
      unfold Draft.refineLast
      rw [stepsTo_singleton, stepsTo_singleton]
      exact mem_select_refine hkeep
    | cons second steps =>
      show (∃ k ∈ t.select step n, t.StepsTo (Draft.refineLast predicate (second :: steps)) k m) ↔
        (∃ k ∈ t.select step n, t.StepsTo (second :: steps) k m) ∧ _
      -- The first step is not the last one, so it stays as it is.
      have hrest := fun k => ih (n := k) (List.cons_ne_nil second steps)
      constructor
      · rintro ⟨k, hk, h⟩
        obtain ⟨hsteps, hholds⟩ := (hrest k).mp h
        exact ⟨⟨k, hk, hsteps⟩, hholds⟩
      · rintro ⟨⟨k, hk, hsteps⟩, hholds⟩
        exact ⟨k, hk, (hrest k).mpr ⟨hsteps, hholds⟩⟩

end Refine

/-! ## One more step -/

/-- An axis leads from a node to another. Other axes than `self` lead to elements. -/
def AxisTo (t : Tree) : Axis → NodeId → NodeId → Prop
  | .self, n, m => n = m
  | .child, n, m => t.parent? m = some n ∧ t.isElement m = true
  | .descendant, n, m => t.Above n m ∧ t.isElement m = true

/-- Among elements, a test of names does not depend on whether it is made on the node itself. -/
theorem passes_false_iff {test : NameTest} {n : NodeId} :
    t.passes false test n = true ↔ t.isElement n = true ∧ t.passes true test n = true := by
  unfold passes isElement
  cases t.element? n with
  | none => simp
  | some element => simp

/-- Any node passes the test `any` on itself. -/
theorem passes_any (n : NodeId) : t.passes true .any n = true := by
  unfold passes
  cases t.element? n with
  | none => rfl
  | some element => rfl

/-- A step without predicates leads along its axis to the nodes that pass its test. -/
theorem WellFormed.mem_select (h : t.WellFormed) {axis : Axis} {test : NameTest} {n m : NodeId} :
    m ∈ t.select { axis, test } n ↔ t.AxisTo axis n m ∧ t.passes true test m = true := by
  have hchildren : ∀ {p}, m ∈ t.selectChildren { axis, test } p ↔
      t.parent? m = some p ∧ t.isElement m = true ∧ t.passes true test m = true := by
    intro p
    show m ∈ (t.children p).filter (t.passes false test) ↔ _
    rw [List.mem_filter, h.mem_children, passes_false_iff]
  cases axis with
  | self =>
    show m ∈ (if t.passes true test n = true then [n] else []) ↔ n = m ∧ _
    split_ifs with hpass
    · rw [List.mem_singleton]
      exact ⟨fun hm => ⟨hm.symm, hm ▸ hpass⟩, fun hm => hm.1.symm⟩
    · exact ⟨fun hm => (nomatch hm), fun hm => absurd (hm.1 ▸ hm.2) hpass⟩
  | child =>
    show m ∈ t.selectChildren _ n ↔ _
    rw [hchildren, ← and_assoc]
    rfl
  | descendant =>
    rw [h.select_descendant rfl, List.mem_flatMap]
    unfold AxisTo
    -- Below a node is what is a child of it or of a node below it.
    constructor
    · rintro ⟨p, hp, hm⟩
      obtain ⟨hparent, helement, hpass⟩ := hchildren.mp hm
      refine ⟨⟨above_iff.mpr ⟨p, hparent, ?_⟩, helement⟩, hpass⟩
      exact (h.mem_subtree.mp hp).imp_left Eq.symm
    · rintro ⟨⟨habove, helement⟩, hpass⟩
      obtain ⟨p, hparent, hp⟩ := above_iff.mp habove
      exact ⟨p, h.mem_subtree.mpr (hp.imp_left Eq.symm), hchildren.mpr ⟨hparent, helement, hpass⟩⟩

end Tree

/-! ## Drafts -/

namespace Draft

variable {t : Tree}

/-- One more step leads along the axis that waits, or stays if none waits. -/
theorem stepsTo_addStep (h : t.WellFormed) (draft : Draft) (test : NameTest) {n m : NodeId} :
    t.StepsTo (draft.addStep test).steps n m ↔
      ∃ k, t.StepsTo draft.steps n k ∧ t.AxisTo (draft.axis?.getD .self) k m ∧
        t.passes true test m = true := by
  unfold addStep
  rw [Tree.stepsTo_append]
  refine exists_congr fun k => and_congr_right fun _ => ?_
  rw [Tree.stepsTo_singleton, h.mem_select]

/-- One more predicate leads along the axis that waits, if one does, to the nodes that pass it. -/
theorem stepsTo_addPredicate (h : t.WellFormed) {predicate : Predicate} {holds : NodeId → Bool}
    (hkeep : ∀ nodes, t.keep nodes predicate = nodes.filter holds) (draft : Draft)
    {n m : NodeId} :
    t.StepsTo (draft.addPredicate predicate).steps n m ↔
      ∃ k, t.StepsTo draft.steps n k ∧ t.AxisTo (draft.axis?.getD .self) k m ∧
        holds m = true := by
  unfold addPredicate
  by_cases hnew : (draft.axis?.isSome || draft.isEmpty) = true
  · -- The predicate gets a step of its own.
    rw [if_pos hnew]
    have hne : (draft.addStep .any).steps ≠ [] := List.append_ne_nil_of_right_ne_nil _ (by simp)
    rw [Tree.stepsTo_refineLast hkeep hne, stepsTo_addStep h]
    constructor
    · rintro ⟨⟨k, hk, haxis, -⟩, hholds⟩
      exact ⟨k, hk, haxis, hholds⟩
    · rintro ⟨k, hk, haxis, hholds⟩
      exact ⟨⟨k, hk, haxis, Tree.passes_any m⟩, hholds⟩
  · -- The predicate joins those of the last step, behind which no axis waits.
    rw [if_neg hnew]
    rw [Bool.or_eq_true, not_or, Option.not_isSome_iff_eq_none] at hnew
    obtain ⟨haxis, hempty⟩ := hnew
    have hne : draft.steps ≠ [] := fun hnil => hempty (List.isEmpty_iff.mpr hnil)
    rw [Tree.stepsTo_refineLast hkeep hne, haxis]
    constructor
    · rintro ⟨hsteps, hholds⟩
      exact ⟨m, hsteps, rfl, hholds⟩
    · rintro ⟨k, hsteps, hkm, hholds⟩
      exact ⟨hkm ▸ hsteps, hholds⟩

/-- No axis waits behind a predicate. -/
theorem axis?_addPredicate (draft : Draft) (predicate : Predicate) :
    (draft.addPredicate predicate).axis? = none := by
  unfold addPredicate
  split_ifs with hnew
  · rfl
  · rw [Bool.or_eq_true, not_or, Option.not_isSome_iff_eq_none] at hnew
    exact hnew.1

end Draft

end TreeQuery
