import TreeQuery.Path.Evaluate
import TreeQuery.Proofs.DocumentOrder

/-!
# Evaluating paths

A step selects a part of the children of some nodes, so what it selects from a node lies in the
subtree of that node and is there once. From several nodes it selects what it selects from any of
them (`mem_selectFrom`), and steps follow one another (`follow_append`). In a tree of its own every
path leads somewhere, if only to no nodes (`evaluate_eq_ok`).
-/

namespace TreeQuery

namespace NodeSet

/-- Inserting new nodes puts them at the end. -/
theorem nodes_insertAll {set : NodeSet} {nodes : List NodeId}
    (hnodup : (set.nodes ++ nodes).Nodup) : (set.insertAll nodes).nodes = set.nodes ++ nodes := by
  induction nodes generalizing set with
  | nil => exact (List.append_nil _).symm
  | cons n nodes ih =>
    have hn : n ∉ set.nodes := fun hn =>
      (List.nodup_append.mp hnodup).2.2 n hn n List.mem_cons_self rfl
    have hinsert : (set.insert n).nodes = set.nodes ++ [n] := by rw [insert, dif_neg hn]
    have happend : set.nodes ++ n :: nodes = (set.insert n).nodes ++ nodes := by
      rw [hinsert, List.append_assoc, List.singleton_append]
    rw [happend] at hnodup ⊢
    exact ih hnodup

/-- A list without repetition is the list of its set. -/
theorem nodes_ofList {nodes : List NodeId} (hnodup : nodes.Nodup) : (ofList nodes).nodes = nodes :=
  nodes_insertAll hnodup

end NodeSet

namespace Tree

variable {t : Tree}

/-! ## One step -/

/-- A predicate keeps a part of the nodes. -/
theorem keep_sublist (predicate : Predicate) (nodes : List NodeId) :
    (t.keep nodes predicate).Sublist nodes := by
  cases predicate with
  | position k =>
    rw [keep]
    split_ifs
    · exact List.nil_sublist _
    · cases hn : nodes[k - 1]? with
      | none => exact List.nil_sublist _
      | some n => exact List.singleton_sublist.mpr (List.mem_of_getElem? hn)
  | hasAttribute name => exact List.filter_sublist
  | attributeIs name value => exact List.filter_sublist

/-- Predicates keep nodes of the list in their order. -/
theorem keepAll_sublist (predicates : List Predicate) (nodes : List NodeId) :
    (t.keepAll predicates nodes).Sublist nodes := by
  induction predicates generalizing nodes with
  | nil => exact .refl _
  | cons predicate predicates ih => exact (ih _).trans (keep_sublist predicate nodes)

/-- The children that a step selects are a part of the children. -/
theorem selectChildren_sublist (step : Step) (n : NodeId) :
    (t.selectChildren step n).Sublist (t.children n) :=
  (keepAll_sublist _ _).trans List.filter_sublist

/-- A step along `descendant` goes through the subtree parent by parent. -/
theorem WellFormed.select_descendant (h : t.WellFormed) {step : Step}
    (haxis : step.axis = .descendant) (n : NodeId) :
    t.select step n = (t.subtree n).flatMap (t.selectChildren step) := by
  rw [select, haxis, ← h.cons_descendants]

/-- What a step selects from a node is that node, or a child of it or of a node below it. -/
theorem WellFormed.mem_subtree_of_select (h : t.WellFormed) {step : Step} {n m : NodeId}
    (hm : m ∈ t.select step n) : m ∈ t.subtree n := by
  unfold select at hm
  -- The cases are the three axes: the node itself, its children, and the children of all nodes of
  -- its subtree.
  split at hm
  · split_ifs at hm
    · rw [List.mem_singleton.mp ((keepAll_sublist _ _).subset hm)]
      exact h.mem_subtree_self n
    · cases hm
  · have hc := h.mem_children.mp ((selectChildren_sublist step n).subset hm)
    exact h.mem_subtree.mpr (.inr (.of_parent? hc))
  · rw [h.cons_descendants] at hm
    obtain ⟨p, hp, hm⟩ := List.mem_flatMap.mp hm
    have hc := Above.of_parent? (h.mem_children.mp ((selectChildren_sublist step p).subset hm))
    refine h.mem_subtree.mpr (.inr ?_)
    rcases h.mem_subtree.mp hp with rfl | hp
    · exact hc
    · exact hp.trans hc

/-- A step selects no node twice from one node. -/
theorem WellFormed.nodup_select (h : t.WellFormed) (step : Step) (n : NodeId) :
    (t.select step n).Nodup := by
  have hchildren : ∀ p, (t.selectChildren step p).Nodup := fun p =>
    (h.nodup_children p).sublist (selectChildren_sublist step p)
  unfold select
  split
  · split_ifs
    · exact (List.nodup_singleton n).sublist (keepAll_sublist _ _)
    · exact List.nodup_nil
  · exact hchildren n
  · rw [h.cons_descendants, List.nodup_flatMap]
    refine ⟨fun p _ => hchildren p, (h.nodup_subtree n).imp fun hne m hp hq => hne ?_⟩
    -- A node has one parent.
    have hp := h.mem_children.mp ((selectChildren_sublist step _).subset hp)
    have hq := h.mem_children.mp ((selectChildren_sublist step _).subset hq)
    exact Option.some.inj (hp.symm.trans hq)

/-- Whether a list lacks a node, as a proposition. -/
theorem not_contains_iff {nodes : List NodeId} {n : NodeId} :
    (!nodes.contains n) = true ↔ n ∉ nodes := by
  rw [Bool.not_eq_true', ← Bool.not_eq_true, List.contains_iff_mem]

/-- Putting nodes in order changes only their order. -/
theorem mem_sortNodes {nodes : List NodeId} {n : NodeId} : n ∈ t.sortNodes nodes ↔ n ∈ nodes := by
  rw [sortNodes, List.mem_append, List.mem_filter, List.mem_filter, List.contains_iff_mem,
    not_contains_iff]
  constructor
  · rintro (⟨-, hn⟩ | ⟨hn, -⟩)
    · exact hn
    · exact hn
  · intro hn
    by_cases horder : n ∈ t.documentOrder
    · exact .inl ⟨horder, hn⟩
    · exact .inr ⟨hn, horder⟩

/-- Putting nodes in order repeats none. -/
theorem WellFormed.nodup_sortNodes (h : t.WellFormed) {nodes : List NodeId}
    (hnodup : nodes.Nodup) : (t.sortNodes nodes).Nodup := by
  refine List.nodup_append.mpr ⟨h.nodup_documentOrder.filter _, hnodup.filter _, ?_⟩
  rintro x hx y hy rfl
  exact not_contains_iff.mp (List.mem_filter.mp hy).2 (List.mem_filter.mp hx).1

/-- A step from several nodes selects what it selects from any of them. -/
theorem mem_selectFrom {step : Step} {nodes : List NodeId} {m : NodeId} :
    m ∈ t.selectFrom step nodes ↔ ∃ n ∈ nodes, m ∈ t.select step n := by
  rw [selectFrom]
  split_ifs
  · rw [mem_sortNodes, NodeSet.mem_ofList, List.mem_flatMap]
  · rw [NodeSet.mem_ofList, List.mem_flatMap]

/-- A step from several nodes selects no node twice. -/
theorem WellFormed.nodup_selectFrom (h : t.WellFormed) (step : Step) (nodes : List NodeId) :
    (t.selectFrom step nodes).Nodup := by
  rw [selectFrom]
  split_ifs
  · exact h.nodup_sortNodes (NodeSet.nodup _)
  · exact NodeSet.nodup _

/-- A step from one node selects what it selects from that node, in that order. -/
theorem WellFormed.selectFrom_singleton (h : t.WellFormed) (step : Step) (n : NodeId) :
    t.selectFrom step [n] = t.select step n := by
  rw [selectFrom, List.flatMap_singleton, NodeSet.nodes_ofList (h.nodup_select step n)]
  rfl

/-- A step from attached nodes selects attached nodes. -/
theorem WellFormed.attached_selectFrom (h : t.WellFormed) {step : Step} {nodes : List NodeId}
    (hnodes : ∀ n ∈ nodes, t.Attached n) : ∀ m ∈ t.selectFrom step nodes, t.Attached m := by
  intro m hm
  obtain ⟨n, hn, hm⟩ := mem_selectFrom.mp hm
  exact h.attached_subtree (hnodes n hn) (h.mem_subtree_of_select hm)

/-! ## Whole paths -/

/-- To follow steps and then more steps is to follow them all. -/
theorem follow_append (first second : List Step) (nodes : List NodeId) :
    t.follow (first ++ second) nodes = t.follow second (t.follow first nodes) := by
  induction first generalizing nodes with
  | nil => rfl
  | cons step first ih => exact ih _

/-- Steps from attached nodes lead to attached nodes. -/
theorem WellFormed.attached_follow (h : t.WellFormed) {steps : List Step} {nodes : List NodeId}
    (hnodes : ∀ n ∈ nodes, t.Attached n) : ∀ m ∈ t.follow steps nodes, t.Attached m := by
  induction steps generalizing nodes with
  | nil => exact hnodes
  | cons step steps ih => exact ih (h.attached_selectFrom hnodes)

/-- Steps from different nodes lead to different nodes. -/
theorem WellFormed.nodup_follow (h : t.WellFormed) {steps : List Step} {nodes : List NodeId}
    (hnodes : nodes.Nodup) : (t.follow steps nodes).Nodup := by
  induction steps generalizing nodes with
  | nil => exact hnodes
  | cons step steps ih => exact ih (h.nodup_selectFrom step nodes)

/-- The node that the evaluation of a path starts from. -/
def startOf (path : LocationPath) (n : NodeId) : NodeId :=
  if path.absolute then .document else n

/-- A path leads somewhere, if only to no nodes, from every node of the tree. -/
theorem evaluate_eq_ok {n : NodeId} (hn : n < t.size) (path : LocationPath) :
    t.evaluate path n = .ok (t.follow path.steps [startOf path n]) := by
  rw [evaluate, contains_of_lt hn]
  rfl

end Tree

end TreeQuery
