import Mathlib.Data.List.Perm.Subperm
import TreeQuery.Proofs.WellFormed

/-!
# Walks in a well-formed tree

The walks of `Tree.Walk` are cut off after as many steps as there are nodes. In a well-formed tree
no walk gets that far: the walk upwards from a node meets exactly the nodes above it and ends at a
node without a parent (`mem_ancestors`, `parent?_top`), and the walks sideways meet exactly what
stands before and after the node in its parent's list (`precedingSiblings_eq`,
`followingSiblings_eq`). `climb_induction` and `descend_induction` are the two ways to go through a
tree that follow from the length of the walk upwards.
-/

namespace TreeQuery.Tree

variable {t : Tree}

/-- A list of different numbers below `k` has at most `k` members. -/
theorem length_le_of_nodup {nodes : List NodeId} {k : Nat} (hnodup : nodes.Nodup)
    (hlt : ∀ n ∈ nodes, n < k) : nodes.length ≤ k := by
  have hsub : nodes ⊆ List.range k := fun n hn => List.mem_range.mpr (hlt n hn)
  have hlength := (List.subperm_of_subset hnodup hsub).length_le
  rwa [List.length_range] at hlength

/-! ## The bound of a walk -/

/-- A walk that starts nowhere meets nothing. -/
@[simp] theorem chase_none (step : NodeId → Option NodeId) (bound : Nat) :
    chase step bound none = [] := by
  cases bound <;> rfl

/-- A walk meets the node that it starts at and goes on from there. -/
@[simp] theorem chase_some (step : NodeId → Option NodeId) (bound : Nat) (n : NodeId) :
    chase step (bound + 1) (some n) = n :: chase step bound (step n) :=
  rfl

/-- A walk that ends before its last step does not need that step. -/
theorem chase_eq_of_length_le {step : NodeId → Option NodeId} {bound : Nat}
    {start : Option NodeId} (h : (chase step (bound + 1) start).length ≤ bound) :
    chase step bound start = chase step (bound + 1) start := by
  induction bound generalizing start with
  | zero =>
    rw [List.eq_nil_of_length_eq_zero (Nat.le_zero.mp h)]
    rfl
  | succ bound ih =>
    cases start with
    | none => rfl
    | some n =>
      rw [chase_some, List.length_cons] at h
      rw [chase_some, chase_some, ih (Nat.le_of_succ_le_succ h)]

/-! ## Upwards -/

/-- The walk upwards meets only nodes that lie above. -/
theorem above_of_mem_chase {bound : Nat} {a n : NodeId}
    (h : a ∈ chase t.parent? bound (t.parent? n)) : t.Above a n := by
  induction bound generalizing n with
  | zero => cases h
  | succ bound ih =>
    cases hp : t.parent? n with
    | none => simp [hp] at h
    | some p =>
      rw [hp, chase_some] at h
      rcases List.mem_cons.mp h with rfl | h
      · exact .of_parent? hp
      · exact (ih h).child hp

/-- The walk upwards meets no node twice. -/
theorem WellFormed.nodup_chase (h : t.WellFormed) (bound : Nat) (n : NodeId) :
    (chase t.parent? bound (t.parent? n)).Nodup := by
  induction bound generalizing n with
  | zero => exact List.nodup_nil
  | succ bound ih =>
    cases hp : t.parent? n with
    | none => simp
    | some p =>
      rw [chase_some]
      exact List.nodup_cons.mpr ⟨fun hmem => h.acyclic p (above_of_mem_chase hmem), ih p⟩

/-- The walk upwards from a node of the tree meets fewer nodes than there are. -/
theorem WellFormed.length_chase_lt (h : t.WellFormed) (bound : Nat) {n : NodeId}
    (hn : n < t.size) : (chase t.parent? bound (t.parent? n)).length < t.size := by
  -- Together with `n` itself the nodes on the walk are different nodes of the tree.
  have hnodup : (n :: chase t.parent? bound (t.parent? n)).Nodup :=
    List.nodup_cons.mpr
      ⟨fun hmem => h.acyclic n (above_of_mem_chase hmem), h.nodup_chase bound n⟩
  refine length_le_of_nodup hnodup fun m hm => ?_
  rcases List.mem_cons.mp hm with rfl | hm
  · exact hn
  · exact h.above_lt_size (above_of_mem_chase hm)

/-- A node without a parent has no ancestors. -/
theorem ancestors_of_free {n : NodeId} (hn : t.parent? n = none) : t.ancestors n = [] := by
  rw [ancestors, hn, chase_none]

/-- The ancestors of a node are its parent and the parent's ancestors. -/
theorem WellFormed.ancestors_of_parent? (h : t.WellFormed) {n p : NodeId}
    (hp : t.parent? n = some p) : t.ancestors n = p :: t.ancestors p := by
  -- The walk from the parent is cut off one step earlier, but it ends before that.
  obtain ⟨bound, hbound⟩ := Nat.exists_eq_add_one.mpr h.size_pos
  have hlt := h.length_chase_lt (bound + 1) (h.parent_lt_size hp)
  rw [hbound] at hlt
  rw [ancestors, ancestors, hp, hbound, chase_some,
    chase_eq_of_length_le (Nat.le_of_lt_succ hlt)]

/-- The ancestors of a node are the nodes above it. -/
theorem WellFormed.mem_ancestors (h : t.WellFormed) {a n : NodeId} :
    a ∈ t.ancestors n ↔ t.Above a n := by
  refine ⟨above_of_mem_chase, fun ha => ?_⟩
  -- The induction is on the walk downwards from `a`, so the last step is the first one upwards.
  induction ha with
  | single hp =>
    rw [h.ancestors_of_parent? hp]
    exact List.mem_cons_self
  | tail _ hp ih =>
    rw [h.ancestors_of_parent? hp]
    exact List.mem_cons_of_mem _ ih

/-- The test whether a node lies below another looks for the other above it. -/
theorem WellFormed.isDescendantOf_iff (h : t.WellFormed) {n a : NodeId} :
    t.isDescendantOf n a = true ↔ t.Above a n := by
  rw [isDescendantOf, List.contains_iff_mem, h.mem_ancestors]

/-- A node of the tree has fewer ancestors than there are nodes. -/
theorem WellFormed.length_ancestors_lt (h : t.WellFormed) {n : NodeId} (hn : n < t.size) :
    (t.ancestors n).length < t.size :=
  h.length_chase_lt t.size hn

/-- A property of a node that follows from the same property of its parent holds of all nodes. -/
theorem WellFormed.climb_induction (h : t.WellFormed) {motive : NodeId → Prop}
    (step : ∀ n, (∀ p, t.parent? n = some p → motive p) → motive n) (n : NodeId) : motive n := by
  -- The induction is on the length of the walk upwards.
  generalize hlength : (t.ancestors n).length = k
  induction k using Nat.strongRecOn generalizing n with
  | ind k ih =>
    refine step n fun p hp => ih (t.ancestors p).length ?_ p rfl
    rw [← hlength, h.ancestors_of_parent? hp, List.length_cons]
    exact Nat.lt_succ_self _

/-- A property of a node that follows from the same property of its children holds of all nodes. -/
theorem WellFormed.descend_induction (h : t.WellFormed) {motive : NodeId → Prop}
    (step : ∀ n, (∀ c ∈ t.children n, motive c) → motive n) (n : NodeId) : motive n := by
  -- The walk upwards gets longer from a node to its child, and is bounded by the size.
  generalize hk : t.size - (t.ancestors n).length = k
  induction k using Nat.strongRecOn generalizing n with
  | ind k ih =>
    refine step n fun c hc => ih (t.size - (t.ancestors c).length) ?_ c rfl
    have hlt := h.length_ancestors_lt (h.child_lt_size hc)
    rw [h.ancestors_of_parent? (h.mem_children.mp hc), List.length_cons] at hlt ⊢
    omega

/-! ## The top of the walk upwards -/

/-- A node without a parent is its own topmost node. -/
theorem top_of_free {n : NodeId} (hn : t.parent? n = none) : t.top n = n := by
  rw [top, ancestors_of_free hn]
  rfl

/-- A node has the topmost node of its parent. -/
theorem WellFormed.top_of_parent? (h : t.WellFormed) {n p : NodeId}
    (hp : t.parent? n = some p) : t.top n = t.top p := by
  rw [top, h.ancestors_of_parent? hp, List.getLastD_cons]
  rfl

/-- The walk upwards ends at a node without a parent. -/
theorem WellFormed.parent?_top (h : t.WellFormed) (n : NodeId) : t.parent? (t.top n) = none := by
  induction n using h.climb_induction with
  | step n ih =>
    cases hp : t.parent? n with
    | none => rwa [top_of_free hp]
    | some p =>
      rw [h.top_of_parent? hp]
      exact ih p hp

/-- The topmost node is the node itself or lies above it. -/
theorem WellFormed.top_eq_or_above (h : t.WellFormed) (n : NodeId) :
    t.top n = n ∨ t.Above (t.top n) n := by
  cases hp : t.parent? n with
  | none => exact .inl (top_of_free hp)
  | some p =>
    refine .inr (h.mem_ancestors.mp ?_)
    rw [top, h.ancestors_of_parent? hp, List.getLastD_cons, List.getLastD_eq_getLast?]
    cases hlast : (t.ancestors p).getLast? with
    | none => exact List.mem_cons_self
    | some a => exact List.mem_cons_of_mem _ (List.mem_of_getLast? hlast)

/-- The topmost node of a node of the tree is a node of the tree. -/
theorem WellFormed.top_lt_size (h : t.WellFormed) {n : NodeId} (hn : n < t.size) :
    t.top n < t.size := by
  rcases h.top_eq_or_above n with heq | habove
  · rwa [heq]
  · exact h.above_lt_size habove

/-! ## Sideways -/

/-- A list of children is no longer than there are nodes. -/
theorem WellFormed.length_children_le (h : t.WellFormed) (p : NodeId) :
    (t.children p).length ≤ t.size :=
  length_le_of_nodup (h.nodup_children p) fun _ hc => h.child_lt_size hc

/-- The walk backwards meets what stands before a node, nearest first. -/
theorem WellFormed.chase_previous? (h : t.WellFormed) {p : NodeId} {bound : Nat}
    {before after : List NodeId} (hsplit : t.children p = before ++ after)
    (hbound : before.length ≤ bound) :
    chase t.previous? bound before.getLast? = before.reverse := by
  -- By induction on the bound, with the last of the nodes in front taken off at each step.
  induction bound generalizing before after with
  | zero =>
    rw [List.eq_nil_of_length_eq_zero (Nat.le_zero.mp hbound)]
    rfl
  | succ bound ih =>
    rcases List.eq_nil_or_concat before with rfl | ⟨front, n, rfl⟩
    · rfl
    · rw [List.concat_eq_append, List.append_assoc] at hsplit
      simp only [List.concat_eq_append, List.length_append, List.length_singleton] at hbound
      rw [List.concat_eq_append, List.getLast?_concat, chase_some, (h.neighbours hsplit).1,
        ih hsplit (by omega), List.reverse_append]
      rfl

/-- The walk forwards meets what stands after a node. -/
theorem WellFormed.chase_next? (h : t.WellFormed) {p : NodeId} {bound : Nat}
    {before after : List NodeId} (hsplit : t.children p = before ++ after)
    (hbound : after.length ≤ bound) : chase t.next? bound after.head? = after := by
  induction bound generalizing before after with
  | zero =>
    rw [List.eq_nil_of_length_eq_zero (Nat.le_zero.mp hbound)]
    rfl
  | succ bound ih =>
    cases after with
    | nil => rfl
    | cons n rest =>
      have hrest : t.children p = (before ++ [n]) ++ rest := by
        rw [hsplit, List.append_assoc, List.singleton_append]
      rw [List.head?_cons, chase_some, (h.neighbours hsplit).2,
        ih hrest (Nat.le_of_succ_le_succ hbound)]

/-- The siblings before a node are those before it in its parent's list. -/
theorem WellFormed.precedingSiblings_eq (h : t.WellFormed) {p n : NodeId}
    {before after : List NodeId} (hsplit : t.children p = before ++ n :: after) :
    t.precedingSiblings n = before.reverse := by
  have hlength := h.length_children_le p
  rw [hsplit, List.length_append] at hlength
  rw [precedingSiblings, (h.neighbours hsplit).1]
  exact h.chase_previous? hsplit (by omega)

/-- The siblings after a node are those after it in its parent's list. -/
theorem WellFormed.followingSiblings_eq (h : t.WellFormed) {p n : NodeId}
    {before after : List NodeId} (hsplit : t.children p = before ++ n :: after) :
    t.followingSiblings n = after := by
  have hlength := h.length_children_le p
  rw [hsplit, List.length_append, List.length_cons] at hlength
  have hrest : t.children p = (before ++ [n]) ++ after := by
    rw [hsplit, List.append_assoc, List.singleton_append]
  rw [followingSiblings, (h.neighbours hsplit).2]
  exact h.chase_next? hrest (by omega)

end TreeQuery.Tree
