import Mathlib.Data.List.Flatten
import Mathlib.Data.List.Nodup
import TreeQuery.Proofs.Walks

/-!
# Pre-order

The subtree of a node in pre-order is the node and then the subtrees of its children, one after the
other (`WellFormed.subtree_eq`). The walk with a stack lists the same nodes in the same order
(`WellFormed.cons_descendants`, `WellFormed.documentOrder_eq`). Which of two nodes comes first is
said by a sublist of length two: `[x, y]` is a sublist of a list without repetition exactly if `x`
stands before `y` in it.
-/

namespace TreeQuery

/-! ## Pairs in a list -/

section Pairs

variable {α β : Type} {l : List α} {f : α → List β}

/-- A pair in a list starts at its head or lies in its tail. -/
theorem pair_sublist_cons {a x y : α} (h : [x, y].Sublist (a :: l)) :
    x = a ∧ y ∈ l ∨ [x, y].Sublist l := by
  cases h with
  | cons _ h => exact .inr h
  | cons_cons _ h => exact .inl ⟨rfl, List.singleton_sublist.mp h⟩

/-- A list starts a pair with each of its later members. -/
theorem pair_cons {a y : α} (hy : y ∈ l) : [a, y].Sublist (a :: l) :=
  List.cons_sublist_cons.mpr (List.singleton_sublist.mpr hy)

/-- A pair in a list of two pieces lies in one piece, or in the two of them in that order. -/
theorem pair_sublist_append {x y : α} {k : List α} (h : [x, y].Sublist (l ++ k)) :
    [x, y].Sublist l ∨ [x, y].Sublist k ∨ x ∈ l ∧ y ∈ k := by
  induction l with
  | nil => exact .inr (.inl h)
  | cons a l ih =>
    rcases pair_sublist_cons h with ⟨rfl, hy⟩ | h
    · rcases List.mem_append.mp hy with hy | hy
      · exact .inl (pair_cons hy)
      · exact .inr (.inr ⟨List.mem_cons_self, hy⟩)
    · exact (ih h).imp (·.cons a) (·.imp_right fun ⟨hx, hy⟩ => ⟨List.mem_cons_of_mem _ hx, hy⟩)

/-- A pair in the lists of several nodes lies in the list of one of them, or in those of two of them
in that order. -/
theorem pair_sublist_flatMap {x y : β} (h : [x, y].Sublist (l.flatMap f)) :
    (∃ a ∈ l, [x, y].Sublist (f a)) ∨ ∃ a b, [a, b].Sublist l ∧ x ∈ f a ∧ y ∈ f b := by
  induction l with
  | nil => simp at h
  | cons a l ih =>
    rw [List.flatMap_cons] at h
    rcases pair_sublist_append h with h | h | ⟨hx, hy⟩
    · exact .inl ⟨a, List.mem_cons_self, h⟩
    · rcases ih h with ⟨b, hb, hxy⟩ | ⟨b, c, hbc, hx, hy⟩
      · exact .inl ⟨b, List.mem_cons_of_mem _ hb, hxy⟩
      · exact .inr ⟨b, c, hbc.cons a, hx, hy⟩
    · obtain ⟨b, hb, hy⟩ := List.mem_flatMap.mp hy
      exact .inr ⟨a, b, pair_cons hb, hx, hy⟩

/-- The list of one of several nodes is part of their lists. -/
theorem sublist_flatMap {a : α} (ha : a ∈ l) : (f a).Sublist (l.flatMap f) := by
  obtain ⟨before, after, rfl⟩ := List.append_of_mem ha
  rw [List.flatMap_append, List.flatMap_cons]
  exact (List.sublist_append_left _ _).trans (List.sublist_append_right _ _)

/-- Members of the lists of two nodes stand in the order of the two nodes. -/
theorem pair_flatMap {a b : α} (hab : [a, b].Sublist l) {x y : β} (hx : x ∈ f a) (hy : y ∈ f b) :
    [x, y].Sublist (l.flatMap f) := by
  have hpair : [x, y].Sublist ([a, b].flatMap f) := by
    rw [List.flatMap_cons, List.flatMap_singleton]
    exact (List.singleton_sublist.mpr hx).append (List.singleton_sublist.mpr hy)
  exact hpair.trans (hab.flatMap f)

/-- In a list without repetition the first of a pair has the smaller place. -/
theorem idxOf_lt_idxOf [DecidableEq α] (hnodup : l.Nodup) {x y : α} (h : [x, y].Sublist l) :
    l.idxOf x < l.idxOf y := by
  induction l with
  | nil => cases h
  | cons a l ih =>
    obtain ⟨ha, hl⟩ := List.nodup_cons.mp hnodup
    rcases pair_sublist_cons h with ⟨rfl, hy⟩ | h
    · have hne : x ≠ y := fun heq => ha (heq ▸ hy)
      rw [List.idxOf_cons_self, List.idxOf_cons_ne _ hne]
      exact Nat.succ_pos _
    · have hx : x ∈ l := h.subset List.mem_cons_self
      have hy : y ∈ l := h.subset (List.mem_cons_of_mem _ List.mem_cons_self)
      have hax : a ≠ x := fun heq => ha (heq ▸ hx)
      have hay : a ≠ y := fun heq => ha (heq ▸ hy)
      rw [List.idxOf_cons_ne _ hax, List.idxOf_cons_ne _ hay]
      exact Nat.succ_lt_succ (ih hl h)

end Pairs

namespace Tree

variable {t : Tree}

/-! ## Subtrees -/

/-- A node and what lies below it in pre-order, to the given depth. -/
def preorder (t : Tree) : (depth : Nat) → NodeId → List NodeId
  | 0, n => [n]
  | depth + 1, n => n :: (t.children n).flatMap (preorder t depth)

/-- A node and all that lies below it in pre-order. -/
def subtree (t : Tree) (n : NodeId) : List NodeId :=
  t.preorder t.size n

/-- A node outside the tree has no children. -/
theorem children_eq_nil {n : NodeId} (hn : t.size ≤ n) : t.children n = [] :=
  List.eq_nil_iff_forall_not_mem.mpr fun _ hc => Nat.not_lt.mpr hn (lt_size_of_mem_children hc)

/-- At a depth that no walk from the top reaches there is nothing more to list. -/
theorem WellFormed.preorder_succ (h : t.WellFormed) {depth : Nat} {n : NodeId}
    (hdepth : t.size ≤ depth + (t.ancestors n).length) :
    t.preorder (depth + 1) n = t.preorder depth n := by
  induction depth generalizing n with
  | zero =>
    -- A node of the tree has fewer ancestors than that.
    have hn : ¬ n < t.size := fun hn => by
      have hlt := h.length_ancestors_lt hn
      omega
    change n :: (t.children n).flatMap (t.preorder 0) = [n]
    rw [children_eq_nil (Nat.not_lt.mp hn)]
    rfl
  | succ depth ih =>
    rw [preorder, preorder]
    congr 1
    refine List.flatMap_congr fun c hc => ih ?_
    rw [h.ancestors_of_parent? (h.mem_children.mp hc), List.length_cons]
    omega

/-- The subtree of a node is the node and then the subtrees of its children. -/
theorem WellFormed.subtree_eq (h : t.WellFormed) (n : NodeId) :
    t.subtree n = n :: (t.children n).flatMap t.subtree := by
  rw [subtree, ← h.preorder_succ (Nat.le_add_right _ _)]
  rfl

/-- The node comes first in its subtree. -/
theorem WellFormed.mem_subtree_self (h : t.WellFormed) (n : NodeId) : n ∈ t.subtree n := by
  rw [h.subtree_eq]
  exact List.mem_cons_self

/-- What lies below a node is one of its children or lies below one. -/
theorem above_iff_child (h : t.WellFormed) {a n : NodeId} :
    t.Above a n ↔ ∃ c ∈ t.children a, n = c ∨ t.Above c n := by
  constructor
  · intro ha
    induction ha with
    | single hc => exact ⟨_, h.mem_children.mpr hc, .inl rfl⟩
    | tail _ hn ih =>
      obtain ⟨c, hc, rfl | hm⟩ := ih
      · exact ⟨_, hc, .inr (.of_parent? hn)⟩
      · exact ⟨c, hc, .inr (hm.child hn)⟩
  · rintro ⟨c, hc, rfl | hn⟩
    · exact .of_parent? (h.mem_children.mp hc)
    · exact (Above.of_parent? (h.mem_children.mp hc)).trans hn

/-- The subtree of a node has the node and what lies below it. -/
theorem WellFormed.mem_subtree (h : t.WellFormed) {a n : NodeId} :
    n ∈ t.subtree a ↔ n = a ∨ t.Above a n := by
  induction a using h.descend_induction with
  | step a ih =>
    rw [h.subtree_eq, List.mem_cons, List.mem_flatMap, above_iff_child h]
    refine or_congr_right (exists_congr fun c => and_congr_right fun hc => ih c hc)

/-- Two nodes above a third are the same, or one lies above the other. -/
theorem above_total {a b n : NodeId} (ha : t.Above a n) (hb : t.Above b n) :
    a = b ∨ t.Above a b ∨ t.Above b a := by
  induction ha with
  | single hn =>
    obtain ⟨p, hp, hb⟩ := above_iff.mp hb
    obtain rfl := Option.some.inj (hn.symm.trans hp)
    exact hb.imp Eq.symm .inr
  | tail ha hn ih =>
    obtain ⟨p, hp, rfl | hb⟩ := above_iff.mp hb
    · obtain rfl := Option.some.inj (hn.symm.trans hp)
      exact .inr (.inl ha)
    · obtain rfl := Option.some.inj (hn.symm.trans hp)
      exact ih hb

/-- A node lies in the subtree of one child of a node at most. -/
theorem WellFormed.child_unique (h : t.WellFormed) {p c d n : NodeId} (hc : c ∈ t.children p)
    (hd : d ∈ t.children p) (hnc : n ∈ t.subtree c) (hnd : n ∈ t.subtree d) : c = d := by
  -- Otherwise one of the two would lie above the other, and so above the parent of both.
  have hnot : ∀ {c d}, c ∈ t.children p → d ∈ t.children p → ¬ t.Above c d := by
    intro c d hc hd hcd
    obtain ⟨q, hq, hcq⟩ := above_iff.mp hcd
    obtain rfl := Option.some.inj ((h.mem_children.mp hd).symm.trans hq)
    have hpc := Above.of_parent? (h.mem_children.mp hc)
    rcases hcq with rfl | hcp
    · exact h.acyclic _ hpc
    · exact h.not_above hcp hpc
  rcases h.mem_subtree.mp hnc with rfl | hcn
  · rcases h.mem_subtree.mp hnd with heq | hdn
    · exact heq
    · exact absurd hdn (hnot hd hc)
  · rcases h.mem_subtree.mp hnd with rfl | hdn
    · exact absurd hcn (hnot hc hd)
    · rcases above_total hcn hdn with heq | hcd | hdc
      · exact heq
      · exact absurd hcd (hnot hc hd)
      · exact absurd hdc (hnot hd hc)

/-- No node is listed twice in a subtree. -/
theorem WellFormed.nodup_subtree (h : t.WellFormed) (n : NodeId) : (t.subtree n).Nodup := by
  induction n using h.descend_induction with
  | step n ih =>
    rw [h.subtree_eq, List.nodup_cons, List.nodup_flatMap]
    refine ⟨fun hn => ?_, ih, ?_⟩
    · obtain ⟨c, hc, hn⟩ := List.mem_flatMap.mp hn
      exact h.acyclic n ((above_iff_child h).mpr ⟨c, hc, h.mem_subtree.mp hn⟩)
    · refine (h.nodup_children n).imp_of_mem fun {c d} hc hd hne m hmc hmd => hne ?_
      exact h.child_unique hc hd hmc hmd

/-- A subtree has no more nodes than the tree. -/
theorem WellFormed.length_subtree_le (h : t.WellFormed) {n : NodeId} (hn : n < t.size) :
    (t.subtree n).length ≤ t.size := by
  refine length_le_of_nodup (h.nodup_subtree n) fun m hm => ?_
  rcases h.mem_subtree.mp hm with rfl | hm
  · exact hn
  · exact hm.lt_size

/-! ## The walk with a stack -/

/-- The walk with a stack lists the subtrees of the nodes on the stack, if its bound allows. -/
theorem WellFormed.visit_eq (h : t.WellFormed) {bound : Nat} {stack : List NodeId}
    (hbound : (stack.flatMap t.subtree).length ≤ bound) :
    t.visit bound stack = stack.flatMap t.subtree := by
  induction bound generalizing stack with
  | zero => rw [List.eq_nil_of_length_eq_zero (Nat.le_zero.mp hbound), visit]
  | succ bound ih =>
    cases stack with
    | nil => rfl
    | cons n stack =>
      -- The children take the place of the node on the stack.
      have heq : (n :: stack).flatMap t.subtree =
          n :: (t.children n ++ stack).flatMap t.subtree := by
        rw [List.flatMap_cons, h.subtree_eq, List.flatMap_append]
        rfl
      rw [heq, List.length_cons] at hbound
      rw [heq, visit, ih (Nat.le_of_succ_le_succ hbound)]

/-- A node and its descendants are its subtree. -/
theorem WellFormed.cons_descendants (h : t.WellFormed) (n : NodeId) :
    n :: t.descendants n = t.subtree n := by
  rw [descendants, h.visit_eq, ← h.subtree_eq]
  by_cases hn : n < t.size
  · have hlength := h.length_subtree_le hn
    rw [h.subtree_eq, List.length_cons] at hlength
    exact Nat.le_of_succ_le hlength
  · rw [children_eq_nil (Nat.not_lt.mp hn)]
    exact Nat.zero_le _

/-- What lies below a node are the subtrees of its children, one after the other. -/
theorem WellFormed.descendants_eq (h : t.WellFormed) (n : NodeId) :
    t.descendants n = (t.children n).flatMap t.subtree := by
  have hcons := h.cons_descendants n
  rw [h.subtree_eq] at hcons
  exact List.tail_eq_of_cons_eq hcons

/-- The nodes that a walk downwards meets are the nodes below. -/
theorem WellFormed.mem_descendants (h : t.WellFormed) {n m : NodeId} :
    m ∈ t.descendants n ↔ t.Above n m := by
  rw [h.descendants_eq, List.mem_flatMap, above_iff_child h]
  exact exists_congr fun c => and_congr_right fun _ => h.mem_subtree

/-- A walk downwards meets no node twice. -/
theorem WellFormed.nodup_descendants (h : t.WellFormed) (n : NodeId) :
    (t.descendants n).Nodup := by
  have hnodup := h.nodup_subtree n
  rw [← h.cons_descendants] at hnodup
  exact (List.nodup_cons.mp hnodup).2

/-- Document order is the pre-order of what hangs from the document node. -/
theorem WellFormed.documentOrder_eq (h : t.WellFormed) :
    t.documentOrder = t.subtree .document :=
  h.cons_descendants .document

/-- No node has two places in document order. -/
theorem WellFormed.nodup_documentOrder (h : t.WellFormed) : t.documentOrder.Nodup :=
  h.documentOrder_eq ▸ h.nodup_subtree .document

/-! ## Order in a subtree -/

/-- The subtree of a node in another subtree is part of it, in the same order. -/
theorem WellFormed.subtree_sublist (h : t.WellFormed) {a n : NodeId} (hn : n ∈ t.subtree a) :
    (t.subtree n).Sublist (t.subtree a) := by
  induction a using h.descend_induction with
  | step a ih =>
    rw [h.subtree_eq, List.mem_cons] at hn
    rcases hn with rfl | hn
    · exact .refl _
    · obtain ⟨c, hc, hn⟩ := List.mem_flatMap.mp hn
      rw [h.subtree_eq a]
      exact ((ih c hc hn).trans (sublist_flatMap hc)).cons a

/-- A node comes before what lies below it. -/
theorem WellFormed.pair_of_above (h : t.WellFormed) {a n : NodeId} (ha : t.Above a n) :
    [a, n].Sublist (t.subtree a) := by
  have hn := h.mem_subtree.mpr (.inr ha)
  rw [h.subtree_eq, List.mem_cons] at hn
  rw [h.subtree_eq]
  refine pair_cons (hn.resolve_left ?_)
  rintro rfl
  exact h.acyclic _ ha

/-- The subtrees of two children stand in the order of the two children. -/
theorem WellFormed.pair_of_children (h : t.WellFormed) {p c d x y : NodeId}
    (hcd : [c, d].Sublist (t.children p)) (hx : x ∈ t.subtree c) (hy : y ∈ t.subtree d) :
    [x, y].Sublist (t.subtree p) := by
  rw [h.subtree_eq]
  exact (pair_flatMap hcd hx hy).cons p

/-- What lies in the subtree of a node comes before what lies in the subtree of a later one, unless
that is part of the former. -/
theorem WellFormed.pair_of_pair (h : t.WellFormed) {a p q x y : NodeId}
    (hpq : [p, q].Sublist (t.subtree a)) (hq : q ∉ t.subtree p) (hx : x ∈ t.subtree p)
    (hy : y ∈ t.subtree q) : [x, y].Sublist (t.subtree a) := by
  induction a using h.descend_induction with
  | step a ih =>
    rw [h.subtree_eq] at hpq
    rcases pair_sublist_cons hpq with ⟨rfl, hmem⟩ | hpq
    · exact absurd (h.subtree_eq p ▸ List.mem_cons_of_mem _ hmem) hq
    · rcases pair_sublist_flatMap hpq with ⟨c, hc, hpq⟩ | ⟨c, d, hcd, hp, hq⟩
      · rw [h.subtree_eq]
        exact ((ih c hc hpq).trans (sublist_flatMap hc)).cons a
      · exact h.pair_of_children hcd ((h.subtree_sublist hp).subset hx)
          ((h.subtree_sublist hq).subset hy)

end Tree

end TreeQuery
