import TreeQuery.Proofs.Preorder

/-!
# Document order

The place of a node in document order is its place in the pre-order of what hangs from the document
node. The subtree of any attached node is a part of that list, in the same order
(`WellFormed.place_lt`), so two nodes can be compared in whichever subtree has both of them.
-/

namespace TreeQuery

/-- In a list, one of two different members stands before the other. -/
theorem pair_total {α : Type} {l : List α} {x y : α} (hx : x ∈ l) (hy : y ∈ l) (hne : x ≠ y) :
    [x, y].Sublist l ∨ [y, x].Sublist l := by
  induction l with
  | nil => cases hx
  | cons a l ih =>
    rcases List.mem_cons.mp hx with rfl | hxl
    · exact .inl (pair_cons ((List.mem_cons.mp hy).resolve_left (Ne.symm hne)))
    · rcases List.mem_cons.mp hy with rfl | hyl
      · exact .inr (pair_cons hxl)
      · exact (ih hxl hyl).imp (·.cons a) (·.cons a)

/-- The members of a pair in a list without repetition are different. -/
theorem ne_of_pair {α : Type} {l : List α} (hnodup : l.Nodup) {x y : α}
    (h : [x, y].Sublist l) : x ≠ y :=
  List.rel_of_pairwise_cons (hnodup.sublist h) List.mem_cons_self

namespace Tree

variable {t : Tree}

/-- The place of a node in document order. -/
def place (t : Tree) (n : NodeId) : Nat :=
  t.documentOrder.idxOf n

/-- Nodes are listed in document order, each once. -/
def InOrder (t : Tree) (nodes : List NodeId) : Prop :=
  nodes.Pairwise fun x y => t.place x < t.place y

/-- Whether nodes are in document order can be computed from their places. -/
instance (t : Tree) (nodes : List NodeId) : Decidable (t.InOrder nodes) :=
  inferInstanceAs (Decidable (nodes.Pairwise fun x y => t.place x < t.place y))

/-- A node hangs from the document node, or is that node. -/
def Attached (t : Tree) (n : NodeId) : Prop :=
  n = .document ∨ t.Above .document n

/-- The attached nodes are those that have a place. -/
theorem WellFormed.mem_documentOrder (h : t.WellFormed) {n : NodeId} :
    n ∈ t.documentOrder ↔ t.Attached n := by
  rw [h.documentOrder_eq, h.mem_subtree, Attached]

/-- An attached node is a node of the tree. -/
theorem WellFormed.attached_lt_size (h : t.WellFormed) {n : NodeId} (hn : t.Attached n) :
    n < t.size := by
  rcases hn with rfl | hn
  · exact h.size_pos
  · exact hn.lt_size

/-- The children of an attached node are attached. -/
theorem WellFormed.attached_child (h : t.WellFormed) {p c : NodeId} (hp : t.Attached p)
    (hc : c ∈ t.children p) : t.Attached c := by
  have hparent := h.mem_children.mp hc
  rcases hp with rfl | hp
  · exact .inr (.of_parent? hparent)
  · exact .inr (hp.child hparent)

/-- The parent of an attached node is attached. -/
theorem WellFormed.attached_parent (h : t.WellFormed) {p c : NodeId} (hc : t.Attached c)
    (hp : t.parent? c = some p) : t.Attached p := by
  rcases hc with rfl | hc
  · rw [h.parent_document] at hp
    cases hp
  · obtain ⟨q, hq, hqp⟩ := above_iff.mp hc
    obtain rfl := Option.some.inj (hp.symm.trans hq)
    exact hqp.imp_left Eq.symm

/-- What lies below an attached node is attached. -/
theorem WellFormed.attached_subtree (h : t.WellFormed) {a n : NodeId} (ha : t.Attached a)
    (hn : n ∈ t.subtree a) : t.Attached n := by
  rcases h.mem_subtree.mp hn with rfl | hn
  · exact ha
  · rcases ha with rfl | ha
    · exact .inr hn
    · exact .inr (ha.trans hn)

/-- In the subtree of an attached node the nodes stand in document order. -/
theorem WellFormed.place_lt (h : t.WellFormed) {a x y : NodeId} (ha : t.Attached a)
    (hxy : [x, y].Sublist (t.subtree a)) : t.place x < t.place y := by
  have hmem : a ∈ t.subtree .document := h.mem_subtree.mpr ha
  refine idxOf_lt_idxOf h.nodup_documentOrder ?_
  rw [h.documentOrder_eq]
  exact hxy.trans (h.subtree_sublist hmem)

/-- A part of the list of all attached nodes is in document order. -/
theorem WellFormed.inOrder_of_sublist (h : t.WellFormed) {nodes : List NodeId}
    (hsub : nodes.Sublist t.documentOrder) : t.InOrder nodes :=
  List.pairwise_iff_forall_sublist.mpr fun hxy =>
    idxOf_lt_idxOf h.nodup_documentOrder (hxy.trans hsub)

/-- One node at most is in order. -/
theorem inOrder_of_length_le {nodes : List NodeId} (hlength : nodes.length ≤ 1) :
    t.InOrder nodes := by
  match nodes, hlength with
  | [], _ => exact .nil
  | [n], _ => exact List.pairwise_singleton _ n

/-- The siblings before a node are the nodes before it in a list of children. -/
theorem WellFormed.mem_precedingSiblings (h : t.WellFormed) {x z : NodeId} :
    z ∈ t.precedingSiblings x ↔ ∃ p, [z, x].Sublist (t.children p) := by
  constructor
  -- A sibling before a node is in the list that the node is in, in front of it.
  · intro hz
    cases hp : t.parent? x with
    | none =>
      rw [precedingSiblings, (h.free hp).1, chase_none] at hz
      cases hz
    | some p =>
      obtain ⟨before, after, hsplit, -⟩ := h.exists_split hp
      rw [h.precedingSiblings_eq hsplit, List.mem_reverse] at hz
      refine ⟨p, hsplit ▸ ?_⟩
      exact (List.singleton_sublist.mpr hz).append (List.singleton_sublist.mpr List.mem_cons_self)
  -- The other way round, a pair in a list of children tells where its first member stands: not
  -- behind the second one, for no node is listed twice.
  · rintro ⟨p, hzx⟩
    have hx : x ∈ t.children p := hzx.subset (List.mem_cons_of_mem _ List.mem_cons_self)
    obtain ⟨before, after, hsplit⟩ := List.append_of_mem hx
    have hnodup := hsplit ▸ h.nodup_children p
    obtain ⟨-, hafter, hdisjoint⟩ := List.nodup_append.mp hnodup
    rw [h.precedingSiblings_eq hsplit, List.mem_reverse]
    rw [hsplit] at hzx
    rcases pair_sublist_append hzx with hzx | hzx | ⟨hz, -⟩
    · have hx := hzx.subset (List.mem_cons_of_mem _ List.mem_cons_self)
      exact absurd rfl (hdisjoint x hx x List.mem_cons_self)
    · have hx : x ∈ after := by
        rcases pair_sublist_cons hzx with ⟨-, hx⟩ | hzx
        · exact hx
        · exact hzx.subset (List.mem_cons_of_mem _ List.mem_cons_self)
      exact absurd hx (List.nodup_cons.mp hafter).1
    · exact hz

end Tree

end TreeQuery
