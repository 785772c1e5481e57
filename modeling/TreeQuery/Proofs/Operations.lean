import TreeQuery.Proofs.Edits

/-!
# Edits keep a tree well-formed

What `append`, `insertBefore` and `moveChildren` do is put together from taking a node out and
putting it in again, and each of them leaves a well-formed tree, whether it succeeds or not. New
nodes stand free and new data touches no link, so those edits leave a well-formed tree as well.
-/

namespace TreeQuery.Tree

variable {t u : Tree} {p c : NodeId}

/-! ## Moving a node -/

/-- Taking a node out does not make it wrong to put that or another one somewhere. -/
theorem TakenOut.insertable (hu : TakenOut t u c) {d : NodeId} (hins : t.Insertable p d) :
    u.Insertable p d where
  parent_lt := hu.size ▸ hins.parent_lt
  child_lt := hu.size ▸ hins.child_lt
  ne_document := hins.ne_document
  ne_parent := hins.ne_parent
  not_above ha := hins.not_above (hu.above ha)

/-- Appending a node takes it out of the list that it is in, and puts it last into the new one. -/
theorem WellFormed.append_of_insertable (h : t.WellFormed) (hins : t.Insertable p c) :
    ∃ v u, TakenOut t v c ∧ v.WellFormed ∧ t.append p c = .ok u ∧
      PutIn v u p c (v.children p) [] ∧ u.WellFormed := by
  obtain ⟨v, hdetach, hv, hvWf⟩ := h.takenOut_detach hins.child_lt
  obtain ⟨hu, hwf⟩ := hvWf.putIn_linkLast (hv.insertable hins) hv.parent?_self
  refine ⟨v, v.linkLast p c, hv, hvWf, ?_, hu, hwf⟩
  rw [append, h.checkInsertable_eq_ok_iff.mpr hins, hdetach]
  rfl

/-- Appending a free node puts it last into its new parent's list and does nothing else. -/
theorem WellFormed.append_of_free (h : t.WellFormed) (hins : t.Insertable p c)
    (hfree : t.parent? c = none) :
    ∃ u, t.append p c = .ok u ∧ PutIn t u p c (t.children p) [] ∧ u.WellFormed := by
  obtain ⟨hu, hwf⟩ := h.putIn_linkLast hins hfree
  refine ⟨t.linkLast p c, ?_, hu, hwf⟩
  rw [append, h.checkInsertable_eq_ok_iff.mpr hins, detach, contains_of_lt hins.child_lt, hfree]
  rfl

/-- A node is appended only where it may be put. -/
theorem WellFormed.insertable_of_append (h : t.WellFormed) (hok : t.append p c = .ok u) :
    t.Insertable p c := by
  unfold append at hok
  cases hcheck : t.checkInsertable p c with
  | error e =>
    rw [hcheck] at hok
    cases hok
  | ok => exact h.checkInsertable_eq_ok_iff.mp hcheck

/-- The tree in which a node has been appended is well-formed. -/
theorem WellFormed.append (h : t.WellFormed) (hok : t.append p c = .ok u) : u.WellFormed := by
  obtain ⟨v, w, -, -, hw, -, hwf⟩ := h.append_of_insertable (h.insertable_of_append hok)
  rw [hw, Except.ok.injEq] at hok
  exact hok ▸ hwf

/-- Nodes appended one after the other leave a well-formed tree, however far that comes. -/
theorem WellFormed.appendAll (h : t.WellFormed) (p : NodeId) (nodes : List NodeId) :
    (t.appendAll p nodes).tree.WellFormed := by
  induction nodes generalizing t with
  | nil => exact h
  | cons c rest ih =>
    rw [Tree.appendAll]
    split
    · next u hok => exact ih (h.append hok)
    · exact h

/-- Moving the children of a node leaves a well-formed tree, however far that comes. -/
theorem WellFormed.moveChildren (h : t.WellFormed) (source target : NodeId) :
    (t.moveChildren source target).tree.WellFormed := by
  unfold Tree.moveChildren
  split
  · exact h
  · exact h.appendAll target _

/-- Inserting a node does one of three things. It is refused, and the tree is as it was; or the
reference is the node itself, which has then been taken out and has no place to go to; or the node
is taken out and put in front of the reference. -/
theorem WellFormed.insertBefore_cases (h : t.WellFormed) (p c r : NodeId) :
    (∃ e, t.insertBefore p c r = ⟨t, some e⟩ ∧ ¬ (t.Insertable p c ∧ t.parent? r = some p)) ∨
      (∃ v, t.insertBefore p c r = ⟨v, some (.notAChild p r)⟩ ∧ t.Insertable p c ∧
        t.parent? r = some p ∧ r = c ∧ TakenOut t v c ∧ v.WellFormed) ∨
      ∃ v u before after, t.insertBefore p c r = ⟨u, none⟩ ∧ t.Insertable p c ∧
        t.parent? r = some p ∧ r ≠ c ∧ TakenOut t v c ∧
        v.children p = before ++ r :: after ∧ PutIn v u p c before (r :: after) ∧
        u.WellFormed := by
  unfold Tree.insertBefore
  cases hcheck : t.checkInsertable p c with
  | error e =>
    refine .inl ⟨e, rfl, fun ⟨hins, _⟩ => ?_⟩
    rw [h.checkInsertable_eq_ok_iff.mpr hins] at hcheck
    cases hcheck
  | ok =>
    have hins := h.checkInsertable_eq_ok_iff.mp hcheck
    obtain ⟨v, hdetach, hv, hvWf⟩ := h.takenOut_detach hins.child_lt
    by_cases hr : t.parent? r = some p
    · have hgo : ¬ (t.parent? r != some p) = true := by simp [hr]
      simp only [hdetach, if_neg hgo]
      -- Of the children of `p`, only the node itself has gone from the list by now.
      have hmem : r ∈ v.children p ↔ r ≠ c := by
        rw [hv.mem_children h, and_iff_left (h.mem_children.mpr hr)]
      by_cases hrc : r = c
      · have hgone : ¬ (v.children p).contains r = true := by
          rw [List.contains_iff_mem, hmem]
          exact fun hne => hne hrc
        rw [if_neg hgone]
        exact .inr (.inl ⟨v, rfl, hins, hr, hrc, hv, hvWf⟩)
      · have hthere : (v.children p).contains r = true := List.contains_iff_mem.mpr (hmem.mpr hrc)
        rw [if_pos hthere]
        obtain ⟨before, after, hlist⟩ := List.append_of_mem (hmem.mpr hrc)
        obtain ⟨hu, hwf⟩ := hvWf.putIn_linkBefore (hv.insertable hins) hv.parent?_self hlist
        exact .inr (.inr ⟨v, _, before, after, rfl, hins, hr, hrc, hv, hlist, hu, hwf⟩)
    · have hstop : (t.parent? r != some p) = true := by simp [hr]
      simp only [if_pos hstop]
      exact .inl ⟨_, rfl, fun hboth => hr hboth.2⟩

/-- Inserting a node leaves a well-formed tree, also when it is stopped after the node has been
taken out. -/
theorem WellFormed.insertBefore (h : t.WellFormed) (p c r : NodeId) :
    (t.insertBefore p c r).tree.WellFormed := by
  rcases h.insertBefore_cases p c r with ⟨e, heq, -⟩ | ⟨v, heq, -, -, -, -, hwf⟩ |
    ⟨v, u, before, after, heq, -, -, -, -, -, -, hwf⟩
  · exact heq ▸ h
  · exact heq ▸ hwf
  · exact heq ▸ hwf

/-- Only children are taken away from their parents. -/
theorem mem_children_of_removeChild (hok : t.removeChild p c = .ok u) : c ∈ t.children p := by
  unfold Tree.removeChild at hok
  split_ifs at hok with hp hc
  rw [Bool.not_eq_true', Bool.not_eq_false] at hc
  exact List.contains_iff_mem.mp hc

/-- The tree from which a child has been taken is well-formed. -/
theorem WellFormed.removeChild (h : t.WellFormed) (hok : t.removeChild p c = .ok u) :
    u.WellFormed := by
  obtain ⟨v, hv, -, hwf⟩ :=
    h.takenOut_removeChild (h.mem_children.mp (mem_children_of_removeChild hok))
  rw [hv, Except.ok.injEq] at hok
  exact hok ▸ hwf

/-- Only nodes of the tree are detached. -/
theorem lt_size_of_detach (hok : t.detach c = .ok u) : c < t.size := by
  unfold Tree.detach at hok
  split_ifs at hok with hc
  rw [Bool.not_eq_true', Bool.not_eq_false] at hc
  exact of_decide_eq_true hc

/-- The tree in which a node has been detached is well-formed. -/
theorem WellFormed.detach (h : t.WellFormed) (hok : t.detach c = .ok u) : u.WellFormed := by
  obtain ⟨v, hv, -, hwf⟩ := h.takenOut_detach (lt_size_of_detach hok)
  rw [hv, Except.ok.injEq] at hok
  exact hok ▸ hwf

/-! ## New nodes and new data -/

/-- The links of the old nodes after a node has been added. The new node has none. -/
theorem getElem?_alloc (t : Tree) (data : NodeData) (n : NodeId) :
    (t.alloc data).1.nodes[n]? = if n = t.size then some { data } else t.nodes[n]? :=
  Array.getElem?_push

/-- A new node has the data that it is made with. -/
theorem data?_alloc (t : Tree) (data : NodeData) (n : NodeId) :
    (t.alloc data).1.data? n = if n = t.size then some data else t.data? n := by
  rw [data?, getElem?_alloc]
  split_ifs
  · rfl
  · rfl

/-- A tree with a new node has one node more. -/
theorem size_alloc (t : Tree) (data : NodeData) : (t.alloc data).1.size = t.size + 1 :=
  Array.size_push _

/-- A link that a new node does not have is as before in all nodes. -/
theorem bind_getElem?_alloc {α : Type} (t : Tree) (data : NodeData) {link : Node → Option α}
    (hlink : link { data } = none) (n : NodeId) :
    (t.alloc data).1.nodes[n]?.bind link = t.nodes[n]?.bind link := by
  rw [getElem?_alloc]
  split_ifs with hn
  · rw [Array.getElem?_eq_none (Nat.le_of_eq hn.symm)]
    exact hlink
  · rfl

/-- A new node changes no parents, and has none. -/
theorem parent?_alloc (t : Tree) (data : NodeData) (n : NodeId) :
    (t.alloc data).1.parent? n = t.parent? n :=
  bind_getElem?_alloc t data rfl n

/-- A new node changes no lists of children, and has none. -/
theorem children_alloc (t : Tree) (data : NodeData) (n : NodeId) :
    (t.alloc data).1.children n = t.children n := by
  rw [children, children, getElem?_alloc]
  split_ifs with hn
  · rw [Array.getElem?_eq_none (Nat.le_of_eq hn.symm)]
    rfl
  · rfl

/-- A new node stands free, so the tree stays well-formed. -/
theorem WellFormed.alloc (h : t.WellFormed) (data : NodeData) : (t.alloc data).1.WellFormed :=
  h.of_sameLinks (by rw [data?_alloc, if_neg (Nat.ne_of_lt h.size_pos), h.document])
    (parent?_alloc t data) (children_alloc t data) (bind_getElem?_alloc t data rfl)
    (bind_getElem?_alloc t data rfl)

/-- A change of one node that keeps its links, and keeps it a document if it is one, leaves a
well-formed tree. -/
theorem WellFormed.modify_data (h : t.WellFormed) (n : NodeId) {f : Node → Node}
    (hlinks : ∀ node : Node, f node = { node with data := (f node).data })
    (hdocument : ∀ node : Node, t.nodes[n]? = some node → node.data = .document →
      (f node).data = .document) : (t.modify n f).WellFormed := by
  refine h.of_sameLinks ?_ ?_ ?_ ?_ ?_
  -- The document node keeps its data, or is changed to a document.
  · have hdata := h.document
    unfold data? at hdata ⊢
    rw [getElem?_modify]
    split_ifs with hn
    · subst hn
      obtain ⟨node, hnode, hd⟩ := Option.map_eq_some_iff.mp hdata
      rw [hnode, Option.map_some, Option.map_some, hdocument node hnode hd]
    · exact hdata
  -- The links of all nodes are what they were.
  · exact fun m => parent?_modify (fun node => by rw [hlinks]) t n m
  · exact fun m => children_modify (fun node => by rw [hlinks]) t n m
  · exact fun m => previous?_modify (fun node => by rw [hlinks]) t n m
  · exact fun m => next?_modify (fun node => by rw [hlinks]) t n m

/-- A change of what an element is leaves a well-formed tree. -/
theorem WellFormed.modifyElement (h : t.WellFormed) (n : NodeId) (f : Element → Element) :
    (t.modifyElement n f).WellFormed := by
  refine h.modify_data n (fun node => ?_) fun node _ hnode => ?_
  · split
    · rfl
    · rfl
  · rw [hnode]
    exact hnode

/-- A change of character data leaves a well-formed tree. -/
theorem WellFormed.setContent? (h : t.WellFormed) {n : NodeId} {content : String}
    (hok : t.setContent? n content = some u) : u.WellFormed := by
  -- The data that the tree gives for a node are those of the node, so a document is neither text
  -- nor comment.
  have hdata : ∀ node, t.nodes[n]? = some node → t.data? n = some node.data := fun node hnode => by
    rw [data?, hnode, Option.map_some]
  unfold Tree.setContent? at hok
  split at hok
  · next old hold =>
    obtain rfl := Option.some.inj hok
    refine h.modify_data n (fun _ => rfl) fun node hnode hd => ?_
    rw [hdata node hnode, hd] at hold
    cases hold
  · next old hold =>
    obtain rfl := Option.some.inj hok
    refine h.modify_data n (fun _ => rfl) fun node hnode hd => ?_
    rw [hdata node hnode, hd] at hold
    cases hold
  · cases hok

end TreeQuery.Tree
