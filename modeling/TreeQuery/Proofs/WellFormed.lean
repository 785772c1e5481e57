import Mathlib.Logic.Relation
import Mathlib.Tactic.Common
import TreeQuery.Tree.Edit

/-!
# Well-formed trees

A node stores its parent, its children and its two neighbours, so the shape of a tree is written
down four times. `Tree.WellFormed` says that the four agree, that node 0 is a document without a
parent, and that no node lies above itself. `WellFormed.ext` shows that the lists of children decide
all the other links: two well-formed trees with the same data and the same lists are equal. What an
edit does to the lists of children is therefore all that has to be known about it.
-/

namespace TreeQuery.Tree

variable {t u : Tree}

/-- The walk upwards from `n` meets `a`. -/
def Above (t : Tree) (a n : NodeId) : Prop :=
  Relation.TransGen (fun p c => t.parent? c = some p) a n

/-- The links of a tree agree with each other and form a forest. -/
structure WellFormed (t : Tree) : Prop where
  /-- Node 0 is a document. -/
  document : t.data? .document = some .document
  /-- Node 0 has no parent. -/
  parent_document : t.parent? .document = none
  /-- The children of a node are the nodes whose parent it is. -/
  mem_children : ∀ {p c : NodeId}, c ∈ t.children p ↔ t.parent? c = some p
  /-- No node is listed twice among the children of a node. -/
  nodup_children : ∀ p : NodeId, (t.children p).Nodup
  /-- The neighbours of a node are those that it has in its parent's list. -/
  neighbours : ∀ {p n : NodeId} {before after : List NodeId},
    t.children p = before ++ n :: after →
      t.previous? n = before.getLast? ∧ t.next? n = after.head?
  /-- A node without a parent has no neighbours. -/
  free : ∀ {n : NodeId}, t.parent? n = none → t.previous? n = none ∧ t.next? n = none
  /-- No node lies above itself. -/
  acyclic : ∀ n : NodeId, ¬ t.Above n n

/-- All links of a tree lead to nodes of the tree. -/
def LinksInRange (t : Tree) : Prop :=
  ∀ n m : NodeId, t.parent? n = some m ∨ m ∈ t.children n ∨ t.previous? n = some m ∨
    t.next? n = some m → m < t.size

/-! ## Reading links -/

/-- Only a node of the tree has data. -/
theorem lt_size_of_data? {n : NodeId} {data : NodeData} (h : t.data? n = some data) :
    n < t.size := by
  obtain ⟨node, hnode, -⟩ := Option.map_eq_some_iff.mp h
  exact (Array.getElem?_eq_some_iff.mp hnode).1

/-- A node below the size is in the tree. -/
theorem contains_of_lt {n : NodeId} (hn : n < t.size) : t.contains n = true :=
  decide_eq_true hn

/-- A node from the size on is not in the tree. -/
theorem contains_of_not_lt {n : NodeId} (hn : ¬ n < t.size) : t.contains n = false :=
  decide_eq_false hn

/-- A node is an element exactly if its data say so. -/
theorem element?_eq_some_iff {n : NodeId} {element : Element} :
    t.element? n = some element ↔ t.data? n = some (.element element) := by
  unfold element?
  split
  · next other hdata => rw [hdata, Option.some.injEq, Option.some.injEq, NodeData.element.injEq]
  · next hdata => exact iff_of_false (fun hfalse => nomatch hfalse) (hdata element)

/-- Only a node of the tree has a parent. -/
theorem lt_size_of_parent? {n p : NodeId} (h : t.parent? n = some p) : n < t.size := by
  obtain ⟨node, hnode, -⟩ := Option.bind_eq_some_iff.mp h
  exact (Array.getElem?_eq_some_iff.mp hnode).1

/-- Only a node of the tree has children. -/
theorem lt_size_of_mem_children {p c : NodeId} (h : c ∈ t.children p) : p < t.size := by
  by_contra hp
  rw [children, Array.getElem?_eq_none (Nat.not_lt.mp hp)] at h
  exact List.not_mem_nil h

/-- A node is given by its data and its links. -/
theorem ext_getElem? {n : NodeId} (hsize : t.size = u.size) (hdata : t.data? n = u.data? n)
    (hparent : t.parent? n = u.parent? n) (hchildren : t.children n = u.children n)
    (hprevious : t.previous? n = u.previous? n) (hnext : t.next? n = u.next? n) :
    t.nodes[n]? = u.nodes[n]? := by
  by_cases hn : n < t.size
  · have hu : n < u.size := hsize ▸ hn
    have et : t.nodes[n]? = some t.nodes[n] := Array.getElem?_eq_getElem hn
    have eu : u.nodes[n]? = some u.nodes[n] := Array.getElem?_eq_getElem hu
    simp only [data?, et, eu, Option.map_some, Option.some.injEq] at hdata
    simp only [parent?, et, eu, Option.bind_some] at hparent
    simp only [children, et, eu, Option.map_some, Option.getD_some] at hchildren
    simp only [previous?, et, eu, Option.bind_some] at hprevious
    simp only [next?, et, eu, Option.bind_some] at hnext
    rw [et, eu, Option.some.injEq]
    -- The five fields of the two nodes agree one by one.
    generalize t.nodes[n] = a at *
    generalize u.nodes[n] = b at *
    obtain ⟨_, _, _, _, _⟩ := a
    obtain ⟨_, _, _, _, _⟩ := b
    simp only at hdata hparent hchildren hprevious hnext
    subst hdata hparent hchildren hprevious hnext
    rfl
  · have hu : ¬ n < u.size := hsize ▸ hn
    rw [Array.getElem?_eq_none (Nat.not_lt.mp hn), Array.getElem?_eq_none (Nat.not_lt.mp hu)]

/-! ## Ancestors as a relation -/

/-- A parent lies above its child. -/
theorem Above.of_parent? {p c : NodeId} (h : t.parent? c = some p) : t.Above p c :=
  .single h

/-- What lies above a node lies above its children. -/
theorem Above.child {a p c : NodeId} (h : t.Above a p) (hc : t.parent? c = some p) :
    t.Above a c :=
  Relation.TransGen.tail h hc

/-- What lies above a node is its parent or lies above its parent. -/
theorem above_iff {a n : NodeId} :
    t.Above a n ↔ ∃ p, t.parent? n = some p ∧ (a = p ∨ t.Above a p) := by
  constructor
  · intro h
    cases h with
    | single h => exact ⟨a, h, .inl rfl⟩
    | tail h hp => exact ⟨_, hp, .inr h⟩
  · rintro ⟨p, hp, rfl | h⟩
    · exact .of_parent? hp
    · exact h.child hp

/-- Lying above is transitive. -/
theorem Above.trans {a b c : NodeId} (hab : t.Above a b) (hbc : t.Above b c) : t.Above a c :=
  Relation.TransGen.trans hab hbc

/-- Only a node of the tree has nodes above it. -/
theorem Above.lt_size {a n : NodeId} (h : t.Above a n) : n < t.size := by
  obtain ⟨p, hp, -⟩ := above_iff.mp h
  exact lt_size_of_parent? hp

/-- Trees with the same parents have the same ancestors. -/
theorem Above.congr (hparent : ∀ n, u.parent? n = t.parent? n) {a n : NodeId} (h : u.Above a n) :
    t.Above a n := by
  refine Relation.TransGen.mono (fun p c hc => ?_) _ _ h
  rw [← hparent]
  exact hc

/-- A node is above those below it and under those above it, so never both for one other node. -/
theorem WellFormed.not_above (h : t.WellFormed) {a n : NodeId} (hab : t.Above a n) :
    ¬ t.Above n a :=
  fun hba => h.acyclic a (hab.trans hba)

/-! ## What the links of a well-formed tree decide -/

/-- A parent is a node of the tree. -/
theorem WellFormed.parent_lt_size (h : t.WellFormed) {p c : NodeId}
    (hc : t.parent? c = some p) : p < t.size :=
  lt_size_of_mem_children (h.mem_children.mpr hc)

/-- A child is a node of the tree. -/
theorem WellFormed.child_lt_size (h : t.WellFormed) {p c : NodeId} (hc : c ∈ t.children p) :
    c < t.size :=
  lt_size_of_parent? (h.mem_children.mp hc)

/-- A node that stands free is in no list of children. -/
theorem WellFormed.not_mem_children_of_free (h : t.WellFormed) {c : NodeId}
    (hfree : t.parent? c = none) (n : NodeId) : c ∉ t.children n := by
  intro hmem
  rw [h.mem_children, hfree] at hmem
  cases hmem

/-- A node that has a parent is not the document node. -/
theorem WellFormed.ne_document_of_parent? (h : t.WellFormed) {p c : NodeId}
    (hc : t.parent? c = some p) : c ≠ .document := by
  rintro rfl
  rw [h.parent_document] at hc
  cases hc

/-- Nothing lies above the document node. -/
theorem WellFormed.not_above_document (h : t.WellFormed) {n : NodeId} :
    ¬ t.Above n .document := by
  intro hn
  obtain ⟨p, hp, -⟩ := above_iff.mp hn
  exact h.ne_document_of_parent? hp rfl

/-- There is a document node. -/
theorem WellFormed.size_pos (h : t.WellFormed) : 0 < t.size :=
  lt_size_of_data? h.document

/-- What lies above a node is a node of the tree. -/
theorem WellFormed.above_lt_size (h : t.WellFormed) {a n : NodeId} (ha : t.Above a n) :
    a < t.size := by
  -- The first step of the walk downwards already starts from `a`.
  induction ha with
  | single hp => exact h.parent_lt_size hp
  | tail _ _ ih => exact ih

/-- A node that has a parent stands somewhere in its parent's list, which gives its neighbours. -/
theorem WellFormed.exists_split (h : t.WellFormed) {p n : NodeId} (hn : t.parent? n = some p) :
    ∃ before after, t.children p = before ++ n :: after ∧ t.previous? n = before.getLast? ∧
      t.next? n = after.head? := by
  obtain ⟨before, after, hsplit⟩ := List.append_of_mem (h.mem_children.mpr hn)
  exact ⟨before, after, hsplit, h.neighbours hsplit⟩

/-- The neighbours of a node are children of its parent. -/
theorem WellFormed.neighbour_mem (h : t.WellFormed) {n m : NodeId}
    (hm : t.previous? n = some m ∨ t.next? n = some m) :
    ∃ p, t.parent? n = some p ∧ m ∈ t.children p := by
  -- A node without a parent has no neighbours, and one with a parent has them in its parent's list.
  cases hp : t.parent? n with
  | none =>
    obtain ⟨hprevious, hnext⟩ := h.free hp
    rw [hprevious, hnext] at hm
    simp at hm
  | some p =>
    refine ⟨p, rfl, ?_⟩
    obtain ⟨before, after, hsplit, hprevious, hnext⟩ := h.exists_split hp
    rw [hprevious, hnext] at hm
    rw [hsplit]
    rcases hm with hm | hm
    · exact List.mem_append_left _ (List.mem_of_getLast? hm)
    · exact List.mem_append_right _ (List.mem_cons_of_mem _ (List.mem_of_head? hm))

/-- The links of a well-formed tree lead to nodes of the tree. -/
theorem WellFormed.linksInRange (h : t.WellFormed) : t.LinksInRange := by
  intro n m hm
  rcases hm with hm | hm | hm
  · exact h.parent_lt_size hm
  · exact h.child_lt_size hm
  · obtain ⟨p, -, hmem⟩ := h.neighbour_mem hm
    exact h.child_lt_size hmem

/-- The lists of children of two well-formed trees decide whether they have the same parents. -/
theorem WellFormed.parent?_eq_of_children (ht : t.WellFormed) (hu : u.WellFormed)
    (hchildren : ∀ n, t.children n = u.children n) (n : NodeId) : t.parent? n = u.parent? n := by
  refine Option.ext fun p => ?_
  rw [← ht.mem_children, ← hu.mem_children, hchildren]

/-- Two well-formed trees with the same data and the same lists of children are equal. -/
theorem WellFormed.ext (ht : t.WellFormed) (hu : u.WellFormed) (hflavour : t.flavour = u.flavour)
    (hsize : t.size = u.size) (hdata : ∀ n, t.data? n = u.data? n)
    (hchildren : ∀ n, t.children n = u.children n) : t = u := by
  have hparent := ht.parent?_eq_of_children hu hchildren
  -- A free node has no neighbours in either tree, and any other has those that its list gives it.
  have hneighbours : ∀ n, t.previous? n = u.previous? n ∧ t.next? n = u.next? n := by
    intro n
    cases hp : t.parent? n with
    | none =>
      obtain ⟨ept, ent⟩ := ht.free hp
      obtain ⟨epu, enu⟩ := hu.free (hparent n ▸ hp)
      exact ⟨ept.trans epu.symm, ent.trans enu.symm⟩
    | some p =>
      obtain ⟨before, after, hsplit, ept, ent⟩ := ht.exists_split hp
      obtain ⟨epu, enu⟩ := hu.neighbours ((hchildren p).symm.trans hsplit)
      exact ⟨ept.trans epu.symm, ent.trans enu.symm⟩
  have hnodes : t.nodes = u.nodes := Array.ext_getElem? fun n =>
    ext_getElem? hsize (hdata n) (hparent n) (hchildren n) (hneighbours n).1 (hneighbours n).2
  obtain ⟨_, _⟩ := t
  obtain ⟨_, _⟩ := u
  simp only at hflavour hnodes
  rw [hflavour, hnodes]

/-- A change that touches no link keeps a tree well-formed if node 0 stays a document. -/
theorem WellFormed.of_sameLinks (h : t.WellFormed)
    (hdocument : u.data? .document = some .document)
    (hparent : ∀ n, u.parent? n = t.parent? n) (hchildren : ∀ n, u.children n = t.children n)
    (hprevious : ∀ n, u.previous? n = t.previous? n) (hnext : ∀ n, u.next? n = t.next? n) :
    u.WellFormed where
  document := hdocument
  parent_document := (hparent _).trans h.parent_document
  -- Each law speaks of the links alone, and they are the same in both trees.
  mem_children := by
    intro p c
    rw [hchildren, hparent]
    exact h.mem_children
  nodup_children p := hchildren p ▸ h.nodup_children p
  neighbours := by
    intro p n before after hsplit
    rw [hprevious, hnext]
    exact h.neighbours ((hchildren p).symm.trans hsplit)
  free := by
    intro n hn
    rw [hprevious, hnext]
    exact h.free ((hparent n).symm.trans hn)
  acyclic n hn := h.acyclic n (hn.congr hparent)

end TreeQuery.Tree
