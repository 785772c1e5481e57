import TreeQuery.Tree.Basic

/-!
# Node sets

A list of nodes without repetition, in the order in which the nodes were first added.
-/

namespace TreeQuery

/-- A list of nodes without repetition. -/
structure NodeSet where
  /-- The nodes in the order of their first addition. -/
  nodes : List NodeId
  /-- No node is listed twice. -/
  nodup : nodes.Nodup
  deriving DecidableEq

namespace NodeSet

/-- The set without nodes. -/
def empty : NodeSet :=
  ⟨[], .nil⟩

/-- A set without nodes is at hand where some set is asked for. -/
instance : Inhabited NodeSet :=
  ⟨empty⟩

/-- The members of a set are the nodes that it lists. -/
instance : Membership NodeId NodeSet :=
  ⟨fun set n => n ∈ set.nodes⟩

/-- Whether a node is in the set. -/
def contains (set : NodeSet) (n : NodeId) : Bool :=
  set.nodes.contains n

/-- The set with one more node, which comes last if it is new. -/
def insert (set : NodeSet) (n : NodeId) : NodeSet :=
  if h : n ∈ set.nodes then set
  else ⟨set.nodes ++ [n], List.nodup_append.mpr
    ⟨set.nodup, List.pairwise_singleton _ n, fun _ ha _ hb heq =>
      h (List.mem_singleton.mp hb ▸ heq ▸ ha)⟩⟩

/-- The set with more nodes, added one after the other. -/
def insertAll (set : NodeSet) (nodes : List NodeId) : NodeSet :=
  nodes.foldl insert set

/-- The nodes of a list, each at the place where it first occurs. -/
def ofList (nodes : List NodeId) : NodeSet :=
  empty.insertAll nodes

/-- The number of nodes. -/
def size (set : NodeSet) : Nat :=
  set.nodes.length

/-- Whether there are no nodes. -/
def isEmpty (set : NodeSet) : Bool :=
  set.nodes.isEmpty

/-- The test for a node looks for it among the nodes of the set. -/
theorem contains_iff {set : NodeSet} {n : NodeId} : set.contains n = true ↔ n ∈ set.nodes := by
  simp [contains]

/-- Inserting a node adds that node and no other. -/
@[simp] theorem mem_insert {set : NodeSet} {n m : NodeId} :
    m ∈ (set.insert n).nodes ↔ m ∈ set.nodes ∨ m = n := by
  rw [insert]
  split
  · next h => exact ⟨.inl, fun hm => hm.elim id fun heq => heq ▸ h⟩
  · simp

/-- Inserting nodes adds those nodes and no others. -/
@[simp] theorem mem_insertAll {set : NodeSet} {nodes : List NodeId} {m : NodeId} :
    m ∈ (set.insertAll nodes).nodes ↔ m ∈ set.nodes ∨ m ∈ nodes := by
  induction nodes generalizing set with
  | nil => simp [insertAll]
  | cons n nodes ih =>
    have : set.insertAll (n :: nodes) = (set.insert n).insertAll nodes := rfl
    rw [this, ih, mem_insert, List.mem_cons, or_assoc]

/-- The set of a list has the members of the list. -/
@[simp] theorem mem_ofList {nodes : List NodeId} {m : NodeId} :
    m ∈ (ofList nodes).nodes ↔ m ∈ nodes := by
  simp [ofList, empty]

/-- The test for a node does not tell the set of a list from the list. -/
theorem contains_nodes_ofList (nodes : List NodeId) (n : NodeId) :
    (ofList nodes).nodes.contains n = nodes.contains n := by
  have hcontains : (ofList nodes).nodes.contains n = true ↔ n ∈ (ofList nodes).nodes :=
    contains_iff
  rw [Bool.eq_iff_iff, hcontains, mem_ofList, List.contains_iff_mem]

/-- The set of a list is empty if the list is. -/
theorem isEmpty_nodes_ofList (nodes : List NodeId) :
    (ofList nodes).nodes.isEmpty = nodes.isEmpty := by
  rw [Bool.eq_iff_iff, List.isEmpty_iff, List.isEmpty_iff, List.eq_nil_iff_forall_not_mem,
    List.eq_nil_iff_forall_not_mem]
  simp only [mem_ofList]

end NodeSet

end TreeQuery
