import TreeQuery.Markup.Basic
import TreeQuery.Proofs.Loaded
import TreeQuery.Proofs.Preorder

/-!
# The markup of a node

Which piece of markup a node of a tree is can be said without the recursion over the tree that finds
it: `Markup.Carries` goes down the markup and follows the lists of children. In a well-formed tree
every node carries exactly one piece of markup, and that is its export (`markup?_eq_ok_iff`,
`exists_markup?`). In pre-order, the nodes of the markup are those of the subtree
(`Carries.data_subtree`).
-/

namespace TreeQuery

variable {t : Tree}

/-- Nothing lies below texts and comments. -/
def Tree.BareLeaves (t : Tree) : Prop :=
  ∀ (n : NodeId) (content : String),
    t.data? n = some (.text content) ∨ t.data? n = some (.comment content) → t.children n = []

namespace Markup

mutual

/-- What the nodes of a piece of markup are, in pre-order. -/
def nodes : Markup → List NodeData
  | document children => .document :: allNodes children
  | element tagName attributes children => .element ⟨tagName, attributes⟩ :: allNodes children
  | text content => [.text content]
  | comment content => [.comment content]

/-- What the nodes of several pieces of markup are, one piece after the other. -/
def allNodes : List Markup → List NodeData
  | [] => []
  | piece :: pieces => piece.nodes ++ allNodes pieces

end

/-- The number of nodes. -/
def size (piece : Markup) : Nat :=
  piece.nodes.length

/-- The number of nodes of several pieces. -/
def totalSize (pieces : List Markup) : Nat :=
  (allNodes pieces).length

/-- A document has the nodes of its children and one more. -/
theorem size_document (children : List Markup) :
    (document children).size = totalSize children + 1 := rfl

/-- An element has the nodes of its children and one more. -/
theorem size_element (tagName : String) (attributes : Attributes) (children : List Markup) :
    (element tagName attributes children).size = totalSize children + 1 := rfl

/-- Pieces have the nodes of the first and those of the others. -/
theorem totalSize_cons (piece : Markup) (pieces : List Markup) :
    totalSize (piece :: pieces) = piece.size + totalSize pieces :=
  List.length_append

/-! ## Nodes that carry markup -/

mutual

/-- A node of a tree, with what lies below it, is a piece of markup. Nothing is said about what lies
below a text or a comment. -/
def Carries (t : Tree) : Markup → NodeId → Prop
  | document children, n =>
    t.data? n = some .document ∧ AllCarry t children (t.children n)
  | element tagName attributes children, n =>
    t.data? n = some (.element ⟨tagName, attributes⟩) ∧ AllCarry t children (t.children n)
  | text content, n => t.data? n = some (.text content)
  | comment content, n => t.data? n = some (.comment content)

/-- The nodes of a list are, one by one, pieces of markup. -/
def AllCarry (t : Tree) : List Markup → List NodeId → Prop
  | [], ns => ns = []
  | piece :: pieces, ns =>
    ∃ n rest, ns = n :: rest ∧ Carries t piece n ∧ AllCarry t pieces rest

end

/-- Nodes carry pieces of markup if the first carries the first and the others the others. -/
theorem allCarry_cons {piece : Markup} {pieces : List Markup} {n : NodeId} {ns : List NodeId} :
    AllCarry t (piece :: pieces) (n :: ns) ↔ Carries t piece n ∧ AllCarry t pieces ns := by
  rw [AllCarry]
  constructor
  · rintro ⟨m, rest, heq, hn, hrest⟩
    obtain ⟨rfl, rfl⟩ := List.cons.inj heq
    exact ⟨hn, hrest⟩
  · exact fun ⟨hn, hrest⟩ => ⟨n, ns, rfl, hn, hrest⟩

/-- Where each node of a list carries markup, the list carries pieces of markup. -/
theorem exists_allCarry {ns : List NodeId} (h : ∀ n ∈ ns, ∃ piece, Carries t piece n) :
    ∃ pieces, AllCarry t pieces ns := by
  induction ns with
  | nil => exact ⟨[], rfl⟩
  | cons n ns ih =>
    obtain ⟨piece, hpiece⟩ := h n List.mem_cons_self
    obtain ⟨pieces, hpieces⟩ := ih fun m hm => h m (List.mem_cons_of_mem _ hm)
    exact ⟨piece :: pieces, allCarry_cons.mpr ⟨hpiece, hpieces⟩⟩

/-- Every node of a well-formed tree carries markup. -/
theorem exists_carries (h : t.WellFormed) {n : NodeId} (hn : n < t.size) :
    ∃ piece, Carries t piece n := by
  induction n using h.descend_induction with
  | step n ih =>
    obtain ⟨pieces, hpieces⟩ := exists_allCarry fun c hc => ih c hc (h.child_lt_size hc)
    have hdata : t.data? n = some t.nodes[n].data := by
      rw [Tree.data?, Array.getElem?_eq_getElem hn, Option.map_some]
    generalize t.nodes[n].data = data at hdata
    cases data with
    | document => exact ⟨.document pieces, hdata, hpieces⟩
    | element element => exact ⟨.element element.tagName element.attributes pieces, hdata, hpieces⟩
    | text content => exact ⟨.text content, hdata⟩
    | comment content => exact ⟨.comment content, hdata⟩

/-! ## The export of a node -/

/-- If the bound allows for a node, one less allows for its children. -/
theorem exists_bound (h : t.WellFormed) {n : NodeId} {bound : Nat} (hn : n < t.size)
    (hbound : t.size < bound + (t.ancestors n).length) :
    ∃ b, bound = b + 1 ∧ ∀ c ∈ t.children n, t.size < b + (t.ancestors c).length := by
  have hlt := h.length_ancestors_lt hn
  refine ⟨bound - 1, by omega, fun c hc => ?_⟩
  rw [h.ancestors_of_parent? (h.mem_children.mp hc), List.length_cons]
  omega

mutual

/-- A node is exported as the markup that it carries, if the bound allows for the node. -/
theorem Carries.markupWithin?_eq (h : t.WellFormed) : ∀ {piece : Markup} {n : NodeId} {bound : Nat},
    Carries t piece n → t.size < bound + (t.ancestors n).length →
      t.markupWithin? bound n = .ok piece
  -- A node with children takes one from the bound, and what is left is enough for each child, which
  -- has one ancestor more.
  | .document children, n, bound, ⟨hdata, hchildren⟩, hbound => by
    obtain ⟨b, rfl, hbelow⟩ := exists_bound h (Tree.lt_size_of_data? hdata) hbound
    rw [Tree.markupWithin?, hdata]
    dsimp only
    rw [hchildren.mapM_markupWithin?_eq h hbelow]
    rfl
  | .element tagName attributes children, n, bound, ⟨hdata, hchildren⟩, hbound => by
    obtain ⟨b, rfl, hbelow⟩ := exists_bound h (Tree.lt_size_of_data? hdata) hbound
    rw [Tree.markupWithin?, hdata]
    dsimp only
    rw [hchildren.mapM_markupWithin?_eq h hbelow]
    rfl
  -- Character data and comments need a bound for the node alone.
  | .text content, n, bound, hdata, hbound => by
    obtain ⟨b, rfl, -⟩ := exists_bound h (Tree.lt_size_of_data? hdata) hbound
    rw [Tree.markupWithin?, hdata]
    rfl
  | .comment content, n, bound, hdata, hbound => by
    obtain ⟨b, rfl, -⟩ := exists_bound h (Tree.lt_size_of_data? hdata) hbound
    rw [Tree.markupWithin?, hdata]
    rfl

/-- The nodes of a list are exported as the pieces of markup that they carry. -/
theorem AllCarry.mapM_markupWithin?_eq (h : t.WellFormed) :
    ∀ {pieces : List Markup} {ns : List NodeId} {bound : Nat}, AllCarry t pieces ns →
      (∀ n ∈ ns, t.size < bound + (t.ancestors n).length) →
        ns.mapM (t.markupWithin? bound) = .ok pieces
  | [], ns, bound, hns, hbound => by
    obtain rfl : ns = [] := hns
    rfl
  | piece :: pieces, _, bound, ⟨n, rest, rfl, hn, hrest⟩, hbound => by
    have hbelow : ∀ m ∈ rest, t.size < bound + (t.ancestors m).length :=
      fun m hm => hbound m (List.mem_cons_of_mem _ hm)
    rw [List.mapM_cons, hn.markupWithin?_eq h (hbound n List.mem_cons_self),
      hrest.mapM_markupWithin?_eq h hbelow]
    rfl

end

end Markup

namespace Tree

open Markup (Carries AllCarry exists_carries)

/-- The export of a node is the markup that it carries. -/
theorem WellFormed.markup?_eq_ok_iff (h : t.WellFormed) {n : NodeId} (hn : n < t.size)
    {piece : Markup} : t.markup? n = .ok piece ↔ Carries t piece n := by
  have hexport : ∀ {piece}, Carries t piece n → t.markup? n = .ok piece := fun hpiece =>
    hpiece.markupWithin?_eq h (by omega)
  constructor
  · intro hok
    obtain ⟨other, hother⟩ := exists_carries h hn
    rw [hexport hother] at hok
    exact Except.ok.inj hok ▸ hother
  · exact hexport

/-- Every node can be exported. -/
theorem WellFormed.exists_markup? (h : t.WellFormed) {n : NodeId} (hn : n < t.size) :
    ∃ piece, t.markup? n = .ok piece ∧ Carries t piece n := by
  obtain ⟨piece, hpiece⟩ := exists_carries h hn
  exact ⟨piece, (h.markup?_eq_ok_iff hn).mpr hpiece, hpiece⟩

end Tree

/-! ## Markup in pre-order -/

namespace Markup

mutual

/-- In pre-order, the nodes of the markup that a node carries are a part of its subtree. -/
theorem Carries.data_sublist (h : t.WellFormed) : ∀ {piece : Markup} {n : NodeId},
    Carries t piece n → (piece.nodes.map some).Sublist ((t.subtree n).map t.data?)
  | .document children, n, ⟨hdata, hchildren⟩ => by
    rw [h.subtree_eq, List.map_cons, hdata]
    exact (hchildren.data_sublist h).cons_cons _
  | .element tagName attributes children, n, ⟨hdata, hchildren⟩ => by
    rw [h.subtree_eq, List.map_cons, hdata]
    exact (hchildren.data_sublist h).cons_cons _
  | .text content, n, hdata => by
    rw [h.subtree_eq, List.map_cons, hdata]
    exact (List.nil_sublist _).cons_cons _
  | .comment content, n, hdata => by
    rw [h.subtree_eq, List.map_cons, hdata]
    exact (List.nil_sublist _).cons_cons _

/-- In pre-order, the nodes of several pieces of markup are a part of the subtrees of the nodes that
carry them. -/
theorem AllCarry.data_sublist (h : t.WellFormed) : ∀ {pieces : List Markup} {ns : List NodeId},
    AllCarry t pieces ns → ((allNodes pieces).map some).Sublist ((ns.flatMap t.subtree).map t.data?)
  | [], ns, _ => List.nil_sublist _
  | piece :: pieces, _, ⟨n, rest, rfl, hn, hrest⟩ => by
    rw [List.flatMap_cons, List.map_append, allNodes, List.map_append]
    exact (hn.data_sublist h).append (hrest.data_sublist h)

end

/-- The markup of a node has below its top only what lies below the node. -/
theorem Carries.exists_below (h : t.WellFormed) {piece : Markup} {n : NodeId}
    (hpiece : Carries t piece n) {data : NodeData} (hdata : data ∈ piece.nodes.tail) :
    ∃ m, t.data? m = some data ∧ t.Above n m := by
  have hsub := (hpiece.data_sublist h).tail
  rw [← List.map_tail, ← List.map_tail] at hsub
  obtain ⟨m, hm, hmdata⟩ := List.mem_map.mp (hsub.subset (List.mem_map_of_mem hdata))
  refine ⟨m, hmdata, ?_⟩
  rw [h.subtree_eq, List.tail_cons] at hm
  obtain ⟨c, hc, hm⟩ := List.mem_flatMap.mp hm
  exact (Tree.above_iff_child h).mpr ⟨c, hc, h.mem_subtree.mp hm⟩

mutual

/-- If nothing lies below texts and comments, the markup that a node carries has all nodes of its
subtree. -/
theorem Carries.data_subtree (h : t.WellFormed) (hleaves : t.BareLeaves) :
    ∀ {piece : Markup} {n : NodeId}, Carries t piece n →
      (t.subtree n).map t.data? = piece.nodes.map some
  | .document children, n, ⟨hdata, hchildren⟩ => by
    rw [h.subtree_eq, List.map_cons, hdata, hchildren.data_subtrees h hleaves]
    rfl
  | .element tagName attributes children, n, ⟨hdata, hchildren⟩ => by
    rw [h.subtree_eq, List.map_cons, hdata, hchildren.data_subtrees h hleaves]
    rfl
  | .text content, n, hdata => by
    rw [h.subtree_eq, hleaves n content (.inl hdata), List.map_cons, hdata]
    rfl
  | .comment content, n, hdata => by
    rw [h.subtree_eq, hleaves n content (.inr hdata), List.map_cons, hdata]
    rfl

/-- If nothing lies below texts and comments, several pieces of markup have all nodes of the
subtrees of the nodes that carry them. -/
theorem AllCarry.data_subtrees (h : t.WellFormed) (hleaves : t.BareLeaves) :
    ∀ {pieces : List Markup} {ns : List NodeId}, AllCarry t pieces ns →
      (ns.flatMap t.subtree).map t.data? = (allNodes pieces).map some
  | [], ns, hns => by
    obtain rfl : ns = [] := hns
    rfl
  | piece :: pieces, _, ⟨n, rest, rfl, hn, hrest⟩ => by
    rw [List.flatMap_cons, List.map_append, hn.data_subtree h hleaves,
      hrest.data_subtrees h hleaves, allNodes, List.map_append]

end

end Markup

end TreeQuery
