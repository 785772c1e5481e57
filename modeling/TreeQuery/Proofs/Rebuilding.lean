import TreeQuery.Proofs.Building
import TreeQuery.Proofs.DocumentOrder
import TreeQuery.Proofs.Reachable

/-!
# Building and exporting are inverse

The export of a built tree is the markup that it was built of, with a document on top. The other way
round, a tree built of an export is not the tree itself, which may have detached nodes and numbers
its nodes as it was edited; it is the attached part of the tree, numbered in document order
(`Tree.Renumbered`). Both trees carry the same markup, so their subtrees can be gone through side by
side (`Markup.Carries.twins`).
-/

namespace TreeQuery

variable {t u : Tree}

/-- `u` is what hangs from the document node of `t`, with the nodes numbered in document order. -/
structure Tree.Renumbered (t u : Tree) : Prop where
  /-- The nodes in document order are those that hang from the document node. -/
  mem_documentOrder : ∀ {n : NodeId}, n ∈ t.documentOrder ↔ t.Attached n
  /-- There are as many nodes as that. -/
  size_eq : u.size = t.documentOrder.length
  /-- In document order, the numbers count upwards. -/
  documentOrder_eq : u.documentOrder = List.range u.size
  /-- The nodes are what they were. -/
  data? : ∀ {k : Nat} {n : NodeId}, t.documentOrder[k]? = some n → u.data? k = t.data? n
  /-- The children are the same in the same order. -/
  children : ∀ {k : Nat} {n : NodeId}, t.documentOrder[k]? = some n →
    List.Forall₂ (fun j c => t.documentOrder[j]? = some c) (u.children k) (t.children n)

/-- Lists that correspond to each other correspond up to and from any place. -/
theorem forall₂_range'_append {S : Nat → NodeId → Prop} {k a b : Nat} {ns ms : List NodeId}
    (h : List.Forall₂ S (List.range' k (a + b)) (ns ++ ms)) (hlength : ns.length = a) :
    List.Forall₂ S (List.range' k a) ns ∧ List.Forall₂ S (List.range' (k + a) b) ms := by
  subst hlength
  rw [← List.range'_append_1] at h
  have hfront := List.forall₂_take_append _ ns ms h
  have hback := List.forall₂_drop_append _ ns ms h
  rw [List.take_left' List.length_range'] at hfront
  rw [List.drop_left' List.length_range'] at hback
  exact ⟨hfront, hback⟩

namespace Markup

/-- Two nodes of two trees have the same data, and children that correspond to each other. -/
def Twins (S : Nat → NodeId → Prop) (u t : Tree) (k : Nat) (n : NodeId) : Prop :=
  u.data? k = t.data? n ∧ List.Forall₂ S (u.children k) (t.children n)

variable {S : Nat → NodeId → Prop}

/-- The subtree of a node has as many nodes as the markup that it carries. -/
theorem Carries.length_subtree (h : t.WellFormed) (hleaves : t.BareLeaves) {piece : Markup}
    {n : NodeId} (hpiece : Carries t piece n) : (t.subtree n).length = piece.size := by
  have hlength := congrArg List.length (hpiece.data_subtree h hleaves)
  rwa [List.length_map, List.length_map] at hlength

mutual

/-- Where a node carries markup that is laid out in another tree, and its subtree corresponds to the
numbers of that layout, the two subtrees are twins node by node. -/
theorem Carries.twins (h : t.WellFormed) (hleaves : t.BareLeaves) :
    ∀ {piece : Markup} {n : NodeId} {k : Nat}, Carries t piece n → LaidOut u piece k →
      List.Forall₂ S (List.range' k piece.size) (t.subtree n) →
        List.Forall₂ (Twins S u t) (List.range' k piece.size) (t.subtree n)
  -- A document and an element: the nodes at hand are twins, and those below them by the pieces.
  | .document children, n, k, ⟨hdata, hchildren⟩, ⟨hlaid, hstarts, hbelow⟩, hS => by
    rw [h.subtree_eq, size_document, List.range'_succ] at hS ⊢
    obtain ⟨-, hS⟩ := List.forall₂_cons.mp hS
    obtain ⟨hlists, htwins⟩ := hchildren.twins h hleaves hbelow hS
    exact .cons ⟨hlaid.trans hdata.symm, hstarts ▸ hlists⟩ htwins
  | .element tagName attributes children, n, k, ⟨hdata, hchildren⟩,
    ⟨hlaid, hstarts, hbelow⟩, hS => by
    rw [h.subtree_eq, size_element, List.range'_succ] at hS ⊢
    obtain ⟨-, hS⟩ := List.forall₂_cons.mp hS
    obtain ⟨hlists, htwins⟩ := hchildren.twins h hleaves hbelow hS
    exact .cons ⟨hlaid.trans hdata.symm, hstarts ▸ hlists⟩ htwins
  -- Texts and comments: in a tree with bare leaves nothing hangs from them.
  | .text content, n, k, hdata, ⟨hlaid, hnone⟩, _ => by
    have hchildren := hleaves n content (.inl hdata)
    rw [h.subtree_eq, hchildren]
    refine .cons ⟨hlaid.trans hdata.symm, ?_⟩ .nil
    rw [hnone, hchildren]
    exact .nil
  | .comment content, n, k, hdata, ⟨hlaid, hnone⟩, _ => by
    have hchildren := hleaves n content (.inr hdata)
    rw [h.subtree_eq, hchildren]
    refine .cons ⟨hlaid.trans hdata.symm, ?_⟩ .nil
    rw [hnone, hchildren]
    exact .nil

/-- Where the nodes of a list carry pieces of markup that are laid out in another tree, and their
subtrees correspond to the numbers of that layout, the nodes correspond to the starts of the pieces
and the subtrees are twins node by node. -/
theorem AllCarry.twins (h : t.WellFormed) (hleaves : t.BareLeaves) :
    ∀ {pieces : List Markup} {ns : List NodeId} {k : Nat}, AllCarry t pieces ns →
      AllLaidOut u pieces k →
      List.Forall₂ S (List.range' k (totalSize pieces)) (ns.flatMap t.subtree) →
        List.Forall₂ S (starts pieces k) ns ∧
          List.Forall₂ (Twins S u t) (List.range' k (totalSize pieces)) (ns.flatMap t.subtree)
  | [], ns, k, hns, _, _ => by
    obtain rfl : ns = [] := hns
    exact ⟨.nil, .nil⟩
  -- The first piece and the others part the numbers and the nodes at the same place.
  | piece :: pieces, _, k, ⟨n, rest, rfl, hn, hrest⟩, ⟨hlaid, hall⟩, hS => by
    rw [List.flatMap_cons, totalSize_cons] at hS ⊢
    obtain ⟨hfirst, hmore⟩ := forall₂_range'_append hS (hn.length_subtree h hleaves)
    obtain ⟨hlists, htwins⟩ := hrest.twins h hleaves hall hmore
    -- The first number of the first piece belongs to the first node, where its subtree starts.
    have hhead : S k n := by
      rw [h.subtree_eq, ← Nat.succ_pred (Nat.ne_of_gt piece.size_pos), List.range'_succ] at hfirst
      exact (List.forall₂_cons.mp hfirst).1
    refine ⟨.cons hhead hlists, ?_⟩
    rw [← List.range'_append_1]
    exact List.rel_append (hn.twins h hleaves hlaid hfirst) htwins

end

end Markup

/-! ## Built trees -/

namespace Tree

/-- Whether node 0 is the only document is a question about the nodes of the tree. -/
theorem eq_document_of_lt_size
    (h : ∀ n < t.size, t.data? n = some .document → n = NodeId.document) (n : NodeId)
    (hdata : t.data? n = some .document) : n = .document :=
  h n (lt_size_of_data? hdata) hdata

/-- Nothing lies below texts and comments if all that has children is a document or an element. -/
theorem bareLeaves_of_parents (h : ∀ n < t.size, t.children n ≠ [] →
    t.data? n = some .document ∨ t.isElement n = true) : t.BareLeaves := by
  intro n content hdata
  by_contra hne
  obtain ⟨c, hc⟩ := List.exists_mem_of_ne_nil _ hne
  rcases h n (lt_size_of_mem_children hc) hne with hdocument | helement
  · rw [hdocument] at hdata
    simp at hdata
  · obtain ⟨element, helement⟩ := Option.isSome_iff_exists.mp helement
    rw [element?_eq_some_iff.mp helement] at hdata
    simp at hdata

/-- In a tree made of markup nothing lies below texts and comments. -/
theorem Loaded.bareLeaves (h : t.Loaded) : t.BareLeaves := by
  refine bareLeaves_of_parents fun n _ hne => ?_
  obtain ⟨c, hc⟩ := List.exists_mem_of_ne_nil _ hne
  have hparent := h.mem_children.mp hc
  have hdocument : c ≠ .document := h.ne_document_of_parent? hparent
  obtain ⟨p, hp, hkind⟩ := h.hangs (lt_size_of_parent? hparent) hdocument
  obtain rfl := Option.some.inj (hparent.symm.trans hp)
  rcases hkind with rfl | helement
  · exact .inl h.document
  · exact .inr helement

open Markup (Carries)

/-- The export of a tree in which node 0 is the only document is a document with no other document
in it. -/
theorem WellFormed.markup?_document (h : t.WellFormed)
    (honly : ∀ n, t.data? n = some .document → n = .document) :
    ∃ piece, t.markup? .document = .ok piece ∧ Carries t piece .document ∧
      piece.underDocument = piece ∧ .document ∉ piece.nodes.tail := by
  obtain ⟨piece, hexport, hpiece⟩ := h.exists_markup? h.size_pos
  refine ⟨piece, hexport, hpiece, ?_, fun hmem => ?_⟩
  -- Node 0 is a document, so the piece that it carries is one.
  · cases piece with
    | document children => rfl
    | element tagName attributes children =>
      have hdata := hpiece.1
      rw [h.document] at hdata
      cases hdata
    | text content => cases h.document.symm.trans hpiece
    | comment content => cases h.document.symm.trans hpiece
  · -- Another document would have to lie below node 0, and so be node 0 itself.
    obtain ⟨m, hdata, habove⟩ := hpiece.exists_below h hmem
    exact h.acyclic _ (honly m hdata ▸ habove)

end Tree

namespace Markup

/-- Where markup is laid out from the document node on and fills the tree, the nodes of the tree are
those of the markup. -/
theorem LaidOut.data?_eq (h : t.Loaded) {piece : Markup} (hpiece : LaidOut t piece 0)
    (hsize : t.size = piece.size) (n : NodeId) : t.data? n = piece.nodes[n]? := by
  by_cases hn : n < piece.size
  · have hdata := hpiece.carries.data_subtree h.toWellFormed h.bareLeaves
    rw [hpiece.subtree_eq h.toWellFormed] at hdata
    have hplace := congrArg (·[n]?) hdata
    simp only [List.getElem?_map, List.getElem?_range' hn, Nat.zero_add, Nat.one_mul] at hplace
    obtain ⟨data, hget⟩ : ∃ data, piece.nodes[n]? = some data :=
      ⟨_, List.getElem?_eq_getElem hn⟩
    rw [hget] at hplace ⊢
    exact Option.some.inj hplace
  · have hle : t.size ≤ n := hsize ▸ Nat.not_lt.mp hn
    have hnone : t.data? n = none := by
      rw [Tree.data?, Array.getElem?_eq_none hle, Option.map_none]
    rw [hnone, List.getElem?_eq_none (Nat.not_lt.mp hn)]

/-- Markup without a document below its top becomes a tree that has its nodes in pre-order, and the
export of that tree is the markup again. -/
theorem build?_eq_ok (flavour : Flavour) {piece : Markup} (hpiece : .document ∉ piece.nodes.tail) :
    ∃ t, build? flavour piece = .ok t ∧ t.Loaded ∧ t.flavour = flavour ∧
      t.size = piece.underDocument.size ∧ LaidOut t piece.underDocument NodeId.document ∧
      t.documentOrder = List.range t.size ∧ t.markup? .document = .ok piece.underDocument := by
  rcases build?_outcome flavour piece with
    ⟨hdocument, -⟩ | ⟨-, t, ht, h, hflavour, hsize, hlaid⟩
  · exact absurd hdocument hpiece
  · refine ⟨t, ht, Tree.loaded_build? ht, hflavour, hsize, hlaid, ?_, ?_⟩
    · rw [h.documentOrder_eq, hlaid.subtree_eq h, hsize, List.range_eq_range']
    · exact (h.markup?_eq_ok_iff h.size_pos).mpr hlaid.carries

/-- A tree in which the export of another one is laid out, and which has no other nodes, is what
hangs from the document node of the other one. -/
theorem Carries.renumbered (h : t.WellFormed) (hleaves : t.BareLeaves) {piece : Markup}
    (hpiece : Carries t piece .document) (hlaid : LaidOut u piece NodeId.document)
    (hsize : u.size = piece.size) (horder : u.documentOrder = List.range u.size) :
    t.Renumbered u := by
  have hlength := hpiece.length_subtree h hleaves
  rw [← h.documentOrder_eq] at hlength
  -- The places in document order correspond to the nodes that stand there, one by one.
  have hplaces : List.Forall₂ (fun j c => t.documentOrder[j]? = some c)
      (List.range' 0 piece.size) t.documentOrder := by
    refine List.forall₂_iff_get.mpr ⟨List.length_range'.trans hlength.symm, fun i hi hi' => ?_⟩
    simp
  have htwins := hpiece.twins h hleaves hlaid (h.documentOrder_eq ▸ hplaces)
  rw [← h.documentOrder_eq] at htwins
  have hat : ∀ {k n}, t.documentOrder[k]? = some n →
      Twins (fun j c => t.documentOrder[j]? = some c) u t k n := by
    intro k n hk
    obtain ⟨hlt, rfl⟩ := List.getElem?_eq_some_iff.mp hk
    have hrange : k < (List.range' 0 piece.size).length := by
      rw [List.length_range', ← hlength]
      exact hlt
    have hk := htwins.get hrange hlt
    simpa using hk
  exact {
    mem_documentOrder := h.mem_documentOrder
    size_eq := hsize.trans hlength.symm
    documentOrder_eq := horder
    data? := fun hk => (hat hk).1
    children := fun hk => (hat hk).2 }

/-- Building and exporting are inverse. A document below the top of the markup, and nothing else,
keeps a tree from being built. Any other markup becomes a tree that has its nodes, under a document
node if the markup has none, numbered in pre-order from the document node on, and the export of that
tree is the markup again. The other way round, the export of a well-formed tree, in which node 0 is
the only document and nothing lies below texts and comments, builds the part of the tree that hangs
from the document node, numbered in document order. -/
theorem build_export_inverse :
    (∀ (flavour : Flavour) (piece : Markup),
      (build? flavour piece = .error .nestedDocument ↔ .document ∈ piece.nodes.tail) ∧
        (.document ∉ piece.nodes.tail →
          ∃ t, build? flavour piece = .ok t ∧ t.flavour = flavour ∧
            t.size = piece.underDocument.size ∧ t.documentOrder = List.range t.size ∧
            (∀ n, t.data? n = piece.underDocument.nodes[n]?) ∧
            t.markup? .document = .ok piece.underDocument)) ∧
      ∀ t : Tree, t.WellFormed → (∀ n, t.data? n = some .document → n = .document) →
        t.BareLeaves → ∀ flavour : Flavour,
          ∃ piece u, t.markup? .document = .ok piece ∧ build? flavour piece = .ok u ∧
            u.flavour = flavour ∧ t.Renumbered u := by
  refine ⟨fun flavour piece => ⟨⟨fun hfail => ?_, fun hdocument => ?_⟩, fun hpiece => ?_⟩, ?_⟩
  -- If building fails, the markup must have a document below the top.
  · by_contra hpiece
    obtain ⟨t, ht, -⟩ := build?_eq_ok flavour hpiece
    rw [ht] at hfail
    cases hfail
  -- The other way round, such markup is refused.
  · rcases build?_outcome flavour piece with ⟨-, hfail⟩ | ⟨hpiece, -⟩
    · exact hfail
    · exact absurd hdocument hpiece
  -- Any other markup becomes a tree, which is laid out as the markup says.
  · obtain ⟨t, ht, h, hflavour, hsize, hlaid, horder, hexport⟩ := build?_eq_ok flavour hpiece
    exact ⟨t, ht, hflavour, hsize, horder, hlaid.data?_eq h hsize, hexport⟩
  -- A tree exports markup without a document below the top, and building it numbers the tree again.
  · intro t h honly hleaves flavour
    obtain ⟨piece, hexport, hcarries, htop, hpiece⟩ := h.markup?_document honly
    obtain ⟨u, hu, -, hflavour, hsize, hlaid, horder, -⟩ := build?_eq_ok flavour hpiece
    rw [htop] at hsize hlaid
    exact ⟨piece, u, hexport, hu, hflavour, hcarries.renumbered h hleaves hlaid hsize horder⟩

/-- For one, a paragraph with a text in it; and a tree in which a division was made first and then
put into a paragraph, while a comment stands free. -/
theorem build_export_inverse_moved :
    .document ∉ (element "p" .empty [text "a"]).nodes.tail ∧
      (∃ t, build? .html (element "p" .empty [text "a"]) = .ok t ∧ t.size = 3 ∧
        t.markup? .document = .ok (document [element "p" .empty [text "a"]])) ∧
      let t := Edit.run (.empty .html) [.createElement "div" [], .createElement "p" [],
        .createComment "c", .append 0 2, .append 2 1]
      t.WellFormed ∧ (∀ n, t.data? n = some .document → n = .document) ∧ t.BareLeaves ∧
        t.documentOrder = [0, 2, 1] ∧
        ∃ piece u,
          t.markup? .document = .ok piece ∧ build? .xml piece = .ok u ∧ t.Renumbered u := by
  have hpiece : .document ∉ (element "p" .empty [text "a"]).nodes.tail := by
    simp [nodes, allNodes]
  -- The paragraph, and then the division that was put into a paragraph.
  refine ⟨hpiece, ?_, ?_⟩
  · obtain ⟨t, ht, -, hsize, -, -, hexport⟩ := (build_export_inverse.1 .html _).2 hpiece
    exact ⟨t, ht, hsize, hexport⟩
  · intro t
    have h : t.WellFormed := Edit.wellFormed_run (Tree.wellFormed_empty .html) _
    have honly : ∀ n, t.data? n = some .document → n = .document :=
      Tree.eq_document_of_lt_size (by decide)
    have hleaves : t.BareLeaves := Tree.bareLeaves_of_parents (by decide)
    obtain ⟨piece, u, hexport, hu, -, hren⟩ := build_export_inverse.2 t h honly hleaves .xml
    exact ⟨h, honly, hleaves, by decide, piece, u, hexport, hu, hren⟩

end Markup

end TreeQuery
