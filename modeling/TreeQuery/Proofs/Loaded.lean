import TreeQuery.Markup.Basic
import TreeQuery.Proofs.Operations

/-!
# Trees made of markup

A tree made of markup is well-formed, and more is known about it than about a tree that has been
edited: node 0 is its only document, and every other node hangs from node 0 or from an element
(`Tree.Loaded`, `Tree.loaded_build?`). Putting a piece of markup into a tree leaves what was there
before in place, which is the invariant of the recursion over the markup (`Tree.Grown`).
-/

namespace TreeQuery

/-- A chain of two steps succeeds if both do. -/
theorem bind_eq_ok_iff {ε α β : Type} {x : Except ε α} {f : α → Except ε β} {b : β} :
    x >>= f = .ok b ↔ ∃ a, x = .ok a ∧ f a = .ok b := by
  constructor
  · intro h
    cases x with
    | error e => cases h
    | ok a => exact ⟨a, rfl, h⟩
  · rintro ⟨a, rfl, h⟩
    exact h

namespace Tree

variable {t u w : Tree} {p : NodeId}

/-! ## The document node alone -/

/-- The document node alone has no links. -/
theorem bind_getElem?_empty {α : Type} {link : Node → Option α}
    (hlink : link { data := .document } = none) (flavour : Flavour) (n : NodeId) :
    (empty flavour).nodes[n]?.bind link = none := by
  cases n with
  | zero => exact hlink
  | succ n => rfl

/-- In an empty tree no node has children. -/
theorem children_empty (flavour : Flavour) (n : NodeId) : (empty flavour).children n = [] := by
  cases n with
  | zero => rfl
  | succ n => rfl

/-- The document node alone is a well-formed tree. -/
theorem wellFormed_empty (flavour : Flavour) : (empty flavour).WellFormed where
  document := rfl
  parent_document := rfl
  mem_children := by
    intro p c
    rw [children_empty, parent?, bind_getElem?_empty rfl]
    simp
  nodup_children p := by
    rw [children_empty]
    exact List.nodup_nil
  neighbours := by
    intro p n before after hsplit
    rw [children_empty] at hsplit
    simp at hsplit
  free _ := ⟨bind_getElem?_empty rfl flavour _, bind_getElem?_empty rfl flavour _⟩
  acyclic n hn := by
    obtain ⟨p, hp, -⟩ := above_iff.mp hn
    rw [parent?, bind_getElem?_empty rfl] at hp
    cases hp

/-! ## Trees that have grown -/

/-- `u` is `t` with new nodes, none of them a document, that hang from `p` or from one of them that
is an element. -/
structure Grown (t u : Tree) (p : NodeId) : Prop where
  /-- The kind of markup is the same. -/
  flavour : u.flavour = t.flavour
  /-- No node is lost. -/
  size_le : t.size ≤ u.size
  /-- The old nodes are what they were. -/
  data? : ∀ {n : NodeId}, n < t.size → u.data? n = t.data? n
  /-- The old nodes hang where they hung. -/
  parent? : ∀ {n : NodeId}, n < t.size → u.parent? n = t.parent? n
  /-- No new node is a document. -/
  ne_document : ∀ {n : NodeId}, t.size ≤ n → u.data? n ≠ some .document
  /-- The new nodes hang from `p` or from new elements. -/
  hangs : ∀ {n : NodeId}, t.size ≤ n → n < u.size →
    ∃ q, u.parent? n = some q ∧ (q = p ∨ t.size ≤ q ∧ u.isElement q = true)

/-- Whether a node is an element depends only on its data. -/
theorem isElement_congr {n : NodeId} (hdata : u.data? n = t.data? n) :
    u.isElement n = t.isElement n := by
  rw [isElement, isElement, element?, element?, hdata]

/-- An element is a node of the tree. -/
theorem lt_size_of_isElement {n : NodeId} (hn : t.isElement n = true) : n < t.size := by
  cases hdata : t.data? n with
  | none =>
    rw [isElement, element?, hdata] at hn
    cases hn
  | some data => exact lt_size_of_data? hdata

/-- A tree has grown out of itself. -/
theorem Grown.refl (t : Tree) (p : NodeId) : Grown t t p where
  flavour := rfl
  size_le := Nat.le_refl _
  data? _ := rfl
  parent? _ := rfl
  ne_document hn hdata := Nat.not_lt.mpr hn (lt_size_of_data? hdata)
  hangs hn hlt := absurd hlt (Nat.not_lt.mpr hn)

/-- What has grown out of a tree that has grown is grown. -/
theorem Grown.trans (htu : Grown t u p) (huw : Grown u w p) : Grown t w p where
  flavour := huw.flavour.trans htu.flavour
  size_le := Nat.le_trans htu.size_le huw.size_le
  data? hn := (huw.data? (Nat.lt_of_lt_of_le hn htu.size_le)).trans (htu.data? hn)
  parent? hn := (huw.parent? (Nat.lt_of_lt_of_le hn htu.size_le)).trans (htu.parent? hn)
  -- A node is new from the first tree on if it was new in the second or has come since.
  ne_document := by
    intro n hn
    by_cases hnu : n < u.size
    · rw [huw.data? hnu]
      exact htu.ne_document hn
    · exact huw.ne_document (Nat.not_lt.mp hnu)
  hangs := by
    intro n hn hnw
    -- A node of the second tree hangs where it hung there, and its parent is an element still.
    by_cases hnu : n < u.size
    · obtain ⟨q, hq, hp⟩ := htu.hangs hn hnu
      refine ⟨q, (huw.parent? hnu).trans hq, hp.imp_right fun ⟨hqt, helement⟩ => ⟨hqt, ?_⟩⟩
      rw [isElement_congr (huw.data? (lt_size_of_isElement helement))]
      exact helement
    · obtain ⟨q, hq, hp⟩ := huw.hangs (Nat.not_lt.mp hnu) hnw
      exact ⟨q, hq, hp.imp_right fun ⟨hqu, helement⟩ => ⟨Nat.le_trans htu.size_le hqu, helement⟩⟩

/-- A tree grows by one new node, what has grown under that node, and the link from `p` to it. -/
theorem Grown.append {data : NodeData} (hdata : data ≠ .document)
    (hdeep : Grown (t.alloc data).1 u t.size)
    (hleaf : u.isElement t.size = true ∨ u.size = t.size + 1) (hu : u.WellFormed)
    (hok : u.append p t.size = .ok w) : w.WellFormed ∧ Grown t w p := by
  have hnew : t.size < (t.alloc data).1.size := by
    rw [size_alloc]
    exact Nat.lt_succ_self _
  have hins := hu.insertable_of_append hok
  -- The new node was made free, and what has grown under it has not moved it.
  have hfree : u.parent? t.size = none := by
    rw [hdeep.parent? hnew, parent?_alloc]
    exact Option.eq_none_iff_forall_ne_some.mpr fun q hq =>
      Nat.lt_irrefl _ (lt_size_of_parent? hq)
  obtain ⟨v, hv, hput, hwf⟩ := hu.append_of_free hins hfree
  rw [hv, Except.ok.injEq] at hok
  subst hok
  have hsize : t.size < u.size := Nat.lt_of_lt_of_le hnew hdeep.size_le
  refine ⟨hwf, ?_⟩
  have hold : ∀ {n}, n < t.size → n < (t.alloc data).1.size := fun hn => Nat.lt_trans hn hnew
  exact {
    flavour := hput.flavour.trans hdeep.flavour
    size_le := hput.size ▸ Nat.le_of_lt hsize
    data? := by
      intro n hn
      rw [hput.data?, hdeep.data? (hold hn), data?_alloc, if_neg (Nat.ne_of_lt hn)]
    parent? := by
      intro n hn
      rw [hput.parent?, if_neg (Nat.ne_of_lt hn), hdeep.parent? (hold hn), parent?_alloc]
    ne_document := by
      intro n hn
      rw [hput.data?]
      rcases Nat.eq_or_lt_of_le hn with rfl | hn
      · rw [hdeep.data? hnew, data?_alloc, if_pos rfl]
        exact fun heq => hdata (Option.some.inj heq)
      · exact hdeep.ne_document (size_alloc t data ▸ hn)
    hangs := by
      intro n hn hlt
      rw [hput.parent?]
      rcases Nat.eq_or_lt_of_le hn with rfl | hn
      · exact ⟨p, if_pos rfl, .inl rfl⟩
      · rw [hput.size] at hlt
        rw [if_neg (Nat.ne_of_gt hn)]
        obtain ⟨q, hq, hqp⟩ := hdeep.hangs (size_alloc t data ▸ hn) hlt
        refine ⟨q, hq, .inr ?_⟩
        rw [isElement_congr (hput.data? q)]
        rcases hqp with rfl | ⟨hqt, helement⟩
        · -- The new node has a child, so it is not one without room for any.
          rcases hleaf with hleaf | hleaf
          · exact ⟨Nat.le_refl _, hleaf⟩
          · rw [hleaf] at hlt
            exact absurd hlt (Nat.not_lt.mpr hn)
        · rw [size_alloc] at hqt
          exact ⟨Nat.le_of_succ_le hqt, helement⟩ }

end Tree

namespace Markup

open TreeQuery.Tree

variable {t u : Tree} {p : NodeId}

/-- Putting in a node that has no children makes a tree grow. -/
theorem grown_append_alloc (h : t.WellFormed) {data : NodeData}
    (hdata : data ≠ .document) (hok : (t.alloc data).1.append p t.size = .ok u) :
    u.WellFormed ∧ Grown t u p :=
  Grown.append hdata (.refl _ _) (.inr (size_alloc t data)) (h.alloc data) hok

mutual

/-- Putting in a piece of markup makes a well-formed tree grow. -/
theorem grown_addTo? {t u : Tree} {p : NodeId} (h : t.WellFormed) :
    ∀ piece : Markup, addTo? t p piece = .ok u → u.WellFormed ∧ Grown t u p
  | .document _, hok => by
    rw [addTo?] at hok
    cases hok
  | .element tagName attributes children, hok => by
    rw [addTo?] at hok
    obtain ⟨v, hv, hok⟩ := bind_eq_ok_iff.mp hok
    obtain ⟨hwf, hdeep⟩ := grown_addAllTo? (h.alloc _) children hv
    -- The element is put under its parent after its children have been put under it.
    refine Grown.append (by simp) hdeep (.inl ?_) hwf hok
    rw [isElement, element?, hdeep.data? (size_alloc t _ ▸ Nat.lt_succ_self _), data?_alloc,
      if_pos rfl]
    rfl
  | .text content, hok => by
    rw [addTo?] at hok
    exact grown_append_alloc h (by simp) hok
  | .comment content, hok => by
    rw [addTo?] at hok
    exact grown_append_alloc h (by simp) hok

/-- Putting in pieces of markup makes a well-formed tree grow. -/
theorem grown_addAllTo? {t u : Tree} {p : NodeId} (h : t.WellFormed) :
    ∀ pieces : List Markup, addAllTo? t p pieces = .ok u → u.WellFormed ∧ Grown t u p
  | [], hok => by
    rw [addAllTo?] at hok
    obtain rfl := Except.ok.inj hok
    exact ⟨h, .refl t p⟩
  | piece :: pieces, hok => by
    rw [addAllTo?] at hok
    obtain ⟨v, hv, hok⟩ := bind_eq_ok_iff.mp hok
    obtain ⟨hvWf, htv⟩ := grown_addTo? h piece hv
    obtain ⟨huWf, hvu⟩ := grown_addAllTo? hvWf pieces hok
    exact ⟨huWf, htv.trans hvu⟩

end

end Markup

/-! ## Loaded trees -/

namespace Tree

variable {t : Tree}

/-- Node 0 is the only document of the tree, and every other node hangs from it or from an element.
-/
structure Loaded (t : Tree) : Prop extends t.WellFormed where
  /-- No other node is a document. -/
  eq_document : ∀ {n : NodeId}, t.data? n = some .document → n = .document
  /-- No other node stands free, and only elements have children. -/
  hangs : ∀ {n : NodeId}, n < t.size → n ≠ .document →
    ∃ p, t.parent? n = some p ∧ (p = .document ∨ t.isElement p = true)

/-- The tree of a piece of markup is loaded. -/
theorem loaded_build? {flavour : Flavour} {markup : Markup}
    (hok : Markup.build? flavour markup = .ok t) : t.Loaded := by
  obtain ⟨h, hgrown⟩ := Markup.grown_addAllTo? (wellFormed_empty flavour) markup.topLevel hok
  have hnew : ∀ {n : NodeId}, n ≠ .document → (empty flavour).size ≤ n := Nat.one_le_iff_ne_zero.mpr
  refine { h with eq_document := fun {n} hdata => ?_, hangs := fun {n} hn hne => ?_ }
  · by_contra hne
    exact hgrown.ne_document (hnew hne) hdata
  · obtain ⟨p, hp, hdocument⟩ := hgrown.hangs (hnew hne) hn
    exact ⟨p, hp, hdocument.imp_right (·.2)⟩

end Tree

end TreeQuery
