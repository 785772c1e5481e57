import TreeQuery.Proofs.Export

/-!
# Building a tree of markup

Building numbers the nodes of the markup in pre-order. `Markup.LaidOut` says what that means for the
links: a node is followed by its first child, and each child by its next sibling as soon as all that
lies below the child is past. Putting markup into a tree lays it out behind the nodes that are there
(`addTo?_outcome`), and fails exactly for a document below the top. In the built tree document order
is the order of the numbers (`LaidOut.subtree_eq`).
-/

namespace TreeQuery

/-- A chain of two steps fails where the first one does. -/
theorem bind_eq_error {ε α β : Type} {x : Except ε α} {f : α → Except ε β} {e : ε}
    (h : x = .error e) : x >>= f = .error e := by
  rw [h]
  rfl

variable {t u v : Tree} {p : NodeId}

namespace Markup

/-! ## Markup laid out in a tree -/

/-- The nodes at which pieces of markup start that are laid out one behind the other. -/
def starts : List Markup → Nat → List NodeId
  | [], _ => []
  | piece :: pieces, n => n :: starts pieces (n + piece.size)

mutual

/-- The nodes from `n` on are the nodes of a piece of markup in pre-order. -/
def LaidOut (t : Tree) : Markup → Nat → Prop
  | document children, n =>
    t.data? n = some .document ∧ t.children n = starts children (n + 1) ∧
      AllLaidOut t children (n + 1)
  | element tagName attributes children, n =>
    t.data? n = some (.element ⟨tagName, attributes⟩) ∧ t.children n = starts children (n + 1) ∧
      AllLaidOut t children (n + 1)
  | text content, n => t.data? n = some (.text content) ∧ t.children n = []
  | comment content, n => t.data? n = some (.comment content) ∧ t.children n = []

/-- The nodes from `n` on are the nodes of several pieces of markup, one piece after the other. -/
def AllLaidOut (t : Tree) : List Markup → Nat → Prop
  | [], _ => True
  | piece :: pieces, n => LaidOut t piece n ∧ AllLaidOut t pieces (n + piece.size)

end

/-- Every piece of markup has its own node at least. -/
theorem size_pos (piece : Markup) : 0 < piece.size := by
  cases piece with
  | _ => exact Nat.succ_pos _

mutual

/-- Markup stays laid out where its nodes keep their data and their children. -/
theorem LaidOut.congr : ∀ {piece : Markup} {n : Nat}, LaidOut t piece n →
    (∀ k : Nat, n ≤ k → k < n + piece.size → u.data? k = t.data? k ∧ u.children k = t.children k) →
      LaidOut u piece n
  -- The node itself is one of those that stay, and its children lie behind it.
  | .document children, n, ⟨hdata, hchildren, hbelow⟩, hsame => by
    obtain ⟨hd, hc⟩ := hsame n (Nat.le_refl n) (Nat.lt_add_of_pos_right (size_pos _))
    refine ⟨hd.trans hdata, hc.trans hchildren, hbelow.congr fun k hk hlt => ?_⟩
    exact hsame k (Nat.le_of_succ_le hk) (by rw [size_document]; omega)
  | .element tagName attributes children, n, ⟨hdata, hchildren, hbelow⟩, hsame => by
    obtain ⟨hd, hc⟩ := hsame n (Nat.le_refl n) (Nat.lt_add_of_pos_right (size_pos _))
    refine ⟨hd.trans hdata, hc.trans hchildren, hbelow.congr fun k hk hlt => ?_⟩
    exact hsame k (Nat.le_of_succ_le hk) (by rw [size_element]; omega)
  -- Character data and comments have no children, so only the node itself counts.
  | .text content, n, ⟨hdata, hchildren⟩, hsame => by
    obtain ⟨hd, hc⟩ := hsame n (Nat.le_refl n) (Nat.lt_add_of_pos_right (size_pos _))
    exact ⟨hd.trans hdata, hc.trans hchildren⟩
  | .comment content, n, ⟨hdata, hchildren⟩, hsame => by
    obtain ⟨hd, hc⟩ := hsame n (Nat.le_refl n) (Nat.lt_add_of_pos_right (size_pos _))
    exact ⟨hd.trans hdata, hc.trans hchildren⟩

/-- Pieces of markup stay laid out where their nodes keep their data and their children. -/
theorem AllLaidOut.congr : ∀ {pieces : List Markup} {n : Nat}, AllLaidOut t pieces n →
    (∀ k : Nat, n ≤ k → k < n + totalSize pieces →
      u.data? k = t.data? k ∧ u.children k = t.children k) → AllLaidOut u pieces n
  | [], _, _, _ => trivial
  | piece :: pieces, n, ⟨hpiece, hpieces⟩, hsame => by
    rw [totalSize_cons] at hsame
    refine ⟨hpiece.congr fun k hk hlt => hsame k hk (by omega), ?_⟩
    exact hpieces.congr fun k hk hlt => hsame k (by omega) (by omega)

end

mutual

/-- Where markup is laid out, its first node carries it. -/
theorem LaidOut.carries : ∀ {piece : Markup} {n : Nat}, LaidOut t piece n → Carries t piece n
  | .document _, _, ⟨hdata, hchildren, hbelow⟩ => ⟨hdata, hchildren ▸ hbelow.allCarry⟩
  | .element _ _ _, _, ⟨hdata, hchildren, hbelow⟩ => ⟨hdata, hchildren ▸ hbelow.allCarry⟩
  | .text _, _, ⟨hdata, _⟩ => hdata
  | .comment _, _, ⟨hdata, _⟩ => hdata

/-- Where pieces of markup are laid out, their first nodes carry them. -/
theorem AllLaidOut.allCarry : ∀ {pieces : List Markup} {n : Nat}, AllLaidOut t pieces n →
    AllCarry t pieces (starts pieces n)
  | [], _, _ => rfl
  | _ :: _, n, ⟨hpiece, hpieces⟩ => ⟨n, _, rfl, hpiece.carries, hpieces.allCarry⟩

end

mutual

/-- Where markup is laid out, the subtree of its first node has the nodes in the order of their
numbers. -/
theorem LaidOut.subtree_eq (h : t.WellFormed) : ∀ {piece : Markup} {n : Nat},
    LaidOut t piece n → t.subtree n = List.range' n piece.size
  | .document children, n, ⟨_, hchildren, hbelow⟩ => by
    rw [h.subtree_eq, hchildren, hbelow.subtrees_eq h, size_document, List.range'_succ]
  | .element tagName attributes children, n, ⟨_, hchildren, hbelow⟩ => by
    rw [h.subtree_eq, hchildren, hbelow.subtrees_eq h, size_element, List.range'_succ]
  | .text content, n, ⟨_, hchildren⟩ => by
    rw [h.subtree_eq, hchildren]
    rfl
  | .comment content, n, ⟨_, hchildren⟩ => by
    rw [h.subtree_eq, hchildren]
    rfl

/-- Where pieces of markup are laid out, the subtrees of their first nodes have the nodes in the
order of their numbers. -/
theorem AllLaidOut.subtrees_eq (h : t.WellFormed) : ∀ {pieces : List Markup} {n : Nat},
    AllLaidOut t pieces n →
      (starts pieces n).flatMap t.subtree = List.range' n (totalSize pieces)
  | [], _, _ => rfl
  | piece :: pieces, n, ⟨hpiece, hpieces⟩ => by
    rw [starts, List.flatMap_cons, hpiece.subtree_eq h, hpieces.subtrees_eq h, totalSize_cons,
      List.range'_append_1]

end

end Markup

/-! ## Putting markup into a tree -/

namespace Tree

/-- `u` is `t` with `count` new nodes, of which those listed in `new` come last under `p`. -/
structure Extended (t u : Tree) (p : NodeId) (new : List NodeId) (count : Nat) : Prop
    extends Grown t u p where
  /-- The tree has become larger by the new nodes. -/
  size_eq : u.size = t.size + count
  /-- The listed nodes are children of `p`, behind those that it had. -/
  children_self : u.children p = t.children p ++ new
  /-- The other old nodes have the children that they had. -/
  children : ∀ {n : NodeId}, n < t.size → n ≠ p → u.children n = t.children n

/-- A tree is an extension of itself by nothing. -/
theorem Extended.refl (t : Tree) (p : NodeId) : Extended t t p [] 0 :=
  { Grown.refl t p with
    size_eq := rfl
    children_self := (List.append_nil _).symm
    children := fun _ _ => rfl }

/-- A tree that is extended twice is extended by both lots of nodes. -/
theorem Extended.trans {new more : List NodeId} {count extra : Nat}
    (htu : Extended t u p new count) (huv : Extended u v p more extra) :
    Extended t v p (new ++ more) (count + extra) :=
  { htu.toGrown.trans huv.toGrown with
    size_eq := by rw [huv.size_eq, htu.size_eq, Nat.add_assoc]
    children_self := by rw [huv.children_self, htu.children_self, List.append_assoc]
    children := fun hn hne => by
      rw [huv.children (Nat.lt_of_lt_of_le hn htu.size_le) hne, htu.children hn hne] }

/-- What lies above an old node of a tree that has grown has lain above it before. -/
theorem Grown.above (h : t.WellFormed) (hu : Grown t u p) {a n : NodeId} (hn : n < t.size)
    (ha : u.Above a n) : t.Above a n := by
  induction ha with
  | single hparent =>
    rw [hu.parent? hn] at hparent
    exact .of_parent? hparent
  | tail _ hparent ih =>
    rw [hu.parent? hn] at hparent
    exact (ih (h.parent_lt_size hparent)).child hparent

/-- A new node may be put under an old one, whatever has grown below the new node. -/
theorem Grown.insertable (h : t.WellFormed) {data : NodeData} (hu : Grown (t.alloc data).1 u t.size)
    (hp : p < t.size) : u.Insertable p t.size := by
  have hnew : t.size < (t.alloc data).1.size := size_alloc t data ▸ Nat.lt_succ_self _
  have hlt : t.size < u.size := Nat.lt_of_lt_of_le hnew hu.size_le
  refine ⟨Nat.lt_trans hp hlt, hlt, Nat.ne_of_gt h.size_pos, Nat.ne_of_gt hp, fun ha => ?_⟩
  have habove := (hu.above (h.alloc data) (Nat.lt_trans hp hnew) ha).congr (parent?_alloc t data)
  exact Nat.lt_irrefl _ (h.above_lt_size habove)

/-- A new node is put under an old one, with all that has been put under the new node. -/
theorem Extended.append (h : t.WellFormed) {data : NodeData} (hdata : data ≠ .document)
    (hp : p < t.size) {new : List NodeId} {count : Nat}
    (hu : Extended (t.alloc data).1 u t.size new count) (huWf : u.WellFormed)
    (hleaf : u.isElement t.size = true ∨ u.size = t.size + 1) :
    ∃ v, u.append p t.size = .ok v ∧ v.WellFormed ∧ Extended t v p [t.size] (count + 1) ∧
      v.children t.size = new ∧ (∀ n, t.size < n → v.children n = u.children n) ∧
      ∀ n, v.data? n = u.data? n := by
  have hnew : t.size < (t.alloc data).1.size := size_alloc t data ▸ Nat.lt_succ_self _
  have hold : ∀ {n}, n < t.size → n < (t.alloc data).1.size := fun hn => Nat.lt_trans hn hnew
  have hfree : u.parent? t.size = none := by
    rw [hu.parent? hnew, parent?_alloc]
    exact Option.eq_none_iff_forall_ne_some.mpr fun q hq =>
      Nat.lt_irrefl _ (lt_size_of_parent? hq)
  obtain ⟨v, hv, hput, hwf⟩ := huWf.append_of_free (hu.toGrown.insertable h hp) hfree
  obtain ⟨-, hgrown⟩ := Grown.append hdata hu.toGrown hleaf huWf hv
  -- The lists of the old nodes are as before, but for the new node at the end of that of `p`.
  have hchildren : ∀ {n}, n < t.size → u.children n = t.children n := fun hn => by
    rw [hu.children (hold hn) (Nat.ne_of_lt hn), children_alloc]
  refine ⟨v, hv, hwf, ?_, ?_, ?_, hput.data?⟩
  · exact { hgrown with
      size_eq := by rw [hput.size, hu.size_eq, size_alloc, Nat.add_assoc, Nat.add_comm 1]
      children_self := by rw [hput.children, if_pos rfl, hchildren hp]
      children := fun hn hne => by rw [hput.children, if_neg hne, hchildren hn] }
  · rw [hput.children, if_neg (Nat.ne_of_gt hp), hu.children_self, children_alloc,
      children_eq_nil (Nat.le_refl _), List.nil_append]
  · exact fun n hn => by rw [hput.children, if_neg (Nat.ne_of_gt (Nat.lt_trans hp hn))]

end Tree

namespace Markup

open TreeQuery.Tree

/-- A node without children is put into a tree behind the nodes that are there. -/
theorem append_alloc_outcome (h : t.WellFormed) (hp : p < t.size) {data : NodeData}
    (hdata : data ≠ .document) :
    ∃ u, (t.alloc data).1.append p t.size = .ok u ∧ u.WellFormed ∧ Extended t u p [t.size] 1 ∧
      u.data? t.size = some data ∧ u.children t.size = [] := by
  obtain ⟨u, hu, hwf, hext, hchildren, -, hsame⟩ :=
    Extended.append h hdata hp (.refl _ _) (h.alloc data) (.inr (size_alloc t data))
  refine ⟨u, hu, hwf, hext, ?_, hchildren⟩
  rw [hsame, data?_alloc, if_pos rfl]

mutual

/-- Markup without a document in it is put into a tree behind the nodes that are there. A document
stops it, wherever in the markup it is. -/
theorem addTo?_outcome : ∀ (piece : Markup) {t : Tree} {p : NodeId}, t.WellFormed → p < t.size →
    .document ∈ piece.nodes ∧ addTo? t p piece = .error .nestedDocument ∨
      .document ∉ piece.nodes ∧ ∃ u, addTo? t p piece = .ok u ∧ u.WellFormed ∧
        Extended t u p [t.size] piece.size ∧ LaidOut u piece t.size
  | .document _, _, _, _, _ => .inl ⟨List.mem_cons_self, rfl⟩
  | .element tagName attributes children, t, p, h, hp => by
    have hmem : .document ∈ (element tagName attributes children).nodes ↔
        .document ∈ allNodes children := by
      rw [nodes, List.mem_cons, or_iff_right nofun]
    have hnew : t.size < (t.alloc (.element ⟨tagName, attributes⟩)).1.size :=
      size_alloc t _ ▸ Nat.lt_succ_self _
    rw [hmem, addTo?]
    -- The children go into the tree first, below a node that is still free.
    rcases addAllTo?_outcome children (h.alloc (.element ⟨tagName, attributes⟩)) hnew with
      ⟨hdocument, hfail⟩ | ⟨hdocument, v, hv, hvWf, hext, hlaid⟩
    · exact .inl ⟨hdocument, bind_eq_error hfail⟩
    · have hdata : v.data? t.size = some (.element ⟨tagName, attributes⟩) := by
        rw [hext.data? hnew, data?_alloc, if_pos rfl]
      have helement : v.isElement t.size = true := by
        rw [isElement, element?, hdata]
        rfl
      -- Then the node, with all that has been put below it, becomes the last child of its parent.
      obtain ⟨u, hu, hwf, hgrown, hchildren, hothers, hsame⟩ :=
        hext.append h (by simp) hp hvWf (.inl helement)
      rw [size_alloc] at hlaid hchildren
      refine .inr ⟨hdocument, u, ?_, hwf, hgrown, (hsame _).trans hdata, hchildren, ?_⟩
      · exact bind_eq_ok_iff.mpr ⟨v, hv, hu⟩
      · exact hlaid.congr fun k hk _ => ⟨hsame k, hothers k (Nat.lt_of_succ_le hk)⟩
  -- A leaf is put in as it is.
  | .text content, t, p, h, hp => by
    rw [addTo?]
    have hleaf : NodeData.text content ≠ .document := nofun
    obtain ⟨u, hu, hwf, hext, hdata, hchildren⟩ := append_alloc_outcome h hp hleaf
    exact .inr ⟨by simp [nodes], u, hu, hwf, hext, hdata, hchildren⟩
  | .comment content, t, p, h, hp => by
    rw [addTo?]
    have hleaf : NodeData.comment content ≠ .document := nofun
    obtain ⟨u, hu, hwf, hext, hdata, hchildren⟩ := append_alloc_outcome h hp hleaf
    exact .inr ⟨by simp [nodes], u, hu, hwf, hext, hdata, hchildren⟩

/-- Pieces of markup without a document in them are put into a tree behind the nodes that are there.
A document stops it, wherever in the markup it is. -/
theorem addAllTo?_outcome : ∀ (pieces : List Markup) {t : Tree} {p : NodeId}, t.WellFormed →
    p < t.size →
    .document ∈ allNodes pieces ∧ addAllTo? t p pieces = .error .nestedDocument ∨
      .document ∉ allNodes pieces ∧ ∃ u, addAllTo? t p pieces = .ok u ∧ u.WellFormed ∧
        Extended t u p (starts pieces t.size) (totalSize pieces) ∧ AllLaidOut u pieces t.size
  | [], t, p, h, _ => .inr ⟨List.not_mem_nil, t, rfl, h, .refl t p, trivial⟩
  | piece :: pieces, t, p, h, hp => by
    rw [allNodes, List.mem_append, addAllTo?]
    -- The first piece is put in, and then the others behind it.
    rcases addTo?_outcome piece h hp with ⟨hdocument, hfail⟩ |
      ⟨hdocument, v, hv, hvWf, hfirst, hlaid⟩
    · exact .inl ⟨.inl hdocument, bind_eq_error hfail⟩
    have hpv : p < v.size := Nat.lt_of_lt_of_le hp hfirst.size_le
    rcases addAllTo?_outcome pieces hvWf hpv with ⟨hmore, hfail⟩ | ⟨hmore, u, hu, huWf, hrest, hall⟩
    · exact .inl ⟨.inr hmore, by rw [hv]; exact hfail⟩
    · rw [hfirst.size_eq] at hrest hall
      have hok : (addTo? t p piece >>= fun w => addAllTo? w p pieces) = .ok u :=
        bind_eq_ok_iff.mpr ⟨v, hv, hu⟩
      refine .inr ⟨not_or.mpr ⟨hdocument, hmore⟩, u, hok, huWf, ?_, ?_, hall⟩
      · rw [totalSize_cons]
        exact hfirst.trans hrest
      · -- What has been laid out first is not touched any more.
        refine hlaid.congr fun k hk hlt => ?_
        rw [← hfirst.size_eq] at hlt
        exact ⟨hrest.data? hlt, hrest.children hlt (Nat.ne_of_gt (Nat.lt_of_lt_of_le hp hk))⟩

end

/-! ## Building -/

/-- The markup with a document on top of it, if it has none. -/
def underDocument : Markup → Markup
  | document children => document children
  | piece => document [piece]

/-- As markup of the document node, a piece of markup has what it puts at the top. -/
theorem underDocument_eq (piece : Markup) : piece.underDocument = document piece.topLevel := by
  cases piece with
  | _ => rfl

/-- A document stands below the top of the markup exactly if there is one in what the markup puts
under the document node. -/
theorem mem_tail_nodes_iff (piece : Markup) :
    .document ∈ piece.nodes.tail ↔ .document ∈ allNodes piece.topLevel := by
  cases piece with
  | document children => rfl
  | element tagName attributes children => simp [topLevel, allNodes, nodes]
  | text content => simp [topLevel, allNodes, nodes]
  | comment content => simp [topLevel, allNodes, nodes]

/-- Building fails for a document below the top of the markup, and lays out any other markup from
the document node on. -/
theorem build?_outcome (flavour : Flavour) (piece : Markup) :
    .document ∈ piece.nodes.tail ∧ build? flavour piece = .error .nestedDocument ∨
      .document ∉ piece.nodes.tail ∧ ∃ t, build? flavour piece = .ok t ∧ t.WellFormed ∧
        t.flavour = flavour ∧ t.size = piece.underDocument.size ∧
        LaidOut t piece.underDocument NodeId.document := by
  rw [mem_tail_nodes_iff, underDocument_eq]
  have hp : NodeId.document < (Tree.empty flavour).size := Nat.succ_pos _
  -- Building puts what is at the top under the document node of an empty tree.
  rcases addAllTo?_outcome piece.topLevel (wellFormed_empty flavour) hp with
    hfail | ⟨hdocument, t, ht, hwf, hext, hlaid⟩
  · exact .inl hfail
  -- The empty tree has that node alone, so the pieces start right behind it.
  · refine .inr ⟨hdocument, t, ht, hwf, hext.flavour, ?_, hwf.document, ?_, hlaid⟩
    · rw [hext.size_eq, size_document, Nat.add_comm]
      rfl
    · rw [hext.children_self, children_empty, List.nil_append]
      rfl

end Markup

end TreeQuery
