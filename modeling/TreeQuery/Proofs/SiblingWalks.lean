import TreeQuery.Proofs.Evaluation
import TreeQuery.Proofs.Pointwise
import TreeQuery.Proofs.Reachable
import TreeQuery.Proofs.SiblingTests
import TreeQuery.Selection

/-!
# Walks among siblings

The walks to the element siblings of a node follow links from neighbour to neighbour and skip what
is no element. In a well-formed tree they go through the element children of the parent: those in
front of the node backwards, and those behind it forwards (`elementChildren_eq`), and the other way
round, any cut of that list at a node says what its walks meet (`elements_beside`). So one step
forwards and one step backwards undo each other, as both say that two elements stand next to each
other in such a list (`nextElement?_iff`, `previousElement?_iff`), and what is asked of the walks is
asked of the place in the list. `sibling_walks_exact` puts this together with what a selection and
the pseudo-classes do with the walks.
-/

namespace TreeQuery

namespace Tree

variable {t : Tree} {n m p : NodeId} {front back : List NodeId}

/-! ## The walks and the list -/

/-- A node without a parent has no siblings before it. -/
theorem WellFormed.precedingSiblings_of_free (h : t.WellFormed) (hn : t.parent? n = none) :
    t.precedingSiblings n = [] := by
  unfold precedingSiblings
  rw [(h.free hn).1, chase_none]

/-- The nearest element before a node is the first one that the walk backwards meets. -/
theorem head?_precedingElements (t : Tree) (n : NodeId) :
    (t.precedingElements n).head? = t.previousElement? n :=
  List.head?_filter

/-- The nearest element after a node is the first one that the walk forwards meets. -/
theorem head?_followingElements (t : Tree) (n : NodeId) :
    (t.followingElements n).head? = t.nextElement? n :=
  List.head?_filter

/-- The element children of a node are its children that are elements. -/
theorem mem_elementChildren : n ∈ t.elementChildren p ↔ n ∈ t.children p ∧ t.isElement n = true :=
  List.mem_filter

/-- No node is twice among the element children of a node. -/
theorem WellFormed.nodup_elementChildren (h : t.WellFormed) (p : NodeId) :
    (t.elementChildren p).Nodup :=
  (h.nodup_children p).filter _

/-- The element children are what the walk backwards from one of them meets, in the reverse order,
then that one, and then what the walk forwards meets. -/
theorem WellFormed.elementChildren_eq (h : t.WellFormed) (hn : t.isElement n = true)
    (hp : t.parent? n = some p) :
    (t.precedingElements n).reverse ++ n :: t.followingElements n = t.elementChildren p := by
  obtain ⟨before, after, hsplit, -⟩ := h.exists_split hp
  rw [precedingElements, followingElements, h.precedingSiblings_eq hsplit,
    h.followingSiblings_eq hsplit, List.filter_reverse, List.reverse_reverse, elementChildren,
    hsplit, List.filter_append, List.filter_cons_of_pos hn]

/-- Where the element children are cut at one of them, the walks from there meet what stands before
and after it. -/
theorem WellFormed.elements_beside (h : t.WellFormed)
    (hsplit : t.elementChildren p = front ++ n :: back) :
    t.precedingElements n = front.reverse ∧ t.followingElements n = back := by
  have hmem : n ∈ t.elementChildren p := by
    rw [hsplit]
    exact List.mem_append_right front List.mem_cons_self
  obtain ⟨hchild, hn⟩ := mem_elementChildren.mp hmem
  have hlist := h.elementChildren_eq hn (h.mem_children.mp hchild)
  -- The node is in the list once, so the list is cut at one place.
  have hnodup := h.nodup_elementChildren p
  rw [← hlist] at hnodup
  have hfront := (List.nodup_middle.mp hnodup).notMem
  rw [List.mem_append, not_or] at hfront
  rw [hsplit, List.append_cons_inj_of_notMem hfront.1 hfront.2] at hlist
  exact ⟨by rw [← hlist.1, List.reverse_reverse], hlist.2.2⟩

/-! ## Steps to and fro -/

/-- Two elements stand next to each other among the element children of some node. -/
def Adjacent (t : Tree) (n m : NodeId) : Prop :=
  ∃ p front back, t.elementChildren p = front ++ n :: m :: back

/-- What stands next to an element is an element. -/
theorem Adjacent.isElement (h : t.Adjacent n m) :
    t.isElement n = true ∧ t.isElement m = true := by
  obtain ⟨p, front, back, hsplit⟩ := h
  have hmem : ∀ k ∈ n :: m :: back, t.isElement k = true := by
    intro k hk
    have hchild : k ∈ t.elementChildren p := by
      rw [hsplit]
      exact List.mem_append_right front hk
    exact (mem_elementChildren.mp hchild).2
  exact ⟨hmem n List.mem_cons_self, hmem m (List.mem_cons_of_mem _ List.mem_cons_self)⟩

/-- The step forwards leads from an element to the one that stands next to it. -/
theorem WellFormed.nextElement?_iff (h : t.WellFormed) (hn : t.isElement n = true) :
    t.nextElement? n = some m ↔ t.Adjacent n m := by
  rw [← head?_followingElements]
  constructor
  · intro hnext
    obtain ⟨back, hback⟩ := List.head?_eq_some_iff.mp hnext
    cases hp : t.parent? n with
    | none =>
      rw [followingElements, h.followingSiblings_of_free hp] at hback
      cases hback
    | some p => exact ⟨p, _, back, hback ▸ (h.elementChildren_eq hn hp).symm⟩
  · rintro ⟨p, front, back, hsplit⟩
    rw [(h.elements_beside hsplit).2]
    rfl

/-- The step backwards leads to an element from the one that stands next to it. -/
theorem WellFormed.previousElement?_iff (h : t.WellFormed) (hm : t.isElement m = true) :
    t.previousElement? m = some n ↔ t.Adjacent n m := by
  rw [← head?_precedingElements]
  constructor
  -- The first element met backwards is the last one in front of the node.
  · intro hprevious
    obtain ⟨front, hfront⟩ := List.head?_eq_some_iff.mp hprevious
    cases hp : t.parent? m with
    | none =>
      rw [precedingElements, h.precedingSiblings_of_free hp] at hfront
      cases hfront
    | some p =>
      refine ⟨p, front.reverse, t.followingElements m, ?_⟩
      rw [← h.elementChildren_eq hm hp, hfront, List.reverse_cons, List.append_assoc]
      rfl
  -- The other way round, the walk backwards starts with the neighbour.
  · rintro ⟨p, front, back, hsplit⟩
    have hcut : t.elementChildren p = (front ++ [n]) ++ m :: back := by
      rw [hsplit, List.append_assoc, List.singleton_append]
    rw [(h.elements_beside hcut).1, List.reverse_append]
    rfl

/-! ## The place among the elements -/

/-- As many elements stand before an element as its place says. -/
theorem WellFormed.length_precedingElements (h : t.WellFormed) (hn : t.isElement n = true)
    (hp : t.parent? n = some p) :
    (t.precedingElements n).length = (t.elementChildren p).idxOf n := by
  have hlist := h.elementChildren_eq hn hp
  have hnodup := h.nodup_elementChildren p
  rw [← hlist] at hnodup ⊢
  have hfront := (List.nodup_middle.mp hnodup).notMem
  rw [List.mem_append, not_or] at hfront
  rw [List.idxOf_append_of_notMem hfront.1, List.idxOf_cons_self, List.length_reverse, Nat.add_zero]

/-- The walks from an element meet the element children before its place, nearest first, and those
behind it. -/
theorem WellFormed.elements_at_place (h : t.WellFormed) (hn : t.isElement n = true)
    (hp : t.parent? n = some p) :
    t.precedingElements n = ((t.elementChildren p).take ((t.elementChildren p).idxOf n)).reverse ∧
      t.followingElements n = (t.elementChildren p).drop ((t.elementChildren p).idxOf n + 1) := by
  have hlength : (t.precedingElements n).reverse.length = (t.elementChildren p).idxOf n :=
    List.length_reverse.trans (h.length_precedingElements hn hp)
  rw [← hlength, ← h.elementChildren_eq hn hp]
  refine ⟨?_, ?_⟩
  · rw [List.take_left, List.reverse_reverse]
  · rw [List.drop_append, List.drop_eq_nil_of_le (Nat.le_succ _), Nat.add_sub_cancel_left]
    rfl

/-- The element children of a parent are those before one of them, that one, and those behind it. -/
theorem WellFormed.length_elementChildren (h : t.WellFormed) (hn : t.isElement n = true)
    (hp : t.parent? n = some p) :
    (t.elementChildren p).length =
      (t.elementChildren p).idxOf n + 1 + (t.followingElements n).length := by
  have hlength := congrArg List.length (h.elementChildren_eq hn hp)
  rw [List.length_append, List.length_cons, List.length_reverse,
    h.length_precedingElements hn hp] at hlength
  omega

end Tree

/-! ## Selections and pseudo-classes -/

/-- The siblings of one node are those before it, nearest first, and then those behind it. -/
theorem Selection.siblings_singleton {s : Session} (h : s.tree.WellFormed) {n p : NodeId}
    (hn : s.tree.isElement n = true) (hp : s.tree.parent? n = some p) (settings : Settings)
    {selection : Selection} (hnodes : selection.nodes = [n]) :
    selection.siblings settings none s = .ok (selection.derive
      (s.tree.precedingElements n ++ s.tree.followingElements n)) s := by
  have hnodup : (s.tree.precedingElements n ++ s.tree.followingElements n).Nodup := by
    have hlist := h.nodup_elementChildren p
    rw [← h.elementChildren_eq hn hp, List.nodup_middle, List.nodup_cons] at hlist
    obtain ⟨hfront, hback, hmeet⟩ := List.nodup_append.mp hlist.2
    refine List.nodup_append.mpr ⟨List.nodup_reverse.mp hfront, hback, fun a ha => ?_⟩
    exact hmeet a (List.mem_reverse.mpr ha)
  have hrun : selection.siblings settings none s = .ok (selection.derive (NodeSet.ofList
      (selection.nodes.flatMap s.tree.precedingElements ++
        selection.nodes.flatMap s.tree.followingElements)).nodes) s := rfl
  rw [hrun, hnodes, List.flatMap_singleton, List.flatMap_singleton, NodeSet.nodes_ofList hnodup]

namespace Query

variable {settings : Settings} {s : Session} {name : String} {argument : Option String}
  {n p : NodeId} {condition condition' : Prop}

/-- In a session, a pseudo-class gives a list for every list, and a node of that list is in it under
exactly that condition. -/
def PassesIff (settings : Settings) (s : Session) (name : String) (argument : Option String)
    (n : NodeId) (condition : Prop) : Prop :=
  ∀ nodes, ∃ kept, narrow settings name argument nodes s = .ok kept s ∧
    (n ∈ kept ↔ n ∈ nodes ∧ condition)

/-- A filter that leaves the session alone keeps a node exactly if it passes the test. -/
theorem passesIff_of_filter {test : Tree → NodeId → Bool}
    (hnarrow : ∀ nodes, narrow settings name argument nodes = do
      let t ← tree
      return nodes.filter (test t))
    (hcondition : test s.tree n = true ↔ condition) :
    PassesIff settings s name argument n condition := by
  refine fun nodes => ⟨nodes.filter (test s.tree), ?_, ?_⟩
  · rw [hnarrow]
    rfl
  · rw [List.mem_filter, hcondition]

/-- A well-formed argument of `:nth-child` is not blank, and the nodes at its positions are kept. -/
theorem narrow_nthChild {progression : Progression}
    (hargument : Progression.parse? (PseudoClass.argumentOf argument) = some progression)
    (settings : Settings) (nodes : List NodeId) :
    narrow settings "nth-child" argument nodes = do
      let t ← tree
      return nodes.filter (PseudoClass.isNthChild t progression) := by
  have hname : PseudoClass.ofName? "nth-child" = some .nthChild := rfl
  have hnonblank : (Text.trim (PseudoClass.argumentOf argument)).isEmpty = false := by
    -- Of a blank argument nothing is left to read.
    have hbare := Text.filter_trim (p := fun c => !Text.isBlank c)
      (fun c hc => by rw [hc, Bool.not_true]) (PseudoClass.argumentOf argument)
    rw [Bool.eq_false_iff]
    intro hempty
    rw [Progression.parse?, ← hbare, List.isEmpty_iff.mp hempty] at hargument
    cases hargument
  rw [narrow, hname]
  simp only [keepNthChild, hnonblank, hargument, Bool.false_eq_true, if_false]

section Places

variable (h : s.tree.WellFormed) (hn : s.tree.isElement n = true)
  (hp : s.tree.parent? n = some p)
include h hn hp

/-- An element has an element before it unless it is the first one. -/
theorem isNone_previousElement? :
    (s.tree.previousElement? n).isNone = true ↔ (s.tree.elementChildren p).idxOf n + 1 = 1 := by
  rw [← Tree.head?_precedingElements, Option.isNone_iff_eq_none, List.head?_eq_none_iff,
    ← List.length_eq_zero_iff, h.length_precedingElements hn hp]
  omega

/-- An element has an element behind it unless it is the last one. -/
theorem isNone_nextElement? :
    (s.tree.nextElement? n).isNone = true ↔
      (s.tree.elementChildren p).idxOf n + 1 = (s.tree.elementChildren p).length := by
  have hlength := h.length_elementChildren hn hp
  rw [← Tree.head?_followingElements, Option.isNone_iff_eq_none, List.head?_eq_none_iff,
    ← List.length_eq_zero_iff]
  omega

end Places

/-- **Walks among siblings.** Let an element be the child number `i` of its parent among those that
are elements, counted from 1. The elements before it, in the order of the list, it itself, and the
elements behind it are the element children of the parent. The steps to the next and to the previous
element undo each other. The siblings that a selection of the element alone goes on to are the
element children in front of it, nearest first, and then those behind it. `:first-child` keeps it if
`i` is 1, `:last-child` if `i` is the number of the element children, `:only-child` if that number
is 1, and `:nth-child` if `i`, as a number of 64 bits, is a position of the progression that its
argument writes. -/
theorem sibling_walks_exact {t : Tree} (h : t.WellFormed) {n p : NodeId}
    (hn : t.isElement n = true) (hp : t.parent? n = some p) :
    (t.precedingElements n).reverse ++ n :: t.followingElements n = t.elementChildren p ∧
      (∀ m, (t.nextElement? n = some m ↔
          t.isElement m = true ∧ t.previousElement? m = some n) ∧
        (t.previousElement? n = some m ↔
          t.isElement m = true ∧ t.nextElement? m = some n)) ∧
      ∀ i, (t.elementChildren p).idxOf n + 1 = i →
        ∀ (settings : Settings) (s : Session), s.tree = t →
          (∀ selection : Selection, selection.nodes = [n] →
            selection.siblings settings none s = .ok (selection.derive
              (((t.elementChildren p).take (i - 1)).reverse ++ (t.elementChildren p).drop i)) s) ∧
          ∀ argument, PassesIff settings s "first-child" argument n (i = 1) ∧
            PassesIff settings s "last-child" argument n (i = (t.elementChildren p).length) ∧
            PassesIff settings s "only-child" argument n ((t.elementChildren p).length = 1) ∧
            ∀ progression,
              Progression.parse? (PseudoClass.argumentOf argument) = some progression →
                PassesIff settings s "nth-child" argument n
                  (progression.contains (Int64.ofNat i) = true) := by
  refine ⟨h.elementChildren_eq hn hp, fun m => ⟨?_, ?_⟩, ?_⟩
  -- The two steps undo each other, since both lead to a neighbour in the list.
  · rw [h.nextElement?_iff hn]
    exact ⟨fun hm => ⟨hm.isElement.2, (h.previousElement?_iff hm.isElement.2).mpr hm⟩,
      fun ⟨hm, hprevious⟩ => (h.previousElement?_iff hm).mp hprevious⟩
  · rw [h.previousElement?_iff hn]
    exact ⟨fun hm => ⟨hm.isElement.1, (h.nextElement?_iff hm.isElement.1).mpr hm⟩,
      fun ⟨hm, hnext⟩ => (h.nextElement?_iff hm).mp hnext⟩
  rintro i rfl settings s rfl
  have hfirst := isNone_previousElement? h hn hp
  have hlast := isNone_nextElement? h hn hp
  refine ⟨fun selection hnodes => ?_, fun argument => ⟨?_, ?_, ?_, fun progression hargument => ?_⟩⟩
  -- The siblings of the node alone are the elements on both sides of its place.
  · obtain ⟨hfront, hback⟩ := h.elements_at_place hn hp
    rw [Selection.siblings_singleton h hn hp settings hnodes, hfront, hback, Nat.add_sub_cancel]
  -- Each of the four pseudo-classes asks for a part of the list to be empty, or for the place.
  · have hname : PseudoClass.ofName? "first-child" = some .firstChild := rfl
    refine passesIff_of_filter (narrow_of_single hname rfl settings argument) ?_
    rw [PseudoClass.holds, hn, Bool.true_and, hfirst]
  · have hname : PseudoClass.ofName? "last-child" = some .lastChild := rfl
    refine passesIff_of_filter (narrow_of_single hname rfl settings argument) ?_
    rw [PseudoClass.holds, hn, Bool.true_and, hlast]
  · have hname : PseudoClass.ofName? "only-child" = some .onlyChild := rfl
    refine passesIff_of_filter (narrow_of_single hname rfl settings argument) ?_
    have hlength := h.length_elementChildren hn hp
    rw [PseudoClass.holds, hn, Bool.true_and, Bool.and_eq_true, hfirst, hlast]
    omega
  · refine passesIff_of_filter (narrow_nthChild hargument settings) ?_
    rw [PseudoClass.isNthChild, hn, Bool.true_and, PseudoClass.placeAmongElements,
      h.length_precedingElements hn hp]

/-- For one, the second of three items with white space and a comment between them. -/
theorem sibling_walks_exact_items :
    let t := Edit.run (.empty .html)
      [.createElement "ul" [], .createElement "li" [], .createText " ", .createElement "li" [],
        .createComment "last", .createElement "li" [], .append 0 1, .append 1 2, .append 1 3,
        .append 1 4, .append 1 5, .append 1 6]
    (t.WellFormed ∧ t.isElement 4 = true ∧ t.parent? 4 = some 1 ∧
        t.elementChildren 1 = [2, 4, 6]) ∧
      (t.precedingElements 4).reverse ++ 4 :: t.followingElements 4 = [2, 4, 6] ∧
      (t.nextElement? 4 = some 6 ∧ t.previousElement? 6 = some 4) ∧
      (Selection.start [4]).siblings .default none { tree := t } =
        .ok (.derived [2, 6] [4] (.start [4])) { tree := t } ∧
      PassesIff .default { tree := t } "only-child" none 4 False ∧
      (Progression.parse? (PseudoClass.argumentOf (some " '3n-1'")) = some ⟨3, -1⟩ ∧
        PassesIff .default { tree := t } "nth-child" (some " '3n-1'") 4 True) := by
  intro t
  -- The place of the item is 2, and what is claimed is read off there.
  have h : t.WellFormed := Edit.wellFormed_run (Tree.wellFormed_empty .html) _
  have hn : t.isElement 4 = true := by decide +kernel
  have hp : t.parent? 4 = some 1 := by decide +kernel
  have hchildren : t.elementChildren 1 = [2, 4, 6] := by decide +kernel
  have hnext : t.nextElement? 4 = some 6 := by decide +kernel
  have hargument : Progression.parse? (PseudoClass.argumentOf (some " '3n-1'")) = some ⟨3, -1⟩ := by
    decide +kernel
  obtain ⟨hlist, hsteps, hplace⟩ := sibling_walks_exact h hn hp
  rw [hchildren] at hlist hplace
  obtain ⟨hsiblings, htests⟩ := hplace 2 rfl .default { tree := t } rfl
  have honly := (htests none).2.2.1
  have hnth := (htests (some " '3n-1'")).2.2.2 _ hargument
  have hthree : ([2, 4, 6] : List NodeId).length = 1 ↔ False := by decide
  have hposition : Progression.contains ⟨3, -1⟩ (Int64.ofNat 2) = true ↔ True := by decide
  exact ⟨⟨h, hn, hp, hchildren⟩, hlist, ⟨hnext, ((hsteps 6).1.mp hnext).2⟩, hsiblings _ rfl,
    propext hthree ▸ honly, hargument, propext hposition ▸ hnth⟩

end Query

end TreeQuery
