import TreeQuery.Proofs.Evaluation
import TreeQuery.Proofs.Reachable

/-!
# The order of what a path finds

What a path finds has no node twice, and after a step from several nodes it is put in document
order. A step from one node is not followed by that, and a step along `descendant` lists what it
finds parent by parent: the children of a node all come before what its first child has below it.
`evaluate_inOrder_iff` says exactly when the nodes found are in document order all the same.
-/

namespace TreeQuery.Tree

variable {t : Tree}

/-! ## A step from several nodes -/

/-- Attached nodes are put in document order. -/
theorem WellFormed.inOrder_sortNodes (h : t.WellFormed) {nodes : List NodeId}
    (hattached : ∀ n ∈ nodes, t.Attached n) : t.InOrder (t.sortNodes nodes) := by
  have hnone : (nodes.filter fun n => !t.documentOrder.contains n) = [] := by
    refine List.filter_eq_nil_iff.mpr fun n hn hnot => ?_
    exact not_contains_iff.mp hnot (h.mem_documentOrder.mpr (hattached n hn))
  rw [sortNodes, hnone, List.append_nil]
  exact h.inOrder_of_sublist List.filter_sublist

/-- Unless it starts from one node, a step gives the nodes in document order. -/
theorem WellFormed.inOrder_selectFrom (h : t.WellFormed) {step : Step} {nodes : List NodeId}
    (hnodes : ∀ n ∈ nodes, t.Attached n) (hlength : nodes.length ≠ 1) :
    t.InOrder (t.selectFrom step nodes) := by
  have hattached : ∀ m ∈ t.selectFrom step nodes, t.Attached m := h.attached_selectFrom hnodes
  rw [selectFrom] at hattached ⊢
  split_ifs at hattached ⊢ with hmany
  · exact h.inOrder_sortNodes fun n hn => hattached n (mem_sortNodes.mpr hn)
  · rw [Bool.and_eq_true, decide_eq_true_iff, decide_eq_true_iff, not_and_or] at hmany
    refine inOrder_of_length_le ?_
    rcases hmany with hmany | hmany
    · have hnil : nodes = [] := List.eq_nil_of_length_eq_zero (by omega)
      rw [hnil]
      exact Nat.zero_le _
    · exact Nat.not_lt.mp hmany

/-! ## A step along `descendant` -/

/-- Some node of a list lies below an earlier sibling of another node of the list. -/
def Crossed (t : Tree) (nodes : List NodeId) : Prop :=
  ∃ x ∈ nodes, ∃ y ∈ nodes, ∃ z ∈ t.precedingSiblings x, t.Above z y

/-- A node below an earlier sibling comes first in document order. -/
theorem WellFormed.place_lt_of_precedingSibling (h : t.WellFormed) {x y z : NodeId}
    (hx : t.Attached x) (hz : z ∈ t.precedingSiblings x) (hzy : t.Above z y) :
    t.place y < t.place x := by
  obtain ⟨p, hzx⟩ := h.mem_precedingSiblings.mp hz
  have hchild : x ∈ t.children p := hzx.subset (List.mem_cons_of_mem _ List.mem_cons_self)
  have hp : t.Attached p := h.attached_parent hx (h.mem_children.mp hchild)
  exact h.place_lt hp (h.pair_of_children hzx (h.mem_subtree.mpr (.inr hzy)) (h.mem_subtree_self x))

/-- Children of two nodes of a subtree, the first listed before the second, are in document order
unless the second lies below an earlier sibling of the first. -/
theorem WellFormed.place_lt_of_parents (h : t.WellFormed) {a p q x y : NodeId}
    (ha : t.Attached a) (hpq : [p, q].Sublist (t.subtree a)) (hx : x ∈ t.children p)
    (hy : y ∈ t.children q) (hnot : ∀ z ∈ t.precedingSiblings x, ¬ t.Above z y) :
    t.place x < t.place y := by
  have hpa : p ∈ t.subtree a := hpq.subset List.mem_cons_self
  have hxp := Above.of_parent? (h.mem_children.mp hx)
  have hyq := Above.of_parent? (h.mem_children.mp hy)
  by_cases hq : q ∈ t.subtree p
  · -- The second parent lies below a child `z` of the first.
    have hpq := (h.mem_subtree.mp hq).resolve_left (ne_of_pair (h.nodup_subtree a) hpq).symm
    obtain ⟨z, hz, hqz⟩ := (above_iff_child h).mp hpq
    have hzy : t.Above z y := by
      rcases hqz with rfl | hzq
      · exact hyq
      · exact hzq.trans hyq
    have hp : t.Attached p := h.attached_subtree ha hpa
    -- Either `x` is `z`, or it comes before `z`, or `z` is an earlier sibling of it.
    by_cases hzx : x = z
    · subst hzx
      exact h.place_lt (h.attached_child hp hx) (h.pair_of_above hzy)
    · rcases pair_total hx hz hzx with hxz | hzx
      · exact h.place_lt hp (h.pair_of_children hxz (h.mem_subtree_self x)
          (h.mem_subtree.mpr (.inr hzy)))
      · exact absurd hzy (hnot z (h.mem_precedingSiblings.mpr ⟨p, hzx⟩))
  · exact h.place_lt ha (h.pair_of_pair hpq hq (h.mem_subtree.mpr (.inr hxp))
      (h.mem_subtree.mpr (.inr hyq)))

/-- The parent of a node that lies below an earlier sibling of another lies below the parent of the
other. -/
theorem WellFormed.above_parents (h : t.WellFormed) {p q x y z : NodeId}
    (hz : z ∈ t.precedingSiblings x) (hzy : t.Above z y) (hx : t.parent? x = some p)
    (hy : t.parent? y = some q) : t.Above p q := by
  obtain ⟨r, hzx⟩ := h.mem_precedingSiblings.mp hz
  have hr := h.mem_children.mp (hzx.subset (List.mem_cons_of_mem _ List.mem_cons_self))
  obtain rfl := Option.some.inj (hx.symm.trans hr)
  have hpz := Above.of_parent? (h.mem_children.mp (hzx.subset List.mem_cons_self))
  obtain ⟨r, hr, hzr⟩ := above_iff.mp hzy
  obtain rfl := Option.some.inj (hy.symm.trans hr)
  rcases hzr with rfl | hzq
  · exact hpz
  · exact hpz.trans hzq

/-- A step along `descendant` from an attached node gives the nodes in document order exactly if
none of them lies below an earlier sibling of another. -/
theorem WellFormed.inOrder_select_descendant (h : t.WellFormed) {step : Step} {a : NodeId}
    (ha : t.Attached a) (haxis : step.axis = .descendant) :
    t.InOrder (t.select step a) ↔ ¬ t.Crossed (t.select step a) := by
  constructor
  · rintro horder ⟨x, hx, y, hy, z, hz, hzy⟩
    have hxa : t.Attached x := h.attached_subtree ha (h.mem_subtree_of_select hx)
    have hyx := h.place_lt_of_precedingSibling hxa hz hzy
    rw [h.select_descendant haxis] at horder hx hy
    obtain ⟨p, hp, hxp⟩ := List.mem_flatMap.mp hx
    obtain ⟨q, hq, hyq⟩ := List.mem_flatMap.mp hy
    -- The parent of the second lies below that of the first, so the second is listed later.
    have hpq := h.above_parents hz hzy
      (h.mem_children.mp ((selectChildren_sublist step p).subset hxp))
      (h.mem_children.mp ((selectChildren_sublist step q).subset hyq))
    have hpair := (h.pair_of_above hpq).trans (h.subtree_sublist hp)
    have hxy := List.pairwise_iff_forall_sublist.mp horder (pair_flatMap hpair hxp hyq)
    exact Nat.lt_asymm hxy hyx
  · intro hnot
    -- Two nodes in a row have the same parent, or the parent of the first is visited earlier.
    refine List.pairwise_iff_forall_sublist.mpr fun {x y} hxy => ?_
    have hx : x ∈ t.select step a := hxy.subset List.mem_cons_self
    have hy : y ∈ t.select step a := hxy.subset (List.mem_cons_of_mem _ List.mem_cons_self)
    rw [h.select_descendant haxis] at hxy
    rcases pair_sublist_flatMap hxy with ⟨p, hp, hxy⟩ | ⟨p, q, hpq, hxp, hyq⟩
    · exact h.place_lt (h.attached_subtree ha hp) (h.pair_of_children
        (hxy.trans (selectChildren_sublist step p)) (h.mem_subtree_self x) (h.mem_subtree_self y))
    · exact h.place_lt_of_parents ha hpq ((selectChildren_sublist step p).subset hxp)
        ((selectChildren_sublist step q).subset hyq)
        fun z hz hzy => hnot ⟨x, hx, y, hy, z, hz, hzy⟩

/-- A step along another axis gives the nodes in document order. -/
theorem WellFormed.inOrder_select (h : t.WellFormed) {step : Step} {a : NodeId}
    (ha : t.Attached a) (haxis : step.axis ≠ .descendant) : t.InOrder (t.select step a) := by
  unfold select
  split
  · split_ifs
    · exact inOrder_of_length_le (keepAll_sublist _ [a]).length_le
    · exact .nil
  · refine List.pairwise_iff_forall_sublist.mpr fun hxy => ?_
    exact h.place_lt ha (h.pair_of_children (hxy.trans (selectChildren_sublist step a))
      (h.mem_subtree_self _) (h.mem_subtree_self _))
  · next heq => exact absurd heq haxis

/-! ## Whole paths -/

/-- The last step decides the order: it is document order unless the step goes along `descendant`
from one node and crosses the order. -/
theorem WellFormed.inOrder_selectFrom_iff (h : t.WellFormed) {step : Step} {nodes : List NodeId}
    (hnodes : ∀ n ∈ nodes, t.Attached n) :
    t.InOrder (t.selectFrom step nodes) ↔
      ¬ (step.axis = .descendant ∧ (∃ a, nodes = [a]) ∧ t.Crossed (t.selectFrom step nodes)) := by
  by_cases hone : ∃ a, nodes = [a]
  · obtain ⟨a, rfl⟩ := hone
    have ha : t.Attached a := hnodes a List.mem_cons_self
    rw [h.selectFrom_singleton]
    by_cases haxis : step.axis = .descendant
    · rw [h.inOrder_select_descendant ha haxis, not_iff_not]
      exact ⟨fun hcrossed => ⟨haxis, ⟨a, rfl⟩, hcrossed⟩, fun hleft => hleft.2.2⟩
    · exact iff_of_true (h.inOrder_select ha haxis) fun hleft => haxis hleft.1
  · have hlength : nodes.length ≠ 1 := fun hlength => hone (List.length_eq_one_iff.mp hlength)
    exact iff_of_true (h.inOrder_selectFrom hnodes hlength) fun hleft => hone hleft.2.1

/-- A path leaves the order of its last step as it is: the step goes along `descendant` and starts
from one node, and some node found lies below an earlier sibling of another. -/
def LeavesCrossed (t : Tree) (path : LocationPath) (n : NodeId) (found : List NodeId) : Prop :=
  ∃ steps last a, path.steps = steps ++ [last] ∧ last.axis = .descendant ∧
    t.evaluate { path with steps } n = .ok [a] ∧ t.Crossed found

/-- A path without steps has no last step. -/
theorem not_leavesCrossed {path : LocationPath} {n : NodeId} {found : List NodeId}
    (hsteps : path.steps = []) : ¬ t.LeavesCrossed path n found := by
  rintro ⟨steps, last, a, heq, -⟩
  rw [hsteps] at heq
  exact List.append_ne_nil_of_right_ne_nil steps (List.cons_ne_nil last []) heq.symm

/-- Whether a path leaves the order of its last step is said by that step and by what the steps
before it lead to. -/
theorem leavesCrossed_iff {path : LocationPath} {n : NodeId} {found : List NodeId}
    (hn : n < t.size) {steps : List Step} {last : Step} (hsteps : path.steps = steps ++ [last]) :
    t.LeavesCrossed path n found ↔ last.axis = .descendant ∧
      (∃ a, t.follow steps [startOf path n] = [a]) ∧ t.Crossed found := by
  have hok : t.evaluate { path with steps } n = .ok (t.follow steps [startOf path n]) :=
    evaluate_eq_ok hn { path with steps }
  constructor
  · rintro ⟨front, step, a, heq, haxis, hev, hcrossed⟩
    obtain ⟨rfl, hlast⟩ := List.append_inj' (hsteps.symm.trans heq) rfl
    obtain rfl := List.singleton_inj.mp hlast
    exact ⟨haxis, ⟨a, Except.ok.inj (hok.symm.trans hev)⟩, hcrossed⟩
  · rintro ⟨haxis, ⟨a, ha⟩, hcrossed⟩
    exact ⟨steps, last, a, hsteps, haxis, hok.trans (congrArg _ ha), hcrossed⟩

/-- From an attached node a path leads to different nodes, and they are in document order exactly if
the path does not end with a step along `descendant` from one node that crosses their order. -/
theorem evaluate_inOrder_iff (h : t.WellFormed) {n : NodeId} (hn : t.Attached n)
    (path : LocationPath) :
    ∃ found, t.evaluate path n = .ok found ∧ found.Nodup ∧
      (t.InOrder found ↔ ¬ t.LeavesCrossed path n found) := by
  have hlt : n < t.size := h.attached_lt_size hn
  -- The walk starts from an attached node, also if the path starts from the document node.
  have hstart : ∀ m ∈ [startOf path n], t.Attached m := by
    intro m hm
    rw [List.mem_singleton.mp hm, startOf]
    split_ifs
    · exact .inl rfl
    · exact hn
  refine ⟨t.follow path.steps [startOf path n], evaluate_eq_ok hlt path,
    h.nodup_follow (List.nodup_singleton _), ?_⟩
  rcases List.eq_nil_or_concat path.steps with hnil | ⟨steps, last, hsteps⟩
  · -- Without steps there is only the node to start from.
    rw [hnil]
    exact iff_of_true (inOrder_of_length_le (Nat.le_refl 1)) (not_leavesCrossed hnil)
  -- All steps but the last lead to attached nodes, and the last one decides about the order.
  · rw [List.concat_eq_append] at hsteps
    have hbefore : ∀ m ∈ t.follow steps [startOf path n], t.Attached m :=
      h.attached_follow hstart
    rw [leavesCrossed_iff hlt hsteps, hsteps, follow_append]
    exact h.inOrder_selectFrom_iff hbefore

/-- A division with two paragraphs, the first of which has a paragraph in it. -/
def nestedParagraphs : Tree :=
  Edit.run (.empty .html)
    [.createElement "div" [], .createElement "p" [], .createElement "p" [], .createElement "p" [],
      .append 0 1, .append 1 2, .append 2 3, .append 1 4]

/-- The path to all paragraphs. -/
def allParagraphs : LocationPath :=
  { absolute := true, steps := [{ axis := .descendant, test := .named "p" }] }

/-- For one, the path to all paragraphs. -/
theorem evaluate_inOrder_iff_nested :
    nestedParagraphs.WellFormed ∧ nestedParagraphs.Attached .document ∧
      ∃ found, nestedParagraphs.evaluate allParagraphs .document = .ok found ∧ found.Nodup ∧
        (nestedParagraphs.InOrder found ↔
          ¬ nestedParagraphs.LeavesCrossed allParagraphs .document found) :=
  have h : nestedParagraphs.WellFormed := Edit.wellFormed_run (wellFormed_empty .html) _
  ⟨h, .inl rfl, evaluate_inOrder_iff h (.inl rfl) allParagraphs⟩

/-- The path to all paragraphs gives the inner one last, which comes second in document order. -/
theorem evaluate_not_inOrder :
    nestedParagraphs.WellFormed ∧ nestedParagraphs.Attached .document ∧
      nestedParagraphs.evaluate allParagraphs .document = .ok [2, 4, 3] ∧
      ¬ nestedParagraphs.InOrder [2, 4, 3] :=
  ⟨Edit.wellFormed_run (wellFormed_empty .html) _, .inl rfl, by decide +kernel, by decide +kernel⟩

end TreeQuery.Tree
