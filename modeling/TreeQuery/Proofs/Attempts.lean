import TreeQuery.Proofs.Preorder
import TreeQuery.Proofs.Reachable

/-!
# Edits that may be stopped on the way

`insertBefore` takes a node out of its list before it looks for the place to put it, and
`moveChildren` appends one child after the other until one of them cannot be appended. Both may fail
when the tree has changed already, and this module says what they leave.

An insertion that fails has changed nothing, unless a child was to be put in front of itself
(`insertBefore_atomic_iff`). Appending a part of a list of children hands that part over to another
list (`HandedOver`): one append does so for one child, and by induction a run of them for as many as
can be appended (`handedOver_appendAll`). The relation also holds where the two lists are the same
one, which then is only turned. `moveChildren_outcome` goes through all pairs of nodes.
-/

namespace TreeQuery.Tree

variable {t u v w : Tree} {p c d s g n : NodeId}

/-! ## Where a node may be put -/

/-- A child may be put under another node of the tree unless that is the child or lies below it. -/
theorem WellFormed.insertable_child (h : t.WellFormed) (hc : t.parent? c = some p)
    (hg : g < t.size) (hnot : ¬ (g = c ∨ t.Above c g)) : t.Insertable g c where
  parent_lt := hg
  child_lt := lt_size_of_parent? hc
  ne_document := h.ne_document_of_parent? hc
  ne_parent heq := hnot (.inl heq.symm)
  not_above habove := hnot (.inr habove)

/-- No node is its own child, or a child of a node below it. -/
theorem WellFormed.not_above_child (h : t.WellFormed) (hc : t.parent? c = some p) :
    ¬ (p = c ∨ t.Above c p) := by
  have hpc := Above.of_parent? hc
  rintro (rfl | hcp)
  · exact h.acyclic p hpc
  · exact h.not_above hpc hcp

/-- What may be put under a node may still be put there when the node has got one more child. -/
theorem PutIn.insertable {before after : List NodeId} (hu : PutIn t u p c before after)
    (hd : t.Insertable p d) : u.Insertable p d where
  parent_lt := hu.size ▸ hd.parent_lt
  child_lt := hu.size ▸ hd.child_lt
  ne_document := hd.ne_document
  ne_parent := hd.ne_parent
  not_above ha := by
    rcases hu.above ha with ha | ⟨rfl | ha, -⟩
    · exact hd.not_above ha
    · exact hd.ne_parent rfl
    · exact hd.not_above ha

/-- Nothing is appended to a node that does not exist. -/
theorem append_unknown (hg : ¬ g < t.size) (c : NodeId) :
    t.append g c = .error (.unknownNode g) := by
  rw [Tree.append, checkInsertable, contains_of_not_lt hg]
  rfl

/-- A node is not appended to itself, nor to a node below it. -/
theorem WellFormed.append_cycle (h : t.WellFormed) (hg : g < t.size) (hc : c < t.size)
    (hcycle : g = c ∨ t.Above c g) : t.append g c = .error (.cycle g c) := by
  have hstop : (g == c || t.isDescendantOf g c || c == .document) = true := by
    rw [Bool.or_eq_true, Bool.or_eq_true, beq_iff_eq, h.isDescendantOf_iff]
    exact .inl hcycle
  rw [Tree.append, checkInsertable, contains_of_lt hg, contains_of_lt hc, hstop]
  rfl

/-! ## In front of another node -/

/-- There is one way to take a node out. -/
theorem TakenOut.unique (hu : TakenOut t u c) (hv : TakenOut t v c) (huWf : u.WellFormed)
    (hvWf : v.WellFormed) : u = v :=
  huWf.ext hvWf (hu.flavour.trans hv.flavour.symm) (hu.size.trans hv.size.symm)
    (fun n => (hu.data? n).trans (hv.data? n).symm)
    fun n => (hu.children n).trans (hv.children n).symm

/-- An insertion that fails leaves the tree as it was, unless a child was to be put in front of
itself. Such an insertion always fails, and then the child has been taken out of its list. -/
theorem insertBefore_atomic_iff (h : t.WellFormed) (p c r : NodeId) :
    ((t.insertBefore p c r).error? ≠ none →
      ((t.insertBefore p c r).tree = t ↔ ¬ (r = c ∧ t.parent? c = some p))) ∧
      (r = c ∧ t.parent? c = some p →
        ∃ u, t.detach c = .ok u ∧ t.insertBefore p c r = ⟨u, some (.notAChild p c)⟩) := by
  rcases h.insertBefore_cases p c r with ⟨e, heq, hnot⟩ | ⟨v, heq, hins, hr, rfl, hv, hvWf⟩ |
    ⟨v, u, before, after, heq, -, -, hrc, -⟩
  · -- Refused at once, which does not happen to a child in front of itself.
    have hother : ¬ (r = c ∧ t.parent? c = some p) := by
      rintro ⟨rfl, hr⟩
      exact hnot ⟨h.insertable_child hr (h.parent_lt_size hr) (h.not_above_child hr), hr⟩
    rw [heq]
    exact ⟨fun _ => iff_of_true rfl hother, fun hself => absurd hself hother⟩
  · -- Stopped after the child has been taken out.
    have hchanged : v ≠ t := by
      rintro rfl
      rw [hv.parent?_self] at hr
      cases hr
    obtain ⟨u, hdetach, hu, huWf⟩ := h.takenOut_detach hins.child_lt
    rw [heq]
    refine ⟨fun _ => iff_of_false hchanged (not_not_intro ⟨rfl, hr⟩), fun _ => ⟨u, hdetach, ?_⟩⟩
    rw [hu.unique hv huWf hvWf]
  -- Carried out, which is no failure.
  · rw [heq]
    exact ⟨fun hfailed => absurd rfl hfailed, fun hself => absurd hself.1 hrc⟩

/-- A division with a paragraph, a list of one item, and another paragraph. -/
def sections : Tree :=
  Edit.run (.empty .html)
    [.createElement "div" [], .createElement "p" [], .createElement "ul" [],
      .createElement "li" [], .createElement "p" [], .append 0 1, .append 1 2, .append 1 3,
      .append 3 4, .append 1 5]

/-- The tree with two sections comes about by edits. -/
theorem wellFormed_sections : sections.WellFormed :=
  Edit.wellFormed_run (wellFormed_empty .html) _

/-- For one, the list is put in front of its item and in front of itself. -/
theorem insertBefore_atomic_iff_sections :
    sections.WellFormed ∧ (sections.insertBefore 1 3 4).tree = sections ∧
      ∃ u, sections.detach 3 = .ok u ∧
        sections.insertBefore 1 3 3 = ⟨u, some (.notAChild 1 3)⟩ :=
  have h := wellFormed_sections
  ⟨h, ((insertBefore_atomic_iff h 1 3 4).1 (by decide +kernel)).mpr (by decide +kernel),
    (insertBefore_atomic_iff h 1 3 3).2 (by decide +kernel)⟩

/-- An insertion that fails need not leave the tree as it was: the only child of a division, put in
front of itself, has no parent afterwards. -/
theorem insertBefore_not_atomic :
    let t := Edit.run (.empty .html)
      [.createElement "div" [], .createElement "p" [], .append 0 1, .append 1 2]
    t.WellFormed ∧ t.parent? 2 = some 1 ∧
      (t.insertBefore 1 2 2).error? = some (.notAChild 1 2) ∧
      (t.insertBefore 1 2 2).tree.parent? 2 = none ∧ (t.insertBefore 1 2 2).tree ≠ t := by
  intro t
  have h : t.WellFormed := Edit.wellFormed_run (wellFormed_empty .html) _
  exact ⟨h, by decide +kernel, by decide +kernel, by decide +kernel, by decide +kernel⟩

/-! ## Handing nodes over -/

/-- `u` is `t` after the nodes of `moved` have gone, in that order, to the end of the list of `g`,
and `left` has stayed in the list of `s`. The two may be the same node: then `left` comes first in
its list. -/
structure HandedOver (t u : Tree) (s g : NodeId) (moved left : List NodeId) : Prop
    extends SameNodes t u where
  /-- Only the two lists change. -/
  children : ∀ n : NodeId, u.children n =
    (if n = s then left else t.children n) ++ if n = g then moved else []
  /-- Only the nodes that have gone over have a new parent. -/
  parent? : ∀ n : NodeId, u.parent? n = if n ∈ moved then some g else t.parent? n

/-- Nothing has been handed over yet. -/
theorem HandedOver.start {left : List NodeId} (hlist : t.children s = left) (g : NodeId) :
    HandedOver t t s g [] left where
  toSameNodes := .refl t
  children n := by
    rw [ite_self, List.append_nil]
    split_ifs with hn
    · rw [hn, hlist]
    · rfl
  parent? n := by rw [if_neg List.not_mem_nil]

/-- More nodes are handed over. If the two lists are the same one, what has gone over before stands
behind what is left. -/
theorem HandedOver.trans {front back left : List NodeId}
    (htu : HandedOver t u s g front (back ++ left))
    (huw : HandedOver u w s g back (left ++ if s = g then front else [])) :
    HandedOver t w s g (front ++ back) left where
  toSameNodes := htu.toSameNodes.trans huw.toSameNodes
  children n := by
    rw [huw.children, htu.children]
    -- The list of the one gives its nodes away, and grows at its end if it is also that of the
    -- other.
    by_cases hs : n = s
    · subst hs
      rw [if_pos rfl, if_pos rfl]
      split_ifs
      · rw [List.append_assoc]
      · rw [List.append_nil]
    · rw [if_neg hs, if_neg hs]
      split_ifs
      · rw [List.append_assoc]
      · rw [List.append_nil]
  -- A node that has gone over first or afterwards is a child of the other now.
  parent? n := by
    simp only [huw.parent?, htu.parent?, List.mem_append, or_comm (a := n ∈ front), ite_or]

/-- A turn of a whole list changes nothing. -/
theorem HandedOver.eq_self (hu : HandedOver t u s s (t.children s) []) (h : t.WellFormed)
    (huWf : u.WellFormed) : u = t := by
  refine huWf.ext h hu.flavour hu.size hu.data? fun n => ?_
  rw [hu.children]
  split_ifs with hn
  · rw [hn, List.nil_append]
  · rw [List.append_nil]

/-- Handing over some children of a node leaves alone what lies below another child of it. -/
theorem HandedOver.above {moved left : List NodeId} (hu : HandedOver t u s g moved left)
    (h : t.WellFormed) (hmoved : ∀ d ∈ moved, t.parent? d = some s) (hc : t.Above s c)
    (hn : t.Above c n) : u.Above c n := by
  -- No node on the way down from `c` has the parent `s`.
  have hstays : ∀ {k m : NodeId}, t.parent? m = some k → k = c ∨ t.Above c k →
      u.parent? m = some k := by
    intro k m hm hk
    rw [hu.parent?, if_neg, hm]
    intro hmem
    obtain rfl := Option.some.inj (hm.symm.trans (hmoved m hmem))
    rcases hk with rfl | hk
    · exact h.acyclic k hc
    · exact h.not_above hc hk
  induction hn with
  | single hm => exact .of_parent? (hstays hm (.inl rfl))
  | tail hk hm ih => exact ih.child (hstays hm (.inr hk))

/-- One append hands over the first child. Whatever else may be appended may still be appended. -/
theorem WellFormed.handedOver_append (h : t.WellFormed) {rest : List NodeId}
    (hlist : t.children s = c :: rest) (hins : t.Insertable g c) :
    ∃ u, t.append g c = .ok u ∧ u.WellFormed ∧ HandedOver t u s g [c] rest ∧
      ∀ d, t.Insertable g d → u.Insertable g d := by
  obtain ⟨v, u, hv, -, hok, hu, hwf⟩ := h.append_of_insertable hins
  have hs : t.parent? c = some s := h.mem_children.mp (hlist ▸ List.mem_cons_self)
  -- Taking the first child out leaves the rest in its list and touches no other list.
  have hout : ∀ n, v.children n = if n = s then rest else t.children n := by
    intro n
    split_ifs with hn
    · rw [hv.children, hn, hlist, List.erase_cons_head]
    · exact hv.children_of_ne h fun heq => hn (Option.some.inj (heq.symm.trans hs))
  refine ⟨u, hok, hwf, ⟨hv.toSameNodes.trans hu.toSameNodes, fun n => ?_, fun n => ?_⟩,
    fun d hd => hu.insertable (hv.insertable hd)⟩
  -- Then the child is put at the end of the list of the other, which may be the same list.
  · rw [hu.children, ← hout]
    split_ifs with hn
    · rw [hn]
    · rw [List.append_nil]
  · simp only [hu.parent?, hv.parent?, List.mem_singleton]
    split_ifs
    · rfl
    · rfl

/-- A run of appends hands over the first part of a list of children, and goes on with what there is
to append behind it. -/
theorem WellFormed.handedOver_appendAll (h : t.WellFormed) {moved left : List NodeId}
    (hlist : t.children s = moved ++ left) (hins : ∀ c ∈ moved, t.Insertable g c)
    (more : List NodeId) :
    ∃ u, t.appendAll g (moved ++ more) = u.appendAll g more ∧ u.WellFormed ∧
      HandedOver t u s g moved left := by
  induction moved generalizing t left with
  | nil => exact ⟨t, rfl, h, .start hlist g⟩
  | cons c moved ih =>
    obtain ⟨u, hok, hu, hfirst, hkeep⟩ := h.handedOver_append hlist (hins c List.mem_cons_self)
    -- If the two lists are the same one, the child is now the last of those that are left.
    have hrest : u.children s = moved ++ (left ++ if s = g then [c] else []) := by
      rw [hfirst.children, if_pos rfl]
      exact List.append_assoc _ _ _
    obtain ⟨w, hrun, hw, hback⟩ := ih hu hrest fun d hd =>
      hkeep d (hins d (List.mem_cons_of_mem _ hd))
    refine ⟨w, ?_, hw, hfirst.trans hback⟩
    rw [List.cons_append, Tree.appendAll, hok]
    exact hrun

/-! ## All children -/

/-- Moving the children of a node of the tree is a run of appends. -/
theorem moveChildren_eq (hs : s < t.size) (g : NodeId) :
    t.moveChildren s g = t.appendAll g (t.children s) := by
  rw [moveChildren, contains_of_lt hs]
  rfl

/-- A run of appends stops at a node that cannot be appended. -/
theorem appendAll_of_error {e : TreeError} (hfail : t.append g c = .error e)
    (rest : List NodeId) : t.appendAll g (c :: rest) = ⟨t, some e⟩ := by
  rw [appendAll, hfail]

/-- All children are handed over to a node that does not lie below them. -/
theorem WellFormed.moveChildren_of_not_above (h : t.WellFormed) (hs : s < t.size)
    (hg : g < t.size) (hnot : ¬ t.Above s g) :
    ∃ u, t.moveChildren s g = ⟨u, none⟩ ∧ u.WellFormed ∧
      HandedOver t u s g (t.children s) [] := by
  have hins : ∀ c ∈ t.children s, t.Insertable g c := fun c hc =>
    h.insertable_child (h.mem_children.mp hc) hg fun hcg =>
      hnot ((above_iff_child h).mpr ⟨c, hc, hcg⟩)
  obtain ⟨u, hrun, hu, hover⟩ := h.handedOver_appendAll (List.append_nil _).symm hins []
  refine ⟨u, ?_, hu, hover⟩
  rw [List.append_nil] at hrun
  rw [moveChildren_eq hs, hrun]
  rfl

/-- The children in front of the one that the target lies in are handed over, and then the move is
stopped. -/
theorem WellFormed.moveChildren_of_above (h : t.WellFormed) (hsg : t.Above s g) :
    ∃ before c after u, t.children s = before ++ c :: after ∧ (g = c ∨ t.Above c g) ∧
      t.moveChildren s g = ⟨u, some (.cycle g c)⟩ ∧ u.WellFormed ∧
        HandedOver t u s g before (c :: after) := by
  have hg : g < t.size := hsg.lt_size
  obtain ⟨c, hc, hcg⟩ := (above_iff_child h).mp hsg
  obtain ⟨before, after, hlist⟩ := List.append_of_mem hc
  have hchild : ∀ d ∈ before, d ∈ t.children s := fun d hd =>
    hlist ▸ List.mem_append_left _ hd
  have hins : ∀ d ∈ before, t.Insertable g d := by
    intro d hd
    refine h.insertable_child (h.mem_children.mp (hchild d hd)) hg fun hdg => ?_
    -- The target lies in one child only, and that stands behind this one.
    have hdc : d = c :=
      h.child_unique (hchild d hd) hc (h.mem_subtree.mpr hdg) (h.mem_subtree.mpr hcg)
    have hnodup := hlist ▸ h.nodup_children s
    exact (List.nodup_append.mp hnodup).2.2 d hd c List.mem_cons_self hdc
  obtain ⟨u, hrun, hu, hover⟩ := h.handedOver_appendAll hlist hins (c :: after)
  have hsc : t.Above s c := .of_parent? (h.mem_children.mp hc)
  have hcycle : g = c ∨ u.Above c g := hcg.imp_right
    (hover.above h (fun d hd => h.mem_children.mp (hchild d hd)) hsc)
  have hfail : u.append g c = .error (.cycle g c) :=
    hu.append_cycle (hover.size ▸ hg) (hover.size ▸ hsc.lt_size) hcycle
  refine ⟨before, c, after, u, hlist, hcg, ?_, hu, hover⟩
  rw [moveChildren_eq (h.above_lt_size hsg), hlist, hrun, appendAll_of_error hfail]

/-- What becomes of a move of all children of `s` to the end of the list of `g`. It is refused where
`s` does not exist, and where there are children to move but `g` does not exist. If `g` lies below
`s`, it is stopped at the child that `g` is or lies below, and those in front of that child have
been handed over. Otherwise all of them are handed over, and a node whose own children are moved to
it is left as it is. No other list, no other parent and no data change. -/
theorem moveChildren_outcome (h : t.WellFormed) (s g : NodeId) :
    (¬ s < t.size → t.moveChildren s g = ⟨t, some (.unknownNode s)⟩) ∧
      (s < t.size → t.children s = [] → t.moveChildren s g = ⟨t, none⟩) ∧
      (s < t.size → t.children s ≠ [] → ¬ g < t.size →
        t.moveChildren s g = ⟨t, some (.unknownNode g)⟩) ∧
      (t.Above s g → ∃ before c after u, t.children s = before ++ c :: after ∧
        (g = c ∨ t.Above c g) ∧ t.moveChildren s g = ⟨u, some (.cycle g c)⟩ ∧ u.WellFormed ∧
          HandedOver t u s g before (c :: after)) ∧
      (s < t.size → g < t.size → ¬ t.Above s g → g ≠ s →
        ∃ u, t.moveChildren s g = ⟨u, none⟩ ∧ u.WellFormed ∧
          HandedOver t u s g (t.children s) []) ∧
      (s < t.size → t.moveChildren s s = ⟨t, none⟩) := by
  refine ⟨fun hs => ?_, fun hs hnone => ?_, fun hs hsome hg => ?_, h.moveChildren_of_above,
    fun hs hg hnot _ => h.moveChildren_of_not_above hs hg hnot, fun hs => ?_⟩
  -- Without the first node there is nothing to move.
  · rw [moveChildren, contains_of_not_lt hs]
    rfl
  -- A node without children has none to hand over.
  · rw [moveChildren_eq hs, hnone]
    rfl
  -- The first child cannot be appended to a node that is not there.
  · obtain ⟨c, rest, hlist⟩ := List.exists_cons_of_ne_nil hsome
    rw [moveChildren_eq hs, hlist, appendAll_of_error (append_unknown hg c)]
  -- Its own children go over to it one by one, and end up in the order in which they were.
  · obtain ⟨u, hmove, hu, hover⟩ := h.moveChildren_of_not_above hs hs (h.acyclic s)
    rw [hmove, hover.eq_self h hu]

/-- For one, the children of the division are moved to the item below the second of them. -/
theorem moveChildren_outcome_below :
    sections.WellFormed ∧ sections.Above 1 4 ∧
      ∃ before c after u, sections.children 1 = before ++ c :: after ∧
        (4 = c ∨ sections.Above c 4) ∧
        sections.moveChildren 1 4 = ⟨u, some (.cycle 4 c)⟩ ∧ u.WellFormed ∧
          HandedOver sections u 1 4 before (c :: after) :=
  have h := wellFormed_sections
  have habove : sections.Above 1 4 := h.mem_ancestors.mp (by decide +kernel)
  ⟨h, habove, (moveChildren_outcome h 1 4).2.2.2.1 habove⟩

/-- The move stops at the second child, and the first one has gone over by then. -/
example : (sections.moveChildren 1 4).error? = some (.cycle 4 3) ∧
    (sections.moveChildren 1 4).tree.children 1 = [3, 5] ∧
    (sections.moveChildren 1 4).tree.children 4 = [2] := by
  decide +kernel

end TreeQuery.Tree
