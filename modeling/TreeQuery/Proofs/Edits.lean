import Mathlib.Data.List.Nodup
import TreeQuery.Proofs.Links
import TreeQuery.Proofs.Walks

/-!
# Taking nodes out and putting them in

An edit takes a node out of the list that it is in (`TakenOut`), or puts a node that is in no list
into one (`PutIn`), or both. The two relations say what happens to the lists of children and to the
parents and that nothing else does; the neighbours follow, because the tree is well-formed again.
`takenOut_removeChild`, `putIn_linkLast` and `putIn_linkBefore` relate the three primitive edits to
them.
-/

namespace TreeQuery.Tree

variable {t u v : Tree} {p c : NodeId}

/-! ## What an edit changes -/

/-- `u` is `t` with the node `c` taken out of the list that it was in, if it was in any. -/
structure TakenOut (t u : Tree) (c : NodeId) : Prop extends SameNodes t u where
  /-- The node is gone from all lists of children. -/
  children : ∀ n : NodeId, u.children n = (t.children n).erase c
  /-- The node has no parent, and the other nodes have the parents that they had. -/
  parent? : ∀ n : NodeId, u.parent? n = if n = c then none else t.parent? n

/-- `u` is `t` with the node `c` put between `before` and `after` into the list of `p`. -/
structure PutIn (t u : Tree) (p c : NodeId) (before after : List NodeId) : Prop
    extends SameNodes t u where
  /-- The node stands in the list of its new parent. -/
  children : ∀ n : NodeId, u.children n = if n = p then before ++ c :: after else t.children n
  /-- The node has its new parent, and the other nodes have the parents that they had. -/
  parent? : ∀ n : NodeId, u.parent? n = if n = c then some p else t.parent? n

/-- The node `c` may be put under `p`: it is not the document node and does not lie above `p`. -/
structure Insertable (t : Tree) (p c : NodeId) : Prop where
  /-- The new parent exists. -/
  parent_lt : p < t.size
  /-- The node exists. -/
  child_lt : c < t.size
  /-- The document node never moves. -/
  ne_document : c ≠ .document
  /-- A node is not put under itself. -/
  ne_parent : c ≠ p
  /-- A node is not put under a node below it. -/
  not_above : ¬ t.Above c p

/-- A node may be put under another exactly if the check before an insertion passes. -/
theorem WellFormed.checkInsertable_eq_ok_iff (h : t.WellFormed) :
    t.checkInsertable p c = .ok () ↔ t.Insertable p c := by
  have hcontains : ∀ n, (!t.contains n) = true ↔ t.size ≤ n := fun n => by
    rw [contains, Bool.not_eq_true', decide_eq_false_iff_not, Nat.not_lt]
  have hcycle : (p == c || t.isDescendantOf p c || c == .document) = true ↔
      (p = c ∨ t.Above c p) ∨ c = .document := by
    rw [Bool.or_eq_true, Bool.or_eq_true, beq_iff_eq, beq_iff_eq, h.isDescendantOf_iff]
  unfold checkInsertable
  constructor
  -- The check passes, so none of its three refusals applied, and these are the conditions negated.
  · intro hok
    split at hok
    · cases hok
    · next hp =>
      split at hok
      · cases hok
      · next hc =>
        split at hok
        · cases hok
        · next hcyc =>
          rw [hcontains, Nat.not_le] at hp hc
          rw [hcycle, not_or, not_or] at hcyc
          exact ⟨hp, hc, hcyc.2, Ne.symm hcyc.1.1, hcyc.1.2⟩
  -- None of the refusals applies, since each contradicts one of the conditions.
  · rintro ⟨hp, hc, hdocument, hne, habove⟩
    have hp' : ¬ (!t.contains p) = true := (hcontains p).not.mpr (Nat.not_le.mpr hp)
    have hc' : ¬ (!t.contains c) = true := (hcontains c).not.mpr (Nat.not_le.mpr hc)
    rw [if_neg hp', if_neg hc', if_neg]
    rw [hcycle]
    rintro ((heq | ha) | heq)
    · exact hne heq.symm
    · exact habove ha
    · exact hdocument heq

/-! ## Taking a node out -/

/-- Where a node is taken out, nothing comes to lie above anything. -/
theorem TakenOut.above (hu : TakenOut t u c) {a n : NodeId} (ha : u.Above a n) : t.Above a n := by
  refine Relation.TransGen.mono (fun p m hm => ?_) _ _ ha
  rw [hu.parent?] at hm
  split_ifs at hm
  exact hm

/-- The node that has been taken out has no parent. -/
theorem TakenOut.parent?_self (hu : TakenOut t u c) : u.parent? c = none := by
  rw [hu.parent?, if_pos rfl]

/-- The members of a list after a node has been taken out. -/
theorem TakenOut.mem_children (hu : TakenOut t u c) (h : t.WellFormed) {q n : NodeId} :
    n ∈ u.children q ↔ n ≠ c ∧ n ∈ t.children q := by
  rw [hu.children, (h.nodup_children q).mem_erase_iff]

/-- A list that does not hold the node stays as it is. -/
theorem TakenOut.children_of_ne (hu : TakenOut t u c) (h : t.WellFormed) {q : NodeId}
    (hq : t.parent? c ≠ some q) : u.children q = t.children q := by
  rw [hu.children, List.erase_of_not_mem fun hmem => hq (h.mem_children.mp hmem)]

/-- A tree from which a child of `p` has been taken out is well-formed if the neighbours in the list
of `p` are right and those outside it are as before. -/
theorem TakenOut.wellFormed (hu : TakenOut t u c) (h : t.WellFormed) (hc : t.parent? c = some p)
    (hneighbours : ∀ {n : NodeId} {before after : List NodeId},
      u.children p = before ++ n :: after →
        u.previous? n = before.getLast? ∧ u.next? n = after.head?)
    (hothers : ∀ {n : NodeId}, n ∉ u.children p →
      u.previous? n = (if n = c then none else t.previous? n) ∧
        u.next? n = if n = c then none else t.next? n) : u.WellFormed := by
  -- The lists and the parents still agree: the child has gone from both.
  have hmem : ∀ {q n : NodeId}, n ∈ u.children q ↔ u.parent? n = some q := by
    intro q n
    rw [hu.mem_children h, hu.parent?, h.mem_children]
    by_cases hn : n = c
    · simp [hn]
    · simp [hn]
  exact {
    document := (hu.data? _).trans h.document
    parent_document := by rw [hu.parent?, h.parent_document, ite_self]
    mem_children := hmem
    nodup_children := by
      intro q
      rw [hu.children]
      exact (h.nodup_children q).erase c
    neighbours := by
      intro q n before after hsplit
      by_cases hq : q = p
      · exact hneighbours (hq ▸ hsplit)
      · -- Another list is what it was, and its members do not stand in that of `p`.
        have hn : n ∈ u.children q := hsplit ▸ List.mem_append_right _ List.mem_cons_self
        have hnc : n ≠ c := ((hu.mem_children h).mp hn).1
        have hnp : n ∉ u.children p := fun hnp =>
          hq (Option.some.inj ((hmem.mp hn).symm.trans (hmem.mp hnp)))
        have hold : t.children q = before ++ n :: after := by
          rw [← hsplit, hu.children_of_ne h]
          exact fun heq => hq (Option.some.inj (heq.symm.trans hc))
        rw [(hothers hnp).1, (hothers hnp).2, if_neg hnc, if_neg hnc]
        exact h.neighbours hold
    -- A node without a parent is the child itself, or it had no parent before.
    free := by
      intro n hn
      have hnp : n ∉ u.children p := fun hnp => by
        rw [hmem, hn] at hnp
        cases hnp
      rw [(hothers hnp).1, (hothers hnp).2]
      rw [hu.parent?] at hn
      split_ifs at hn ⊢ with hnc
      · exact ⟨rfl, rfl⟩
      · exact h.free hn
    acyclic := fun n hn => h.acyclic n (hu.above hn) }

/-- Taking a child away from its parent succeeds, and the tree is well-formed again. -/
theorem WellFormed.takenOut_removeChild (h : t.WellFormed) (hc : t.parent? c = some p) :
    ∃ u, t.removeChild p c = .ok u ∧ TakenOut t u c ∧ u.WellFormed := by
  have hp : p < t.size := h.parent_lt_size hc
  have hcSize : c < t.size := lt_size_of_parent? hc
  -- The tree just before the neighbours are set again.
  generalize hw : (t.modify p fun node => { node with children := node.children.erase c }).modify c
    (fun node => { node with parent := none, previous := none, next := none }) = w
  have hnodes : SameNodes t w := by
    rw [← hw]
    refine ((SameNodes.refl t).modify ?_ p).modify ?_ c
    · exact fun _ => rfl
    · exact fun _ => rfl
  have hchildren : ∀ n, w.children n = if n = p then (t.children p).erase c else t.children n := by
    rw [← hw]
    exact children_modify_modify hp (·.erase c) fun _ => rfl
  have hparent : ∀ n, w.parent? n = if n = c then none else t.parent? n := by
    rw [← hw]
    exact bind_getElem?_modify_modify (·.parent) hcSize (fun _ => rfl) fun _ => rfl
  have hprevious : ∀ n, w.previous? n = if n = c then none else t.previous? n := by
    rw [← hw]
    exact bind_getElem?_modify_modify (·.previous) hcSize (fun _ => rfl) fun _ => rfl
  have hnext : ∀ n, w.next? n = if n = c then none else t.next? n := by
    rw [← hw]
    exact bind_getElem?_modify_modify (·.next) hcSize (fun _ => rfl) fun _ => rfl
  have hlist : w.children p = (t.children p).erase c := by rw [hchildren, if_pos rfl]
  have hlt : ∀ m ∈ w.children p, m < w.size := by
    intro m hm
    rw [hlist] at hm
    rw [hnodes.size]
    exact h.child_lt_size (List.mem_of_mem_erase hm)
  have hu : TakenOut t (w.relink p) c :=
    { hnodes.relink p with
      children := by
        intro n
        rw [children_relink, hchildren]
        split_ifs with hn
        · rw [hn]
        · rw [List.erase_of_not_mem]
          exact fun hmem => hn (Option.some.inj ((h.mem_children.mp hmem).symm.trans hc))
      parent? := by
        intro n
        rw [parent?_relink, hparent] }
  refine ⟨w.relink p, ?_, hu, hu.wellFormed h hc ?_ ?_⟩
  · have hcontains : (t.children p).contains c = true :=
      List.contains_iff_mem.mpr (h.mem_children.mpr hc)
    unfold removeChild contains
    rw [decide_eq_true hp, hcontains, ← hw]
    rfl
  · intro n before after hsplit
    rw [children_relink] at hsplit
    exact neighbours_relink hlt (hlist ▸ (h.nodup_children p).erase c) hsplit
  · intro n hn
    rw [children_relink] at hn
    obtain ⟨hprevious', hnext'⟩ := neighbours_relink_of_not_mem hlt hn
    exact ⟨hprevious'.trans (hprevious n), hnext'.trans (hnext n)⟩

/-- Detaching a node of the tree succeeds, and the tree is well-formed again. -/
theorem WellFormed.takenOut_detach (h : t.WellFormed) (hc : c < t.size) :
    ∃ u, t.detach c = .ok u ∧ TakenOut t u c ∧ u.WellFormed := by
  cases hp : t.parent? c with
  -- The node has a parent, and is taken out of its list.
  | some p =>
    obtain ⟨u, hok, hu, hwf⟩ := h.takenOut_removeChild hp
    refine ⟨u, ?_, hu, hwf⟩
    rw [detach, contains_of_lt hc, hp]
    exact hok
  -- The node is free already, and nothing changes.
  | none =>
    refine ⟨t, ?_, ⟨⟨rfl, rfl, fun _ => rfl⟩, fun n => ?_, fun n => ?_⟩, h⟩
    · rw [detach, contains_of_lt hc, hp]
      rfl
    · rw [List.erase_of_not_mem]
      exact h.not_mem_children_of_free hp n
    · split_ifs with hn
      · rw [hn, hp]
      · rfl

/-! ## Putting a node in -/

section PutIn

variable {before after : List NodeId}

/-- Where a node is put in, its new parent and what lies above that come to lie above the node and
what lies below it, and nothing else changes. -/
theorem PutIn.above (hu : PutIn t u p c before after) {a n : NodeId} (ha : u.Above a n) :
    t.Above a n ∨ (a = p ∨ t.Above a p) ∧ (n = c ∨ t.Above c n) := by
  induction ha with
  -- The walk upwards ends with a single step, which is an old one or the new one.
  | single hn =>
    rw [hu.parent?] at hn
    split_ifs at hn with hc
    · exact .inr ⟨.inl (Option.some.inj hn).symm, .inl hc⟩
    · exact .inl (.of_parent? hn)
  | tail _ hn ih =>
    rw [hu.parent?] at hn
    split_ifs at hn with hc
    · -- The last step of the walk is the new one.
      obtain rfl := Option.some.inj hn
      rcases ih with ha | ⟨ha, -⟩
      · exact .inr ⟨.inr ha, .inl hc⟩
      · exact .inr ⟨ha, .inl hc⟩
    -- The last step is an old one, and the part of the walk below it may have gone through the new
    -- one.
    · rcases ih with ha | ⟨ha, rfl | hm⟩
      · exact .inl (ha.child hn)
      · exact .inr ⟨ha, .inr (.of_parent? hn)⟩
      · exact .inr ⟨ha, .inr (hm.child hn)⟩

/-- Putting a node under one that does not lie below it makes no cycle. -/
theorem PutIn.acyclic (hu : PutIn t u p c before after) (h : t.WellFormed)
    (hins : t.Insertable p c) (n : NodeId) : ¬ u.Above n n := by
  intro hn
  -- A cycle goes through the new link, so `c` is `p` or lies above it.
  rcases hu.above hn with ha | ⟨rfl | ha, rfl | hb⟩
  · exact h.acyclic n ha
  · exact hins.ne_parent rfl
  · exact hins.not_above hb
  · exact hins.not_above ha
  · exact hins.not_above (hb.trans ha)

/-- The members of a list after a node has been put in. -/
theorem PutIn.mem_children (hu : PutIn t u p c before after)
    (hlist : t.children p = before ++ after) {q n : NodeId} :
    n ∈ u.children q ↔ n = c ∧ q = p ∨ n ∈ t.children q := by
  rw [hu.children]
  split_ifs with hq
  · subst hq
    rw [hlist, List.mem_append, List.mem_cons, List.mem_append]
    simp only [and_true]
    exact or_left_comm
  · simp [hq]

/-- A tree into which a node has been put is well-formed if its neighbours in the new list are right
and those outside it are as before. -/
theorem PutIn.wellFormed (hu : PutIn t u p c before after) (h : t.WellFormed)
    (hins : t.Insertable p c) (hfree : t.parent? c = none)
    (hlist : t.children p = before ++ after)
    (hneighbours : ∀ {n : NodeId} {front back : List NodeId}, u.children p = front ++ n :: back →
      u.previous? n = front.getLast? ∧ u.next? n = back.head?)
    (hothers : ∀ {n : NodeId}, n ∉ u.children p →
      u.previous? n = t.previous? n ∧ u.next? n = t.next? n) : u.WellFormed := by
  -- The lists and the parents agree again: the node has come into both.
  have hmem : ∀ {q n : NodeId}, n ∈ u.children q ↔ u.parent? n = some q := by
    intro q n
    rw [hu.mem_children hlist, hu.parent?, h.mem_children]
    split_ifs with hn
    · rw [hn, hfree]
      simp [eq_comm]
    · simp [hn]
  exact {
    document := (hu.data? _).trans h.document
    parent_document := by
      rw [hu.parent?, if_neg (Ne.symm hins.ne_document), h.parent_document]
    mem_children := hmem
    nodup_children := by
      intro q
      rw [hu.children]
      split_ifs with hq
      · have hnodup := h.nodup_children p
        have hc := h.not_mem_children_of_free hfree p
        rw [hlist] at hnodup hc
        exact List.nodup_middle.mpr (List.nodup_cons.mpr ⟨hc, hnodup⟩)
      · exact h.nodup_children q
    neighbours := by
      intro q n front back hsplit
      by_cases hq : q = p
      · exact hneighbours (hq ▸ hsplit)
      · have hn : n ∈ u.children q := hsplit ▸ List.mem_append_right _ List.mem_cons_self
        have hnp : n ∉ u.children p := fun hnp =>
          hq (Option.some.inj ((hmem.mp hn).symm.trans (hmem.mp hnp)))
        rw [(hothers hnp).1, (hothers hnp).2]
        rw [hu.children, if_neg hq] at hsplit
        exact h.neighbours hsplit
    -- A node without a parent is not the one put in, so it was free before.
    free := by
      intro n hn
      have hnp : n ∉ u.children p := fun hnp => by
        rw [hmem, hn] at hnp
        cases hnp
      rw [(hothers hnp).1, (hothers hnp).2]
      rw [hu.parent?] at hn
      split_ifs at hn
      exact h.free hn
    acyclic := hu.acyclic h hins }

end PutIn

/-! ### Last -/

/-- A member of a list with one more at its end is that one, or stands in the list before it. -/
theorem eq_or_exists_of_concat {list front back : List NodeId} {n : NodeId}
    (hsplit : list ++ [c] = front ++ n :: back) :
    n = c ∧ front = list ∧ back = [] ∨
      ∃ rest, back = rest ++ [c] ∧ list = front ++ n :: rest := by
  rcases List.eq_nil_or_concat back with rfl | ⟨rest, m, rfl⟩
  · obtain ⟨hlist, hcn⟩ := List.append_inj' hsplit rfl
    exact .inl ⟨(List.singleton_inj.mp hcn).symm, hlist.symm, rfl⟩
  · rw [List.concat_eq_append, ← List.cons_append, ← List.append_assoc] at hsplit
    obtain ⟨hlist, hcm⟩ := List.append_inj' hsplit rfl
    rw [List.concat_eq_append, List.singleton_inj.mp hcm]
    exact .inr ⟨rest, rfl, hlist⟩

/-- What comes next in a list with one more at its end: that one, for the member that was last. -/
theorem head?_concat {front rest : List NodeId} {n : NodeId}
    (hnodup : (front ++ n :: rest).Nodup) :
    (rest ++ [c]).head? =
      if (front ++ n :: rest).getLast? = some n then some c else rest.head? := by
  cases rest with
  | nil => rw [List.getLast?_concat, if_pos rfl, List.nil_append, List.head?_cons]
  | cons m rest =>
    have hn : n ∉ m :: rest := (List.nodup_cons.mp (List.nodup_append.mp hnodup).2.1).1
    have hlast : (front ++ n :: m :: rest).getLast? ≠ some n := by
      intro hlast
      rw [List.getLast?_append_cons, List.getLast?_cons_cons] at hlast
      exact hn (List.mem_of_getLast? hlast)
    rw [if_neg hlast, List.cons_append, List.head?_cons, List.head?_cons]

/-- A free node may be put last among the children of another, and the tree is well-formed again. -/
theorem WellFormed.putIn_linkLast (h : t.WellFormed) (hins : t.Insertable p c)
    (hfree : t.parent? c = none) :
    PutIn t (t.linkLast p c) p c (t.children p) [] ∧ (t.linkLast p c).WellFormed := by
  have hc : c ∉ t.children p := h.not_mem_children_of_free hfree p
  have hprevious := previous?_linkLast hins.child_lt p
  have hnext := next?_linkLast (p := p) hins.child_lt fun _ hl => h.child_lt_size hl
  have hu : PutIn t (t.linkLast p c) p c (t.children p) [] :=
    { sameNodes_linkLast t p c with
      children := children_linkLast hins.parent_lt c
      parent? := parent?_linkLast hins.child_lt p }
  refine ⟨hu, hu.wellFormed h hins hfree (List.append_nil _).symm ?_ ?_⟩
  · intro n front back hsplit
    rw [hu.children, if_pos rfl] at hsplit
    rw [hprevious, hnext]
    rcases eq_or_exists_of_concat hsplit with ⟨rfl, rfl, rfl⟩ | ⟨rest, rfl, hold⟩
    · -- The node itself: what was last stands before it.
      have hlast : (t.children p).getLast? ≠ some n := fun hlast => hc (List.mem_of_getLast? hlast)
      rw [if_pos rfl, if_neg hlast, if_pos rfl]
      exact ⟨rfl, rfl⟩
    · -- An older child: only what comes after it may have changed.
      have hnc : n ≠ c := by
        rintro rfl
        exact hc (hold ▸ List.mem_append_right _ List.mem_cons_self)
      obtain ⟨ep, en⟩ := h.neighbours hold
      rw [if_neg hnc, if_neg hnc, ep, en, head?_concat (hold ▸ h.nodup_children p), hold]
      exact ⟨rfl, rfl⟩
  -- A node outside the list: it is neither the new last child nor the one that was last before.
  · intro n hn
    rw [hu.mem_children (List.append_nil _).symm, not_or] at hn
    have hnc : n ≠ c := fun heq => hn.1 ⟨heq, rfl⟩
    have hlast : (t.children p).getLast? ≠ some n := fun hlast => hn.2 (List.mem_of_getLast? hlast)
    rw [hprevious, hnext, if_neg hnc, if_neg hlast, if_neg hnc]
    exact ⟨rfl, rfl⟩

/-! ### In front of a child -/

/-- Inserting at the place of a member of a list puts the new member in front of it. -/
theorem insertIdx_idxOf {before : List NodeId} {r : NodeId} (hr : r ∉ before) (c : NodeId)
    (after : List NodeId) :
    (before ++ r :: after).insertIdx ((before ++ r :: after).idxOf r) c =
      before ++ c :: r :: after := by
  induction before with
  | nil => rw [List.nil_append, List.idxOf_cons_self, List.insertIdx_zero, List.nil_append]
  | cons n before ih =>
    rw [List.mem_cons, not_or] at hr
    rw [List.cons_append, List.idxOf_cons_ne _ (Ne.symm hr.1), List.insertIdx_succ_cons, ih hr.2,
      List.cons_append]

/-- A free node may be put in front of a child of another, and the tree is well-formed again. -/
theorem WellFormed.putIn_linkBefore (h : t.WellFormed) (hins : t.Insertable p c)
    (hfree : t.parent? c = none) {r : NodeId} {before after : List NodeId}
    (hlist : t.children p = before ++ r :: after) :
    PutIn t (t.linkBefore p c r) p c before (r :: after) ∧ (t.linkBefore p c r).WellFormed := by
  have hc : c ∉ t.children p := h.not_mem_children_of_free hfree p
  have hold : (before ++ r :: after).Nodup := hlist ▸ h.nodup_children p
  have hr : r ∉ before := fun hr =>
    (List.nodup_append.mp hold).2.2 r hr r List.mem_cons_self rfl
  -- The tree just before the neighbours are set again.
  generalize hw : (t.modify p fun node =>
    { node with children := node.children.insertIdx (node.children.idxOf r) c }).modify c
      (fun node => { node with parent := some p }) = w
  have hlink : t.linkBefore p c r = w.relink p := by rw [linkBefore, ← hw]
  have hnodes : SameNodes t w := by
    rw [← hw]
    refine ((SameNodes.refl t).modify ?_ p).modify ?_ c
    · exact fun _ => rfl
    · exact fun _ => rfl
  have hchildren : ∀ n, w.children n =
      if n = p then before ++ c :: r :: after else t.children n := by
    have hplace : (t.children p).insertIdx ((t.children p).idxOf r) c =
        before ++ c :: r :: after := by rw [hlist, insertIdx_idxOf hr]
    rw [← hw, ← hplace]
    exact children_modify_modify hins.parent_lt (fun nodes => nodes.insertIdx (nodes.idxOf r) c)
      fun _ => rfl
  have hparent : ∀ n, w.parent? n = if n = c then some p else t.parent? n := by
    rw [← hw]
    exact bind_getElem?_modify_modify (·.parent) hins.child_lt (fun _ => rfl) fun _ => rfl
  have hprevious : ∀ n, w.previous? n = t.previous? n := by
    intro n
    rw [← hw, previous?_modify, previous?_modify]
    · exact fun _ => rfl
    · exact fun _ => rfl
  have hnext : ∀ n, w.next? n = t.next? n := by
    intro n
    rw [← hw, next?_modify, next?_modify]
    · exact fun _ => rfl
    · exact fun _ => rfl
  have hu : PutIn t (w.relink p) p c before (r :: after) :=
    { hnodes.relink p with
      children := fun n => (children_relink w p n).trans (hchildren n)
      parent? := fun n => (parent?_relink w p n).trans (hparent n) }
  have hnew : w.children p = before ++ c :: r :: after := by rw [hchildren, if_pos rfl]
  have hlt : ∀ m ∈ w.children p, m < w.size := by
    intro m hm
    rw [hnew, List.mem_append, List.mem_cons, or_left_comm, ← List.mem_append, ← hlist] at hm
    rw [hnodes.size]
    rcases hm with rfl | hm
    · exact hins.child_lt
    · exact h.child_lt_size hm
  have hnodup : (w.children p).Nodup := by
    rw [hlist] at hc
    rw [hnew]
    exact List.nodup_middle.mpr (List.nodup_cons.mpr ⟨hc, hold⟩)
  rw [hlink]
  refine ⟨hu, hu.wellFormed h hins hfree hlist ?_ ?_⟩
  · intro n front back hsplit
    rw [children_relink] at hsplit
    exact neighbours_relink hlt hnodup hsplit
  · intro n hn
    rw [children_relink] at hn
    obtain ⟨hprevious', hnext'⟩ := neighbours_relink_of_not_mem hlt hn
    exact ⟨hprevious'.trans (hprevious n), hnext'.trans (hnext n)⟩

end TreeQuery.Tree
