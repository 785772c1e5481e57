import TreeQuery.Proofs.Operations
import TreeQuery.Tree.Mount

/-!
# Mounting leaves no trace

Mounting puts the topmost node of a free subtree last among the children of the document node
(`attach_cases`). It stood in no list before, so taking it out again gives every list of children
back, and with the lists the whole tree (`release_attach`).
-/

namespace TreeQuery

namespace Tree

variable {t u v : Tree} {p c : NodeId}

/-- Taking out a node that was free before it was put in gives the tree back. -/
theorem TakenOut.eq_of_putIn (ht : t.WellFormed) (hv : v.WellFormed) (hfree : t.parent? c = none)
    {before after : List NodeId} (hlist : t.children p = before ++ after)
    (hu : PutIn t u p c before after) (hout : TakenOut u v c) : v = t := by
  refine hv.ext ht (hout.flavour.trans hu.flavour) (hout.size.trans hu.size)
    (fun n => (hout.data? n).trans (hu.data? n)) fun n => ?_
  have hn := ht.not_mem_children_of_free hfree n
  rw [hout.children, hu.children]
  split_ifs with hp
  · rw [hp, hlist, List.mem_append, not_or] at hn
    rw [List.erase_append_right _ hn.1, List.erase_cons_head, hp, hlist]
  · exact List.erase_of_not_mem hn

end Tree

namespace Mount

open TreeQuery.Tree

variable {t : Tree} {n : NodeId} {m : Mount}

/-- Mounting does nothing where the topmost node may stand as a root. Otherwise it puts the topmost
node last among the children of the document node. -/
theorem attach_cases (h : t.WellFormed) (hok : attach t n = .ok m) :
    t.isRoot (t.top n) = true ∧ m = ⟨t, none⟩ ∨
      t.isRoot (t.top n) = false ∧ t.Insertable .document (t.top n) ∧
        m.mounted? = some (t.top n) ∧
        PutIn t m.tree .document (t.top n) (t.children .document) [] ∧ m.tree.WellFormed := by
  unfold attach at hok
  -- The cases of the definition: no such node, a topmost node that may stand as a root, and
  -- another.
  split_ifs at hok with hn hroot
  · exact .inl ⟨hroot, (Except.ok.inj hok).symm⟩
  · refine .inr ⟨Bool.eq_false_iff.mpr hroot, ?_⟩
    cases happend : t.append .document (t.top n) with
    | error e =>
      rw [happend] at hok
      cases hok
    -- The append has succeeded, so its check has passed, and a free node has been put in.
    | ok u =>
      rw [happend] at hok
      obtain rfl := Except.ok.inj hok
      have hins := h.insertable_of_append happend
      obtain ⟨w, hw, hput, hwf⟩ := h.append_of_free hins (h.parent?_top n)
      obtain rfl := Except.ok.inj (happend.symm.trans hw)
      exact ⟨hins, rfl, hput, hwf⟩

/-- The tree with a subtree mounted in it is well-formed. -/
theorem wellFormed_attach (h : t.WellFormed) (hok : attach t n = .ok m) : m.tree.WellFormed := by
  rcases attach_cases h hok with ⟨-, rfl⟩ | ⟨-, -, -, -, hwf⟩
  · exact h
  · exact hwf

/-- Taking a mounted subtree down gives the tree that it was mounted in. -/
theorem release_attach (h : t.WellFormed) (hok : attach t n = .ok m) :
    release m.tree m.mounted? = t := by
  rcases attach_cases h hok with ⟨-, rfl⟩ | ⟨-, -, hmounted, hput, hwf⟩
  · rfl
  · have hparent : m.tree.parent? (t.top n) = some .document := by
      rw [hput.parent?, if_pos rfl]
    obtain ⟨w, hw, hout, hwWf⟩ := hwf.takenOut_removeChild hparent
    rw [hmounted, release, hw]
    exact hout.eq_of_putIn h hwWf (h.parent?_top n) (List.append_nil _).symm hput

end Mount

end TreeQuery
