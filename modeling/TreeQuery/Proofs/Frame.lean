import TreeQuery.Proofs.Reach

/-!
# Searches leave the tree as it was

A search reads the tree and mounts free subtrees in it for a while, also in the middle of a nested
selector. Following steps from one node is where it does so (`keeps_followFrom`): the tree is the
one that the search started on, or the one with a subtree mounted, and either way it is put back.
Whatever holds of that step holds of the search, so `keeps_find` and `keeps_keep` need nothing else.
-/

namespace TreeQuery.Query

variable {t : Tree}

/-- Following steps from a node keeps the tree. -/
theorem keeps_followFrom (h : t.WellFormed) (settings : Settings) (steps : List Step)
    (n : NodeId) : Keeps t (followFrom settings steps n) := by
  unfold followFrom
  refine Meets.bind (.tree rfl) fun u hu => ?_
  subst hu
  split_ifs
  · exact .pure trivial
  · refine .mounted h (fun m _ => ?_) fun _ _ => trivial
    refine Meets.bind (.tree rfl) fun u hu => ?_
    subst hu
    split
    · exact .throw trivial
    · exact .throw trivial
    · next path _ =>
      refine Keeps.bind (.record trivial) fun _ => ?_
      refine Keeps.bind (.ofExcept (fun _ _ => trivial) fun _ _ => trivial) fun found => ?_
      split_ifs
      · exact Keeps.bind (.record trivial) fun _ => .pure trivial
      · exact .pure trivial

/-- A search of a well-formed tree keeps it, whatever it goes on to and whatever stops it. -/
theorem leads_anywhere (h : t.WellFormed) (settings : Settings) :
    Leads t settings (fun _ _ => True) fun _ => True where
  refl _ := trivial
  trans _ _ := trivial
  sibling _ := trivial
  followFrom steps n :=
    (keeps_followFrom h settings steps n).weaken (fun _ _ _ _ => trivial) fun _ _ => trivial

/-- What a selector finds is found without a change of the tree. -/
theorem keeps_find (h : t.WellFormed) (settings : Settings) (selector : Selector)
    (nodes : List NodeId) : Keeps t (find settings selector nodes) :=
  (reaches_find (leads_anywhere h settings) selector nodes).keeps

/-- What a selector keeps is kept without a change of the tree. -/
theorem keeps_keep (h : t.WellFormed) (settings : Settings) (selector : Selector)
    (nodes : List NodeId) : Keeps t (keep settings selector nodes) :=
  (subset_keep (leads_anywhere h settings) selector nodes).keeps

end TreeQuery.Query
