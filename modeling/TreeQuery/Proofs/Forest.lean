import TreeQuery.Proofs.Reachable

/-!
# Moves in an ordered forest

Seen without its links upwards and sideways, a tree is an ordered forest: each node has a list of
children, and a move takes one node out of the list that it is in and puts it into one at a given
place (`Move.carriedOut`). Edits of a tree do that and nothing else, and they succeed exactly where
the move makes sense (`Move.Allowed`): `moves_refine_forest` is about one move, and `forest_of_run`
about a sequence of them.

The proof takes the two halves of a move from `TakenOut` and `PutIn`. What is left to show is that
the places of the new list which these two speak of are those that the move names.
-/

namespace TreeQuery

/-- The children of each node, in order. -/
abbrev Forest :=
  NodeId → List NodeId

namespace Forest

/-- The forest in which a node is in no list. -/
def without (forest : Forest) (c : NodeId) : Forest :=
  fun n => (forest n).filter (· != c)

/-- The forest in which a node stands last in the list of another. -/
def withLast (forest : Forest) (p c : NodeId) : Forest :=
  fun n => if n = p then forest n ++ [c] else forest n

/-- The forest in which a node stands in the list of another, immediately in front of `r`. -/
def withBefore (forest : Forest) (p c r : NodeId) : Forest :=
  fun n =>
    if n = p then (forest n).takeWhile (· != r) ++ c :: (forest n).dropWhile (· != r)
    else forest n

/-- In a list cut at the first `r`, what is put in front of `r` stands between the two parts. -/
theorem withBefore_self {forest : Forest} {p r : NodeId} {before after : List NodeId}
    (hlist : forest p = before ++ r :: after) (hr : r ∉ before) (c : NodeId) :
    forest.withBefore p c r p = before ++ c :: r :: after := by
  have hbefore : ∀ n ∈ before, (n != r) = true :=
    fun n hn => bne_iff_ne.mpr fun heq => hr (heq ▸ hn)
  have hstop : (r != r) = false := bne_self_eq_false r
  rw [withBefore, if_pos rfl, hlist, List.takeWhile_append_of_pos hbefore,
    List.dropWhile_append_of_pos hbefore, List.takeWhile_cons, List.dropWhile_cons, hstop]
  simp

end Forest

/-- A move of one node. -/
inductive Move where
  /-- To the end of the list of another. -/
  | append (parent child : NodeId)
  /-- To the place in front of a child of another. -/
  | insertBefore (parent child reference : NodeId)
  /-- Out of the list of its parent, which is named. -/
  | removeChild (parent child : NodeId)
  /-- Out of whichever list it is in. -/
  | detach (child : NodeId)

namespace Move

/-- The node that moves. -/
def child : Move → NodeId
  | append _ c | insertBefore _ c _ | removeChild _ c | detach c => c

/-- The parent that the node has afterwards. -/
def parent? : Move → Option NodeId
  | append p _ | insertBefore p _ _ => some p
  | removeChild _ _ | detach _ => none

/-- What a move does to the lists of children. -/
def carriedOut (forest : Forest) : Move → Forest
  | append p c => (forest.without c).withLast p c
  | insertBefore p c r => (forest.without c).withBefore p c r
  | removeChild _ c | detach c => forest.without c

/-- Where a move makes sense. A node is put only under one that exists, is not the node itself and
does not lie below it, and the document node is put nowhere. -/
def Allowed (t : Tree) : Move → Prop
  | append p c => t.Insertable p c
  | insertBefore p c r => t.Insertable p c ∧ t.parent? r = some p ∧ r ≠ c
  | removeChild p c => c ∈ t.children p
  | detach c => c < t.size

/-- The edit that makes a move in a tree. -/
def attempt (t : Tree) : Move → Attempt
  | append p c => .ofExcept t (t.append p c)
  | insertBefore p c r => t.insertBefore p c r
  | removeChild p c => .ofExcept t (t.removeChild p c)
  | detach c => .ofExcept t (t.detach c)

/-- The tree after a sequence of moves, if all of them succeed. -/
def run? (t : Tree) : List Move → Option Tree
  | [] => some t
  | move :: moves =>
    if (move.attempt t).error?.isNone then run? (move.attempt t).tree moves else none

end Move

namespace Tree

variable {t u v : Tree} {p c : NodeId}

/-- `u` is `t` after the node `c` has moved to the parent `parent?`, with the lists of `forest`. -/
structure Moved (t u : Tree) (c : NodeId) (parent? : Option NodeId) (forest : Forest) : Prop
    extends SameNodes t u where
  /-- The lists of children are those of the forest. -/
  children : ∀ n : NodeId, u.children n = forest n
  /-- A list that the node neither leaves nor enters is what it was. -/
  children_other : ∀ n : NodeId, t.parent? c ≠ some n → parent? ≠ some n →
    u.children n = t.children n
  /-- The node has its new parent. -/
  parent?_self : u.parent? c = parent?
  /-- Every other node has the parent that it had. -/
  parent?_other : ∀ n : NodeId, n ≠ c → u.parent? n = t.parent? n
  /-- The neighbours of a node in a list are those that the list gives it. -/
  neighbours : ∀ {q n : NodeId} {before after : List NodeId}, forest q = before ++ n :: after →
    u.previous? n = before.getLast? ∧ u.next? n = after.head?
  /-- A node in no list has no neighbours. -/
  free : ∀ {n : NodeId}, (∀ q, n ∉ forest q) → u.previous? n = none ∧ u.next? n = none

/-- Taking a node out of a list takes it out of the forest. -/
theorem TakenOut.children_eq (hu : TakenOut t u c) (h : t.WellFormed) (n : NodeId) :
    u.children n = Forest.without t.children c n := by
  rw [hu.children, (h.nodup_children n).erase_eq_filter, Forest.without]

/-- A tree is moved as a forest says if its links agree with each other and its lists and parents
are right. -/
theorem WellFormed.moved (hu : u.WellFormed) (hsame : SameNodes t u) {parent? : Option NodeId}
    {forest : Forest} (hchildren : ∀ n, u.children n = forest n)
    (hother : ∀ n, t.parent? c ≠ some n → parent? ≠ some n → u.children n = t.children n)
    (hparent : ∀ n, u.parent? n = if n = c then parent? else t.parent? n) :
    Moved t u c parent? forest where
  toSameNodes := hsame
  children := hchildren
  children_other := hother
  parent?_self := by rw [hparent, if_pos rfl]
  parent?_other n hn := by rw [hparent, if_neg hn]
  neighbours hsplit := hu.neighbours ((hchildren _).trans hsplit)
  -- A node that no list has is free in `u`, whose links agree with its lists.
  free := by
    intro n hn
    refine hu.free (Option.eq_none_iff_forall_ne_some.mpr fun q hq => hn q ?_)
    rw [← hchildren]
    exact hu.mem_children.mpr hq

/-- A node that has been taken out has moved out of its list. -/
theorem TakenOut.moved (hu : TakenOut t u c) (h : t.WellFormed) (hwf : u.WellFormed) :
    Moved t u c none (Forest.without t.children c) :=
  hwf.moved hu.toSameNodes (hu.children_eq h) (fun _ hn _ => hu.children_of_ne h hn) hu.parent?

/-- A node that has been taken out and put in has moved to its new place. -/
theorem TakenOut.moved_putIn (hv : TakenOut t v c) (h : t.WellFormed)
    {before after : List NodeId} (hu : PutIn v u p c before after) (hwf : u.WellFormed)
    {forest : Forest} (hp : forest p = before ++ c :: after)
    (hforest : ∀ n, n ≠ p → forest n = Forest.without t.children c n) :
    Moved t u c (some p) forest := by
  refine hwf.moved (hv.toSameNodes.trans hu.toSameNodes) (fun n => ?_) (fun n hold hnew => ?_)
    fun n => ?_
  -- The list that the node enters, and any other one, which may have lost the node.
  · rw [hu.children]
    split_ifs with hn
    · rw [hn, hp]
    · rw [hforest n hn, hv.children_eq h]
  -- A list that the node neither leaves nor enters.
  · have hn : n ≠ p := fun hn => hnew (congrArg some hn.symm)
    rw [hu.children, if_neg hn, hv.children_of_ne h hold]
  -- The parents: the new one for the node, and the old one for each other node.
  · rw [hu.parent?, hv.parent?]
    split_ifs
    · rfl
    · rfl

/-! ## One move -/

/-- A node is appended exactly where it may be put. -/
theorem WellFormed.append_succeeds_iff (h : t.WellFormed) :
    (∃ u, t.append p c = .ok u) ↔ t.Insertable p c := by
  constructor
  · rintro ⟨u, hok⟩
    exact h.insertable_of_append hok
  · intro hins
    obtain ⟨-, u, -, -, hok, -⟩ := h.append_of_insertable hins
    exact ⟨u, hok⟩

/-- Appending a node moves it to the end of the new list. -/
theorem WellFormed.moved_append (h : t.WellFormed) (hok : t.append p c = .ok u) :
    Moved t u c (some p) ((Forest.without t.children c).withLast p c) := by
  obtain ⟨v, w, hv, -, hw, hput, hwf⟩ := h.append_of_insertable (h.insertable_of_append hok)
  obtain rfl := Except.ok.inj (hw.symm.trans hok)
  refine hv.moved_putIn h hput hwf ?_ fun n hn => ?_
  · rw [Forest.withLast, if_pos rfl, hv.children_eq h]
  · rw [Forest.withLast, if_neg hn]

/-- Putting a node in front of another succeeds exactly if it may be put there, the other is a child
of the new parent, and the two are not the same. -/
theorem WellFormed.insertBefore_succeeds_iff (h : t.WellFormed) {r : NodeId} :
    (t.insertBefore p c r).error? = none ↔
      t.Insertable p c ∧ t.parent? r = some p ∧ r ≠ c := by
  rcases h.insertBefore_cases p c r with ⟨e, heq, hnot⟩ | ⟨v, heq, -, -, hrc, -⟩ |
    ⟨-, u, -, -, heq, hins, hr, hrc, -⟩
  · rw [heq]
    exact iff_of_false (fun hnone => nomatch hnone) fun ⟨hins, hr, _⟩ => hnot ⟨hins, hr⟩
  · rw [heq]
    exact iff_of_false (fun hnone => nomatch hnone) fun ⟨_, _, hne⟩ => hne hrc
  · rw [heq]
    exact iff_of_true rfl ⟨hins, hr, hrc⟩

/-- Putting a node in front of another moves it there. -/
theorem WellFormed.moved_insertBefore (h : t.WellFormed) {r : NodeId}
    (hok : (t.insertBefore p c r).error? = none) :
    Moved t (t.insertBefore p c r).tree c (some p)
      ((Forest.without t.children c).withBefore p c r) := by
  rcases h.insertBefore_cases p c r with ⟨e, heq, -⟩ | ⟨v, heq, -⟩ |
    ⟨v, u, before, after, heq, -, -, -, hv, hlist, hput, hwf⟩
  -- The two ways to fail, which `hok` excludes.
  · rw [heq] at hok
    cases hok
  · rw [heq] at hok
    cases hok
  -- The node stands once in the list that it enters, in front of the reference.
  · rw [heq]
    have hnodup : (before ++ r :: after).Nodup := by
      rw [← hlist, hv.children_eq h]
      exact (h.nodup_children p).filter _
    have hr : r ∉ before := fun hr =>
      (List.nodup_append.mp hnodup).2.2 r hr r List.mem_cons_self rfl
    refine hv.moved_putIn h hput hwf (Forest.withBefore_self ?_ hr c) fun n hn => ?_
    · rw [← hv.children_eq h, hlist]
    · rw [Forest.withBefore, if_neg hn]

/-- A node is taken away from another exactly if it is one of its children. -/
theorem WellFormed.removeChild_succeeds_iff (h : t.WellFormed) :
    (∃ u, t.removeChild p c = .ok u) ↔ c ∈ t.children p := by
  constructor
  · rintro ⟨u, hok⟩
    exact mem_children_of_removeChild hok
  · intro hc
    obtain ⟨u, hok, -⟩ := h.takenOut_removeChild (h.mem_children.mp hc)
    exact ⟨u, hok⟩

/-- Taking a child away moves it out of its list. -/
theorem WellFormed.moved_removeChild (h : t.WellFormed) (hok : t.removeChild p c = .ok u) :
    Moved t u c none (Forest.without t.children c) := by
  obtain ⟨v, hv, hout, hwf⟩ :=
    h.takenOut_removeChild (h.mem_children.mp (mem_children_of_removeChild hok))
  obtain rfl := Except.ok.inj (hv.symm.trans hok)
  exact hout.moved h hwf

/-- A node is detached exactly if it is a node of the tree. -/
theorem WellFormed.detach_succeeds_iff (h : t.WellFormed) :
    (∃ u, t.detach c = .ok u) ↔ c < t.size := by
  constructor
  · rintro ⟨u, hok⟩
    exact lt_size_of_detach hok
  · intro hc
    obtain ⟨u, hok, -⟩ := h.takenOut_detach hc
    exact ⟨u, hok⟩

/-- Detaching a node moves it out of its list. -/
theorem WellFormed.moved_detach (h : t.WellFormed) (hok : t.detach c = .ok u) :
    Moved t u c none (Forest.without t.children c) := by
  obtain ⟨v, hv, hout, hwf⟩ := h.takenOut_detach (lt_size_of_detach hok)
  obtain rfl := Except.ok.inj (hv.symm.trans hok)
  exact hout.moved h hwf

end Tree

/-- The attempt at an edit succeeds if the edit does. -/
theorem Attempt.error?_ofExcept {t : Tree} {x : Except TreeError Tree} :
    (Attempt.ofExcept t x).error? = none ↔ ∃ u, x = .ok u := by
  cases x with
  | error e => exact iff_of_false (fun hnone => nomatch hnone) fun ⟨_, hok⟩ => nomatch hok
  | ok u => exact iff_of_true rfl ⟨u, rfl⟩

/-- What an edit promises if it succeeds holds of what the attempt at it leaves. -/
theorem Attempt.tree_ofExcept {t : Tree} {x : Except TreeError Tree} {motive : Tree → Prop}
    (hx : ∀ u, x = .ok u → motive u) (hok : (Attempt.ofExcept t x).error? = none) :
    motive (Attempt.ofExcept t x).tree := by
  obtain ⟨u, rfl⟩ := error?_ofExcept.mp hok
  exact hx u rfl

namespace Move

open TreeQuery.Tree

variable {t u : Tree}

/-- The edit that makes a move succeeds exactly where the move makes sense. -/
theorem succeeds_iff (h : t.WellFormed) (move : Move) :
    (move.attempt t).error? = none ↔ move.Allowed t := by
  cases move with
  | append p c => exact Attempt.error?_ofExcept.trans h.append_succeeds_iff
  | insertBefore p c r => exact h.insertBefore_succeeds_iff
  | removeChild p c => exact Attempt.error?_ofExcept.trans h.removeChild_succeeds_iff
  | detach c => exact Attempt.error?_ofExcept.trans h.detach_succeeds_iff

/-- The edit that makes a move does to the forest what the move does. -/
theorem moved_attempt (h : t.WellFormed) (move : Move) (hok : (move.attempt t).error? = none) :
    Moved t (move.attempt t).tree move.child move.parent? (move.carriedOut t.children) := by
  cases move with
  | append p c =>
    exact Attempt.tree_ofExcept
      (motive := (Moved t · c (some p) ((Forest.without t.children c).withLast p c)))
      (fun _ => h.moved_append) hok
  | insertBefore p c r => exact h.moved_insertBefore hok
  | removeChild p c =>
    exact Attempt.tree_ofExcept (motive := (Moved t · c none (Forest.without t.children c)))
      (fun _ => h.moved_removeChild) hok
  | detach c =>
    exact Attempt.tree_ofExcept (motive := (Moved t · c none (Forest.without t.children c)))
      (fun _ => h.moved_detach) hok

/-- The edit that makes a move leaves a well-formed tree. -/
theorem wellFormed_attempt (h : t.WellFormed) (move : Move) :
    (move.attempt t).tree.WellFormed := by
  have hofExcept : ∀ {x : Except TreeError Tree}, (∀ u, x = .ok u → u.WellFormed) →
      (Attempt.ofExcept t x).tree.WellFormed := by
    intro x hx
    cases x with
    | error e => exact h
    | ok u => exact hx u rfl
  cases move with
  | append p c => exact hofExcept fun _ => h.append
  | insertBefore p c r => exact h.insertBefore p c r
  | removeChild p c => exact hofExcept fun _ => h.removeChild
  | detach c => exact hofExcept fun _ => h.detach

/-- Moves that all succeed do to the forest, one after the other, what the moves do. -/
theorem forest_of_run (h : t.WellFormed) {moves : List Move} (hrun : run? t moves = some u) :
    u.WellFormed ∧ SameNodes t u ∧ ∀ n, u.children n = moves.foldl carriedOut t.children n := by
  induction moves generalizing t with
  | nil =>
    obtain rfl := Option.some.inj hrun
    exact ⟨h, .refl _, fun _ => rfl⟩
  | cons move moves ih =>
    rw [run?] at hrun
    split_ifs at hrun with hok
    have hmoved := moved_attempt h move (Option.isNone_iff_eq_none.mp hok)
    have hforest : (move.attempt t).tree.children = move.carriedOut t.children :=
      funext hmoved.children
    obtain ⟨hwf, hsame, hchildren⟩ := ih (wellFormed_attempt h move) hrun
    refine ⟨hwf, hmoved.toSameNodes.trans hsame, fun n => ?_⟩
    rw [hchildren, hforest, List.foldl_cons]

end Move

/-- In a well-formed tree an edit succeeds exactly where the move that it makes makes sense. It then
takes the node out of its old list, puts it into the new one at the place that is named, and changes
no other list, no other node's parent and no data, and the neighbours are those of the new lists. -/
theorem Move.moves_refine_forest {t : Tree} (h : t.WellFormed) (move : Move) :
    ((move.attempt t).error? = none ↔ move.Allowed t) ∧
      ((move.attempt t).error? = none →
        t.Moved (move.attempt t).tree move.child move.parent? (move.carriedOut t.children)) :=
  ⟨move.succeeds_iff h, move.moved_attempt h⟩

/-- For one, the last of three children is put in front of the first, and not in front of itself. -/
theorem Move.moves_refine_forest_sameParent :
    let t := Edit.run (.empty .html)
      [.createElement "ul" [], .createElement "li" [], .createElement "li" [],
        .createElement "li" [], .append 1 2, .append 1 3, .append 1 4]
    t.WellFormed ∧ (Move.insertBefore 1 4 2).Allowed t ∧ ¬ (Move.insertBefore 1 4 4).Allowed t ∧
      ((Move.insertBefore 1 4 2).attempt t).tree.children 1 = [4, 2, 3] ∧
      ((Move.insertBefore 1 4 2).attempt t).tree.next? 4 = some 2 := by
  intro t
  have h : t.WellFormed := Edit.wellFormed_run (Tree.wellFormed_empty .html) _
  have hok : ((Move.insertBefore 1 4 2).attempt t).error? = none := by decide
  have hmoved := (moves_refine_forest h (.insertBefore 1 4 2)).2 hok
  refine ⟨h, (moves_refine_forest h _).1.mp hok, ?_, ?_, ?_⟩
  · rw [← (moves_refine_forest h _).1]
    decide
  · exact (hmoved.children 1).trans (by decide)
  · have hlist : (Move.insertBefore 1 4 2).carriedOut t.children 1 = [] ++ 4 :: [2, 3] := by decide
    exact (hmoved.neighbours hlist).2

end TreeQuery
