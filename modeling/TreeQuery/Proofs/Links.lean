import TreeQuery.Proofs.WellFormed

/-!
# Links after a change of single nodes

The edits of `Tree.Edit` are made of two steps: a change of one node (`modify`), and setting the
neighbours of a run of siblings (`linkRun`). This module says what each of them does to each link of
each node. `neighbours_relink` is the statement that the edits rely on: after `relink` the children
of a node have the neighbours that the list of children gives them.
-/

namespace TreeQuery.Tree

variable {t : Tree}

/-! ## One node -/

/-- A change of one node changes no other. -/
theorem getElem?_modify (t : Tree) (n : NodeId) (f : Node → Node) (m : NodeId) :
    (t.modify n f).nodes[m]? = if n = m then t.nodes[m]?.map f else t.nodes[m]? :=
  Array.getElem?_modify

/-- To change a node leaves the flavour of the tree as it is. -/
@[simp] theorem flavour_modify (t : Tree) (n : NodeId) (f : Node → Node) :
    (t.modify n f).flavour = t.flavour :=
  rfl

/-- To change a node leaves the number of nodes as it is. -/
@[simp] theorem size_modify (t : Tree) (n : NodeId) (f : Node → Node) :
    (t.modify n f).size = t.size :=
  Array.size_modify

/-- A part of a node that a change keeps is the same in all nodes afterwards. -/
theorem map_getElem?_modify {α : Type} {f : Node → Node} {part : Node → α}
    (hf : ∀ node, part (f node) = part node) (t : Tree) (n m : NodeId) :
    (t.modify n f).nodes[m]?.map part = t.nodes[m]?.map part := by
  rw [getElem?_modify]
  split
  · rw [Option.map_map]
    exact congrArg (Option.map · t.nodes[m]?) (funext hf)
  · rfl

/-- A link that a change keeps is the same in all nodes afterwards. -/
theorem bind_getElem?_modify {α : Type} {f : Node → Node} {link : Node → Option α}
    (hf : ∀ node, link (f node) = link node) (t : Tree) (n m : NodeId) :
    (t.modify n f).nodes[m]?.bind link = t.nodes[m]?.bind link := by
  rw [getElem?_modify]
  split
  · rw [Option.bind_map]
    exact congrArg (Option.bind t.nodes[m]?) (funext hf)
  · rfl

/-- A link that a change sets is what it sets it to in that node, and as before in the others. -/
theorem bind_getElem?_modify_set {α : Type} {f : Node → Node} {link : Node → Option α}
    {v : Option α} (hf : ∀ node, link (f node) = v) {n : NodeId} (hn : n < t.size) (m : NodeId) :
    (t.modify n f).nodes[m]?.bind link = if m = n then v else t.nodes[m]?.bind link := by
  rw [getElem?_modify]
  by_cases h : m = n
  · subst h
    have hm : t.nodes[m]? = some t.nodes[m] := Array.getElem?_eq_getElem hn
    rw [if_pos rfl, if_pos rfl, hm]
    exact hf _
  · rw [if_neg (Ne.symm h), if_neg h]

/-- A change that keeps the data of a node keeps the data of all nodes. -/
@[simp] theorem data?_modify {f : Node → Node} (hf : ∀ node, (f node).data = node.data)
    (t : Tree) (n m : NodeId) : (t.modify n f).data? m = t.data? m :=
  map_getElem?_modify hf t n m

/-- A change that keeps the parent of a node keeps the parents of all nodes. -/
@[simp] theorem parent?_modify {f : Node → Node} (hf : ∀ node, (f node).parent = node.parent)
    (t : Tree) (n m : NodeId) : (t.modify n f).parent? m = t.parent? m :=
  bind_getElem?_modify hf t n m

/-- A change that keeps the children of a node keeps the children of all nodes. -/
@[simp] theorem children_modify {f : Node → Node}
    (hf : ∀ node, (f node).children = node.children) (t : Tree) (n m : NodeId) :
    (t.modify n f).children m = t.children m :=
  congrArg (Option.getD · []) (map_getElem?_modify hf t n m)

/-- A change that keeps the previous sibling of a node keeps those of all nodes. -/
@[simp] theorem previous?_modify {f : Node → Node}
    (hf : ∀ node, (f node).previous = node.previous) (t : Tree) (n m : NodeId) :
    (t.modify n f).previous? m = t.previous? m :=
  bind_getElem?_modify hf t n m

/-- A change that keeps the next sibling of a node keeps those of all nodes. -/
@[simp] theorem next?_modify {f : Node → Node} (hf : ∀ node, (f node).next = node.next)
    (t : Tree) (n m : NodeId) : (t.modify n f).next? m = t.next? m :=
  bind_getElem?_modify hf t n m

/-- The lists of children after one of them has been changed. -/
theorem children_modify_list {n : NodeId} (hn : n < t.size) (g : List NodeId → List NodeId)
    (m : NodeId) :
    (t.modify n fun node => { node with children := g node.children }).children m =
      if m = n then g (t.children n) else t.children m := by
  rw [children, getElem?_modify]
  by_cases h : m = n
  · subst h
    have hm : t.nodes[m]? = some t.nodes[m] := Array.getElem?_eq_getElem hn
    rw [if_pos rfl, if_pos rfl, children, hm]
    rfl
  · rw [if_neg (Ne.symm h), if_neg h, children]

/-! ## A list and a place

An edit changes the list of children of one node and then the place of another. -/

/-- The lists of children are changed by the first of the two changes. -/
theorem children_modify_modify {p c : NodeId} (hp : p < t.size) (g : List NodeId → List NodeId)
    {f : Node → Node} (hf : ∀ node, (f node).children = node.children) (n : NodeId) :
    ((t.modify p fun node => { node with children := g node.children }).modify c f).children n =
      if n = p then g (t.children p) else t.children n := by
  rw [children_modify hf, children_modify_list hp]

/-- A link that the first change keeps and the second sets is what it is set to in that node, and as
before in the others. -/
theorem bind_getElem?_modify_modify {α : Type} (link : Node → Option α) {f g : Node → Node}
    {v : Option α} {p c : NodeId} (hc : c < t.size) (hg : ∀ node, link (g node) = link node)
    (hf : ∀ node, link (f node) = v) (n : NodeId) :
    ((t.modify p g).modify c f).nodes[n]?.bind link =
      if n = c then v else t.nodes[n]?.bind link := by
  have hsize : c < (t.modify p g).size := (size_modify t p g).symm ▸ hc
  rw [bind_getElem?_modify_set hf hsize, bind_getElem?_modify hg]

/-! ## A run of siblings -/

/-- The neighbours after those of one node have been set. -/
theorem neighbours_modify {n : NodeId} (hn : n < t.size) (previous next : Option NodeId)
    (m : NodeId) :
    (t.modify n fun node => { node with previous, next }).previous? m =
        (if m = n then previous else t.previous? m) ∧
      (t.modify n fun node => { node with previous, next }).next? m =
        if m = n then next else t.next? m :=
  ⟨bind_getElem?_modify_set (v := previous) (fun _ => rfl) hn m,
    bind_getElem?_modify_set (v := next) (fun _ => rfl) hn m⟩

/-- Linking a run leaves the flavour of the tree as it is. -/
@[simp] theorem flavour_linkRun (t : Tree) (previous : Option NodeId) (run : List NodeId) :
    (t.linkRun previous run).flavour = t.flavour := by
  induction run generalizing t previous with
  | nil => rfl
  | cons n rest ih => rw [linkRun, ih, flavour_modify]

/-- Linking a run leaves the number of nodes as it is. -/
@[simp] theorem size_linkRun (t : Tree) (previous : Option NodeId) (run : List NodeId) :
    (t.linkRun previous run).size = t.size := by
  induction run generalizing t previous with
  | nil => rfl
  | cons n rest ih => rw [linkRun, ih, size_modify]

/-- Linking a run leaves the data as they are. -/
@[simp] theorem data?_linkRun (t : Tree) (previous : Option NodeId) (run : List NodeId)
    (m : NodeId) : (t.linkRun previous run).data? m = t.data? m := by
  induction run generalizing t previous with
  | nil => rfl
  | cons n rest ih =>
    rw [linkRun, ih, data?_modify]
    exact fun _ => rfl

/-- Linking a run leaves the parents as they are. -/
@[simp] theorem parent?_linkRun (t : Tree) (previous : Option NodeId) (run : List NodeId)
    (m : NodeId) : (t.linkRun previous run).parent? m = t.parent? m := by
  induction run generalizing t previous with
  | nil => rfl
  | cons n rest ih =>
    rw [linkRun, ih, parent?_modify]
    exact fun _ => rfl

/-- Linking a run leaves the lists of children as they are. -/
@[simp] theorem children_linkRun (t : Tree) (previous : Option NodeId) (run : List NodeId)
    (m : NodeId) : (t.linkRun previous run).children m = t.children m := by
  induction run generalizing t previous with
  | nil => rfl
  | cons n rest ih =>
    rw [linkRun, ih, children_modify]
    exact fun _ => rfl

/-- Linking a run leaves the neighbours of all other nodes alone. -/
theorem neighbours_linkRun_of_not_mem {run : List NodeId} (hlt : ∀ m ∈ run, m < t.size)
    (previous : Option NodeId) {n : NodeId} (hn : n ∉ run) :
    (t.linkRun previous run).previous? n = t.previous? n ∧
      (t.linkRun previous run).next? n = t.next? n := by
  -- The first node of the run is linked, and then the others in the tree that results.
  induction run generalizing t previous with
  | nil => exact ⟨rfl, rfl⟩
  | cons a rest ih =>
    rw [List.mem_cons, not_or] at hn
    obtain ⟨hna, hrest⟩ := hn
    have hlt' : ∀ m ∈ rest, m < (t.modify a fun node =>
        { node with previous, next := rest.head? }).size := fun m hm =>
      (size_modify t a _).symm ▸ hlt m (List.mem_cons_of_mem _ hm)
    obtain ⟨hp, hn⟩ := neighbours_modify (hlt a List.mem_cons_self) previous rest.head? n
    rw [if_neg hna] at hp hn
    rw [linkRun, (ih hlt' (some a) hrest).1, (ih hlt' (some a) hrest).2]
    exact ⟨hp, hn⟩

/-- Linking a run gives each of its nodes the neighbours that it has in the run. The first node has
`previous` before it. -/
theorem neighbours_linkRun {run before after : List NodeId} {n : NodeId}
    (hlt : ∀ m ∈ run, m < t.size) (hnodup : run.Nodup) (previous : Option NodeId)
    (hsplit : run = before ++ n :: after) :
    (t.linkRun previous run).previous? n = (previous.toList ++ before).getLast? ∧
      (t.linkRun previous run).next? n = after.head? := by
  induction run generalizing t previous before with
  | nil => simp at hsplit
  | cons a rest ih =>
    obtain ⟨ha, hrest⟩ := List.nodup_cons.mp hnodup
    have hlt' : ∀ m ∈ rest, m < (t.modify a fun node =>
        { node with previous, next := rest.head? }).size := fun m hm =>
      (size_modify t a _).symm ▸ hlt m (List.mem_cons_of_mem _ hm)
    rw [linkRun]
    cases before with
    | nil =>
      -- The node is the first of the run, and the steps behind it leave it alone.
      obtain ⟨rfl, rfl⟩ := List.cons.inj hsplit
      obtain ⟨hprevious, hnext⟩ := neighbours_linkRun_of_not_mem hlt' (some a) ha
      obtain ⟨hp, hn⟩ := neighbours_modify (hlt a List.mem_cons_self) previous rest.head? a
      rw [if_pos rfl] at hp hn
      rw [hprevious, hnext, hp, hn, List.append_nil]
      refine ⟨?_, rfl⟩
      cases previous <;> rfl
    | cons b front =>
      obtain ⟨rfl, hfront⟩ := List.cons.inj hsplit
      obtain ⟨hprevious, hnext⟩ := ih hlt' hrest (some a) hfront
      rw [hprevious, hnext]
      refine ⟨?_, rfl⟩
      -- What stands before the first node of the run does not matter here.
      cases previous <;> rfl

/-! ## The same nodes -/

/-- `u` has the nodes of `t`, with the same data. -/
structure SameNodes (t u : Tree) : Prop where
  /-- The kind of markup is the same. -/
  flavour : u.flavour = t.flavour
  /-- There are as many nodes. -/
  size : u.size = t.size
  /-- Each node is what it was. -/
  data? : ∀ n : NodeId, u.data? n = t.data? n

namespace SameNodes

variable {u v : Tree}

/-- A tree has the nodes that it has. -/
theorem refl (t : Tree) : SameNodes t t :=
  ⟨rfl, rfl, fun _ => rfl⟩

/-- The nodes stay the same from tree to tree. -/
theorem trans (htu : SameNodes t u) (huv : SameNodes u v) : SameNodes t v where
  flavour := huv.flavour.trans htu.flavour
  size := huv.size.trans htu.size
  data? n := (huv.data? n).trans (htu.data? n)

/-- A change of the links of one node keeps all nodes. -/
theorem modify (htu : SameNodes t u) {f : Node → Node} (hf : ∀ node, (f node).data = node.data)
    (n : NodeId) : SameNodes t (u.modify n f) :=
  htu.trans ⟨flavour_modify u n f, size_modify u n f, data?_modify hf u n⟩

/-- Setting the neighbours of siblings keeps all nodes. -/
theorem relink (htu : SameNodes t u) (p : NodeId) : SameNodes t (u.relink p) :=
  htu.trans ⟨flavour_linkRun u none _, size_linkRun u none _, data?_linkRun u none _⟩

end SameNodes

/-! ## The children of a node -/

/-- Linking the children of a node again leaves the parents as they are. -/
@[simp] theorem parent?_relink (t : Tree) (p n : NodeId) :
    (t.relink p).parent? n = t.parent? n :=
  parent?_linkRun t none _ n

/-- Linking the children of a node again leaves the lists as they are. -/
@[simp] theorem children_relink (t : Tree) (p n : NodeId) :
    (t.relink p).children n = t.children n :=
  children_linkRun t none _ n

/-- Afterwards the children of the node have the neighbours that the list gives them. -/
theorem neighbours_relink {p n : NodeId} {before after : List NodeId}
    (hlt : ∀ m ∈ t.children p, m < t.size) (hnodup : (t.children p).Nodup)
    (hsplit : t.children p = before ++ n :: after) :
    (t.relink p).previous? n = before.getLast? ∧ (t.relink p).next? n = after.head? :=
  neighbours_linkRun hlt hnodup none hsplit

/-- The neighbours of all other nodes are as before. -/
theorem neighbours_relink_of_not_mem {p n : NodeId} (hlt : ∀ m ∈ t.children p, m < t.size)
    (hn : n ∉ t.children p) :
    (t.relink p).previous? n = t.previous? n ∧ (t.relink p).next? n = t.next? n :=
  neighbours_linkRun_of_not_mem hlt none hn

/-! ## Putting a node last -/

section LinkLast

variable {p c : NodeId}

/-- Linking a node as the last child changes no data. -/
theorem sameNodes_linkLast (t : Tree) (p c : NodeId) : SameNodes t (t.linkLast p c) := by
  unfold linkLast
  dsimp only
  split
  · refine (((SameNodes.refl t).modify ?_ p).modify ?_ c).modify ?_ _
    · exact fun _ => rfl
    · exact fun _ => rfl
    · exact fun _ => rfl
  · refine ((SameNodes.refl t).modify ?_ p).modify ?_ c
    · exact fun _ => rfl
    · exact fun _ => rfl

/-- The list of the parent gets longer by the node. -/
theorem children_linkLast (hp : p < t.size) (c n : NodeId) :
    (t.linkLast p c).children n = if n = p then t.children p ++ [c] else t.children n := by
  unfold linkLast
  dsimp only
  split
  · rw [children_modify]
    · refine children_modify_modify hp (· ++ [c]) ?_ n
      exact fun _ => rfl
    · exact fun _ => rfl
  · refine children_modify_modify hp (· ++ [c]) ?_ n
    exact fun _ => rfl

/-- A link other than the one to the next sibling is what the node's new place says. -/
theorem bind_getElem?_linkLast {α : Type} (link : Node → Option α) {v : Option α}
    (hc : c < t.size) (hlist : ∀ node list, link { node with children := list } = link node)
    (hplace : ∀ node : Node,
      link { node with parent := some p, previous := (t.children p).getLast?, next := none } = v)
    (hnext : ∀ node, link { node with next := some c } = link node) (n : NodeId) :
    (t.linkLast p c).nodes[n]?.bind link = if n = c then v else t.nodes[n]?.bind link := by
  have hplaced := bind_getElem?_modify_modify (p := p) link hc
    (fun node => hlist node (node.children ++ [c])) hplace n
  unfold linkLast
  dsimp only
  split
  · rw [bind_getElem?_modify hnext]
    exact hplaced
  · exact hplaced

/-- The node gets its parent. -/
theorem parent?_linkLast (hc : c < t.size) (p n : NodeId) :
    (t.linkLast p c).parent? n = if n = c then some p else t.parent? n :=
  bind_getElem?_linkLast (·.parent) hc (fun _ _ => rfl) (fun _ => rfl) (fun _ => rfl) n

/-- What was last stands before the node. -/
theorem previous?_linkLast (hc : c < t.size) (p n : NodeId) :
    (t.linkLast p c).previous? n = if n = c then (t.children p).getLast? else t.previous? n :=
  bind_getElem?_linkLast (·.previous) hc (fun _ _ => rfl) (fun _ => rfl) (fun _ => rfl) n

/-- The node stands after what was last. -/
theorem next?_linkLast (hc : c < t.size) (hlast : ∀ l ∈ t.children p, l < t.size) (n : NodeId) :
    (t.linkLast p c).next? n =
      if (t.children p).getLast? = some n then some c
      else if n = c then none else t.next? n := by
  unfold linkLast
  dsimp only
  split
  -- Three nodes are changed: the list of the parent, the links of the node, and the link of the
  -- child that was last.
  · next l hl =>
    have hlt : l < t.size := hlast l (List.mem_of_getLast? hl)
    simp only [hl, Option.some.injEq, eq_comm (a := l)]
    refine (bind_getElem?_modify_set (v := some c) ?_ ?_ n).trans ?_
    · exact fun _ => rfl
    · rwa [size_modify, size_modify]
    · congr 1
      refine bind_getElem?_modify_modify (·.next) hc ?_ ?_ n
      · exact fun _ => rfl
      · exact fun _ => rfl
  -- No child was last, so that only the first two are changed.
  · next hl =>
    rw [hl, if_neg (by simp)]
    refine bind_getElem?_modify_modify (·.next) hc ?_ ?_ n
    · exact fun _ => rfl
    · exact fun _ => rfl

end LinkLast

end TreeQuery.Tree
