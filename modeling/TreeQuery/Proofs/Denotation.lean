import Mathlib.Data.Set.Card
import TreeQuery.Proofs.Positional
import TreeQuery.Proofs.Reachable
import TreeQuery.Proofs.SimpleTests

/-!
# What a path denotes

A path denotes a set of nodes. `LocationPath.nodeSet` says which, without the lists that an
evaluation goes through: a step leads from several nodes to the union of the sets that it leads to
from each of them, a predicate leaves a part of a set of siblings, and the place of a node is the
number of the siblings in that set up to the node. `evaluate_denotes` says that the evaluation of a
path gives the members of the set, each once, and that it fails only where there is no node to start
from.
-/

namespace TreeQuery

variable {t : Tree}

/-! ## Names -/

/-- Two names are the same letter by letter, or in HTML up to the case of ASCII letters. -/
def Tree.NamesAgree (t : Tree) (actual wanted : String) : Prop :=
  actual = wanted ∨
    t.flavour = .html ∧ Text.asciiLower actual.toList = Text.asciiLower wanted.toList

/-- The comparison of names finds out whether they agree. -/
theorem Tree.sameName_iff {actual wanted : String} :
    t.sameName actual wanted = true ↔ t.NamesAgree actual wanted := by
  have hlower : Text.sameName actual wanted = true ↔
      Text.asciiLower actual.toList = Text.asciiLower wanted.toList := beq_iff_eq
  unfold sameName Flavour.sameName NamesAgree
  cases t.flavour with
  -- Names in HTML are compared without regard to the case of ASCII letters.
  | html =>
    show Text.sameName actual wanted = true ↔ _
    rw [hlower]
    constructor
    · exact fun heq => .inr ⟨rfl, heq⟩
    · rintro (rfl | ⟨-, heq⟩)
      · rfl
      · exact heq
  -- In the other flavours names agree only if they are the same.
  | xhtml =>
    show (actual == wanted) = true ↔ _
    simp
  | xml =>
    show (actual == wanted) = true ↔ _
    simp

/-- An element has the name that a test asks for. -/
def NameTest.Fits (t : Tree) (element : Element) : NameTest → Prop
  | any => True
  | named name => t.NamesAgree element.tagName name
  | localName name => t.NamesAgree element.localName name
  | qualified qualifier name =>
    ':' ∉ qualifier.toList ∧ element.tagName = qualifier ++ ":" ++ name

/-- A node is an element that has the name that a test asks for. -/
def NameTest.Names (t : Tree) (test : NameTest) (n : NodeId) : Prop :=
  ∃ element, t.data? n = some (.element element) ∧ test.Fits t element

/-- Off the axis `self`, the nodes that pass a test are the elements of that name. -/
theorem Tree.passes_false_iff_names {test : NameTest} {n : NodeId} :
    t.passes false test n = true ↔ test.Names t n := by
  unfold passes NameTest.Names
  simp only [← element?_eq_some_iff]
  cases t.element? n with
  | none => simp
  | some element =>
    simp only [Option.some.injEq, exists_eq_left']
    cases test with
    | any => exact iff_of_true rfl trivial
    | named name => exact sameName_iff
    | localName name => exact sameName_iff
    | qualified qualifier name =>
      rw [Bool.and_eq_true, beq_iff_eq, beq_iff_eq]
      exact Element.parts_iff

/-- On the axis `self` every node passes the test `any` as well. -/
theorem Tree.passes_true_iff_names {test : NameTest} {n : NodeId} :
    t.passes true test n = true ↔ test = .any ∨ test.Names t n := by
  rw [← passes_false_iff_names]
  unfold passes
  cases t.element? n with
  | none => simp
  | some element =>
    refine ⟨.inr, ?_⟩
    rintro (rfl | hpass)
    · rfl
    · exact hpass

/-! ## Sets of nodes -/

/-- A node stands before another in a list of children. -/
def Tree.Precedes (t : Tree) (m n : NodeId) : Prop :=
  ∃ p, [m, n].Sublist (t.children p)

/-- What a predicate leaves of a set of siblings. It counts the siblings in the set from the first
one up to a node to find the place of the node. -/
def Predicate.leaves (t : Tree) (nodes : Set NodeId) : Predicate → Set NodeId
  | hasAttribute name => {n ∈ nodes | ∃ value, t.attribute? n name = some value}
  | attributeIs name value => {n ∈ nodes | t.attribute? n name = some value}
  | position k => {n ∈ nodes | {m ∈ nodes | m = n ∨ t.Precedes m n}.ncard = k}

namespace Step

/-- What the predicates of a step leave of a set of siblings, from left to right. -/
def leaves (t : Tree) (step : Step) (nodes : Set NodeId) : Set NodeId :=
  step.predicates.foldl (Predicate.leaves t) nodes

/-- The children of a node that a step selects. -/
def amongChildren (t : Tree) (step : Step) (p : NodeId) : Set NodeId :=
  step.leaves t {c | t.parent? c = some p ∧ step.test.Names t c}

/-- The nodes that a step leads to from a node. -/
def nodeSet (t : Tree) (step : Step) (n : NodeId) : Set NodeId :=
  match step.axis with
  | .self => step.leaves t {m | m = n ∧ (step.test = .any ∨ step.test.Names t m)}
  | .child => step.amongChildren t n
  | .descendant => ⋃ p ∈ {p | p = n ∨ t.Above n p}, step.amongChildren t p

end Step

/-- The nodes that a path leads to: from the node to start from, each step leads to the union of
what it leads to from the nodes at hand. -/
def LocationPath.nodeSet (t : Tree) (path : LocationPath) (context : NodeId) : Set NodeId :=
  path.steps.foldl (fun nodes step => ⋃ n ∈ nodes, step.nodeSet t n)
    {if path.absolute then .document else context}

namespace Tree

/-! ## Places -/

/-- A list of siblings in their order. -/
def SiblingOrder (t : Tree) (nodes : List NodeId) : Prop :=
  nodes.Nodup ∧ nodes.Pairwise t.Precedes

/-- A part of a list of siblings is in order as well. -/
theorem SiblingOrder.sublist {nodes part : List NodeId} (h : t.SiblingOrder nodes)
    (hpart : part.Sublist nodes) : t.SiblingOrder part :=
  ⟨h.1.sublist hpart, h.2.sublist hpart⟩

/-- The children of a node are listed in their order. -/
theorem WellFormed.siblingOrder_children (h : t.WellFormed) (p : NodeId) :
    t.SiblingOrder (t.children p) :=
  ⟨h.nodup_children p, List.pairwise_iff_forall_sublist.mpr fun hxy => ⟨p, hxy⟩⟩

/-- One node is in order. -/
theorem siblingOrder_singleton (n : NodeId) : t.SiblingOrder [n] :=
  ⟨List.nodup_singleton n, List.pairwise_singleton _ n⟩

/-- Of two siblings only one stands before the other. -/
theorem WellFormed.precedes_asymm (h : t.WellFormed) {x y : NodeId} (hxy : t.Precedes x y) :
    ¬ t.Precedes y x := by
  rintro ⟨q, hyx⟩
  obtain ⟨p, hxy⟩ := hxy
  -- Both lists are the list of the parent of `x`.
  have hp := h.mem_children.mp (hxy.subset List.mem_cons_self)
  have hq := h.mem_children.mp (hyx.subset (List.mem_cons_of_mem _ List.mem_cons_self))
  obtain rfl := Option.some.inj (hp.symm.trans hq)
  have hlt := idxOf_lt_idxOf (h.nodup_children p) hxy
  exact Nat.lt_asymm hlt (idxOf_lt_idxOf (h.nodup_children p) hyx)

/-- The siblings in a list up to a member are those in front of it and the member itself. -/
theorem WellFormed.upTo_eq (h : t.WellFormed) {before after : List NodeId} {n : NodeId}
    (horder : t.SiblingOrder (before ++ n :: after)) :
    {m ∈ {m | m ∈ before ++ n :: after} | m = n ∨ t.Precedes m n} =
      {m | m ∈ before ++ [n]} := by
  -- In document order the siblings in front of a member precede it, and those behind it do not.
  obtain ⟨-, hafter, hcross⟩ := List.pairwise_append.mp horder.2
  have hbefore : ∀ m ∈ before, t.Precedes m n := fun m hm => hcross m hm n List.mem_cons_self
  have hbehind : ∀ m ∈ after, ¬ t.Precedes m n := fun m hm =>
    h.precedes_asymm (List.rel_of_pairwise_cons hafter hm)
  ext m
  simp only [Set.mem_ofPred_eq, List.mem_append, List.mem_cons, List.not_mem_nil, or_false]
  constructor
  · rintro ⟨hm | rfl | hm, heq | hpreceding⟩
    · exact .inl hm
    · exact .inl hm
    · exact .inr rfl
    · exact .inr rfl
    · exact .inr heq
    · exact absurd hpreceding (hbehind m hm)
  · rintro (hm | rfl)
    · exact ⟨.inl hm, .inr (hbefore m hm)⟩
    · exact ⟨.inr (.inl rfl), .inl rfl⟩

/-- The place of a member of a list of siblings is one more than the number of members in front of
it. -/
theorem WellFormed.ncard_upTo (h : t.WellFormed) {before after : List NodeId} {n : NodeId}
    (horder : t.SiblingOrder (before ++ n :: after)) :
    {m ∈ {m | m ∈ before ++ n :: after} | m = n ∨ t.Precedes m n}.ncard =
      before.length + 1 := by
  have hsub : (before ++ [n]).Sublist (before ++ n :: after) :=
    (List.Sublist.refl before).append (List.singleton_sublist.mpr List.mem_cons_self)
  rw [h.upTo_eq horder, ← List.coe_toFinset, Set.ncard_coe_finset,
    List.toFinset_card_of_nodup (horder.1.sublist hsub), List.length_append]
  rfl

/-- The node at a place of a list of siblings is the member that has that place. -/
theorem WellFormed.mem_keep_position (h : t.WellFormed) {nodes : List NodeId}
    (horder : t.SiblingOrder nodes) {k : Nat} {n : NodeId} :
    n ∈ t.keep nodes (.position k) ↔
      n ∈ nodes ∧ {m ∈ {m | m ∈ nodes} | m = n ∨ t.Precedes m n}.ncard = k := by
  -- Places are counted from 1, and there is no place 0.
  have hkeep : n ∈ t.keep nodes (.position k) ↔ ∃ i, k = i + 1 ∧ nodes[i]? = some n := by
    rw [keep]
    split_ifs with hk
    · refine iff_of_false List.not_mem_nil fun hn => ?_
      obtain ⟨i, hi, -⟩ := hn
      omega
    · rw [Option.mem_toList]
      constructor
      · exact fun hn => ⟨k - 1, by omega, hn⟩
      · rintro ⟨i, rfl, hn⟩
        exact hn
  rw [hkeep]
  constructor
  -- From a place to a number of siblings: those up to the member at that place are as many.
  · rintro ⟨i, rfl, hn⟩
    have hi : i < nodes.length := (List.getElem?_eq_some_iff.mp hn).1
    have hsplit : nodes = nodes.take i ++ n :: nodes.drop (i + 1) := by
      rw [← (List.getElem?_eq_some_iff.mp hn).2, List.getElem_cons_drop, List.take_append_drop]
    have hlength : (nodes.take i).length = i := List.length_take_of_le (Nat.le_of_lt hi)
    refine ⟨List.mem_of_getElem? hn, ?_⟩
    rw [hsplit] at horder ⊢
    rw [h.ncard_upTo horder, hlength]
  -- From a number of siblings to a place: the number tells how many stand in front of the member.
  · rintro ⟨hn, hcard⟩
    obtain ⟨before, after, rfl⟩ := List.append_of_mem hn
    rw [h.ncard_upTo horder] at hcard
    exact ⟨before.length, hcard.symm, getElem?_length before after n⟩

/-- A predicate keeps the members of a list of siblings that it leaves of their set. -/
theorem WellFormed.mem_keep (h : t.WellFormed) {nodes : List NodeId}
    (horder : t.SiblingOrder nodes) (predicate : Predicate) :
    {n | n ∈ t.keep nodes predicate} = predicate.leaves t {n | n ∈ nodes} := by
  ext n
  cases predicate with
  | hasAttribute name =>
    show n ∈ nodes.filter (fun n => (t.attribute? n name).isSome) ↔ n ∈ nodes ∧ _
    rw [List.mem_filter, Option.isSome_iff_exists]
  | attributeIs name value =>
    show n ∈ nodes.filter (fun n => t.attribute? n name == some value) ↔ n ∈ nodes ∧ _
    rw [List.mem_filter, beq_iff_eq]
  | position k => exact h.mem_keep_position horder

/-- The predicates of a step keep the members of a list of siblings that they leave of their set. -/
theorem WellFormed.mem_keepAll (h : t.WellFormed) {nodes : List NodeId}
    (horder : t.SiblingOrder nodes) (step : Step) :
    {n | n ∈ t.keepAll step.predicates nodes} = step.leaves t {n | n ∈ nodes} := by
  unfold keepAll Step.leaves
  induction step.predicates generalizing nodes with
  | nil => rfl
  | cons predicate predicates ih =>
    rw [List.foldl_cons, List.foldl_cons, ih (horder.sublist (keep_sublist predicate nodes)),
      h.mem_keep horder]

/-! ## Steps and paths -/

/-- A step selects the children of a node that it denotes among them. -/
theorem WellFormed.mem_selectChildren (h : t.WellFormed) (step : Step) (p : NodeId) :
    {n | n ∈ t.selectChildren step p} = step.amongChildren t p := by
  have horder := (h.siblingOrder_children p).sublist
    (List.filter_sublist (p := t.passes false step.test))
  have hset : {n | n ∈ (t.children p).filter (t.passes false step.test)} =
      {c | t.parent? c = some p ∧ step.test.Names t c} := by
    ext c
    rw [Set.mem_ofPred_eq, List.mem_filter, h.mem_children, passes_false_iff_names]
    rfl
  unfold selectChildren Step.amongChildren
  rw [h.mem_keepAll horder, hset]

/-- A step selects from a node the nodes that it denotes. -/
theorem WellFormed.mem_select_iff_nodeSet (h : t.WellFormed) (step : Step) {n m : NodeId} :
    m ∈ t.select step n ↔ m ∈ step.nodeSet t n := by
  have hchildren : ∀ p, m ∈ t.selectChildren step p ↔ m ∈ step.amongChildren t p := fun p => by
    rw [← h.mem_selectChildren]
    rfl
  unfold Step.nodeSet
  cases haxis : step.axis with
  | self =>
    -- The test decides whether there is one node for the predicates or none.
    have hset : {m | m ∈ if t.passes true step.test n then [n] else []} =
        {m | m = n ∧ (step.test = .any ∨ step.test.Names t m)} := by
      ext m
      simp only [Set.mem_ofPred_eq]
      split_ifs with hpass
      · rw [List.mem_singleton]
        refine ⟨fun hm => ⟨hm, ?_⟩, And.left⟩
        exact hm ▸ passes_true_iff_names.mp hpass
      · refine iff_of_false List.not_mem_nil ?_
        rintro ⟨rfl, hm⟩
        exact hpass (passes_true_iff_names.mpr hm)
    have horder : t.SiblingOrder (if t.passes true step.test n then [n] else []) := by
      split_ifs
      · exact siblingOrder_singleton n
      · exact (siblingOrder_singleton n).sublist (List.nil_sublist _)
    have hselect : t.select step n =
        t.keepAll step.predicates (if t.passes true step.test n then [n] else []) := by
      unfold select
      rw [haxis]
      dsimp only
      split_ifs
      · rfl
      · exact (List.sublist_nil.mp (keepAll_sublist _ _)).symm
    show _ ↔ m ∈ step.leaves t _
    rw [hselect, ← hset, ← h.mem_keepAll horder]
    rfl
  | child =>
    unfold select
    rw [haxis]
    exact hchildren n
  | descendant =>
    rw [h.select_descendant haxis, List.mem_flatMap]
    simp only [Set.mem_iUnion₂, Set.mem_ofPred_eq, h.mem_subtree, hchildren, exists_prop]

/-- Steps lead from several nodes to the nodes that they denote. -/
theorem WellFormed.mem_follow_iff_nodeSet (h : t.WellFormed) {steps : List Step}
    {nodes : List NodeId} :
    {m | m ∈ t.follow steps nodes} =
      steps.foldl (fun nodes step => ⋃ n ∈ nodes, step.nodeSet t n) {n | n ∈ nodes} := by
  induction steps generalizing nodes with
  | nil => rfl
  | cons step steps ih =>
    have hstep : {m | m ∈ t.selectFrom step nodes} =
        ⋃ n ∈ {n | n ∈ nodes}, step.nodeSet t n := by
      ext m
      simp only [Set.mem_iUnion₂, Set.mem_ofPred_eq, mem_selectFrom, h.mem_select_iff_nodeSet,
        exists_prop]
    rw [follow, ih, hstep, List.foldl_cons]

/-- Evaluating a path fails exactly where there is no node to start from. Otherwise it gives the
nodes that the path denotes, and each of them once. -/
theorem evaluate_denotes (h : t.WellFormed) (path : LocationPath) (n : NodeId) :
    (t.evaluate path n = .error (.unknownNode n) ↔ ¬ n < t.size) ∧
      (n < t.size → ∃ found, t.evaluate path n = .ok found ∧ found.Nodup ∧
        ∀ m, m ∈ found ↔ m ∈ path.nodeSet t n) := by
  constructor
  -- Only a context that is not in the tree makes the evaluation fail.
  · constructor
    · intro herror hn
      rw [evaluate_eq_ok hn] at herror
      cases herror
    · intro hn
      have hcontains : t.contains n = false := decide_eq_false hn
      unfold evaluate
      rw [hcontains]
      rfl
  -- Both read the path step by step, from the document node or from the context.
  · intro hn
    refine ⟨_, evaluate_eq_ok hn path, h.nodup_follow (List.nodup_singleton _), fun m => ?_⟩
    have hstart : ({if path.absolute then NodeId.document else n} : Set NodeId) =
        {k | k ∈ [startOf path n]} := Set.ext fun k => List.mem_singleton.symm
    unfold LocationPath.nodeSet
    rw [hstart, ← h.mem_follow_iff_nodeSet]
    rfl

/-- A list with a division between two items, where the names of the items differ in case. -/
def mixedList : Tree :=
  Edit.run (.empty .html)
    [.createElement "UL" [], .createElement "li" [], .createElement "div" [],
      .createElement "LI" [("class", "last")], .createText "end", .append 0 1, .append 1 2,
      .append 1 3, .append 1 5, .append 1 4]

/-- The path to each second item that has a class. -/
def secondItem : LocationPath :=
  { absolute := true
    steps :=
      [{ axis := .descendant
         test := .named "Li"
         predicates := [.position 2, .hasAttribute "class"] }] }

/-- For one, that path from a node of the list and from no node of it. -/
theorem evaluate_denotes_secondItem :
    mixedList.WellFormed ∧
      (∃ found, mixedList.evaluate secondItem 5 = .ok found ∧ found.Nodup ∧
        ∀ m, m ∈ found ↔ m ∈ secondItem.nodeSet mixedList 5) ∧
      mixedList.evaluate secondItem 6 = .error (.unknownNode 6) :=
  have h : mixedList.WellFormed := Edit.wellFormed_run (wellFormed_empty .html) _
  ⟨h, (evaluate_denotes h secondItem 5).2 (by decide +kernel),
    (evaluate_denotes h secondItem 6).1.mpr (by decide +kernel)⟩

/-- The path finds one node, the second item of its parent. -/
example : mixedList.evaluate secondItem 5 = .ok [4] := by decide +kernel

end Tree

end TreeQuery
