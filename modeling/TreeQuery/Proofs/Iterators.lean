import TreeQuery.Proofs.Preorder
import TreeQuery.Proofs.Reachable

/-!
# Iterators

The walks of `Tree.Walk` are cut off at a bound, so that they end in any tree. Its iterators are
not: an iterator has a state and a step, and it runs until the step gives nothing (`Yields`). In a
well-formed tree the two iterators end by themselves, at what the walks list. The walk upwards
follows the parents (`yields_ancestors`), and the walk downwards keeps a stack of nodes still to
visit: a node on the stack makes it yield the subtree of the node and then what the rest of the
stack yields (`yields_subtree`), which is shown for a node from its children. `walks_exact` puts
together what the two walks list.
-/

namespace TreeQuery

section

variable {σ α : Type} {next : σ → Option (α × σ)} {state : σ} {items items' : List α}

/-- Run from a state, an iterator gives the items of a list, one after the other, and ends. -/
inductive Yields (next : σ → Option (α × σ)) : σ → List α → Prop
  /-- The iterator has ended. -/
  | done {state : σ} (h : next state = none) : Yields next state []
  /-- The iterator gives an item, and then those that it gives from the state that it is in. -/
  | more {state rest : σ} {a : α} {items : List α} (h : next state = some (a, rest))
    (hrest : Yields next rest items) : Yields next state (a :: items)

/-- An iterator that ends gives one list only. -/
theorem Yields.unique (h : Yields next state items) (h' : Yields next state items') :
    items = items' := by
  induction h generalizing items' with
  | done hnext =>
    cases h' with
    | done => rfl
    | more hnext' => cases hnext.symm.trans hnext'
  | more hnext _ ih =>
    cases h' with
    | done hnext' => cases hnext.symm.trans hnext'
    | more hnext' hrest' =>
      obtain ⟨rfl, rfl⟩ := Prod.mk.inj (Option.some.inj (hnext.symm.trans hnext'))
      rw [ih hrest']

/-- The list that an iterator has been seen to give is the one that it gives. -/
theorem Yields.iff_eq (h : Yields next state items) : Yields next state items' ↔ items' = items :=
  ⟨fun h' => h'.unique h, fun heq => heq ▸ h⟩

end

namespace Tree

variable {t : Tree}

/-! ## Upwards -/

/-- The walk along the parents ends and gives the ancestors. -/
theorem WellFormed.yields_ancestors (h : t.WellFormed) (n : NodeId) :
    Yields (along t.parent?) (t.parent? n) (t.ancestors n) := by
  induction n using h.climb_induction with
  | step n ih =>
    cases hp : t.parent? n with
    | none =>
      rw [ancestors_of_free hp]
      exact .done rfl
    | some p =>
      rw [h.ancestors_of_parent? hp]
      exact .more rfl (ih p hp)

/-- No node is its own ancestor or twice an ancestor of another. -/
theorem WellFormed.nodup_ancestors (h : t.WellFormed) (n : NodeId) : (t.ancestors n).Nodup :=
  h.nodup_chase t.size n

/-! ## Downwards -/

/-- Nodes on the stack yield their subtrees, one after the other, if each of them does so. -/
theorem yields_flatMap {nodes stack items : List NodeId}
    (hnodes : ∀ n ∈ nodes, ∀ stack items, Yields t.unstack stack items →
      Yields t.unstack (n :: stack) (t.subtree n ++ items))
    (hstack : Yields t.unstack stack items) :
    Yields t.unstack (nodes ++ stack) (nodes.flatMap t.subtree ++ items) := by
  induction nodes with
  | nil => exact hstack
  | cons n nodes ih =>
    obtain ⟨hn, hrest⟩ := List.forall_mem_cons.mp hnodes
    rw [List.flatMap_cons, List.append_assoc]
    exact hn _ _ (ih hrest)

/-- A node on the stack yields its subtree, and then what is below it on the stack is visited. -/
theorem WellFormed.yields_subtree (h : t.WellFormed) (n : NodeId) :
    ∀ stack items, Yields t.unstack stack items →
      Yields t.unstack (n :: stack) (t.subtree n ++ items) := by
  induction n using h.descend_induction with
  | step n ih =>
    intro stack items hstack
    rw [h.subtree_eq, List.cons_append]
    -- The children take the place of the node on the stack.
    exact .more rfl (yields_flatMap ih hstack)

/-- The walk with a stack ends and gives the descendants. -/
theorem WellFormed.yields_descendants (h : t.WellFormed) (n : NodeId) :
    Yields t.unstack (t.children n) (t.descendants n) := by
  have hnil : Yields t.unstack [] [] := .done rfl
  have hchildren : ∀ c ∈ t.children n, ∀ stack items, Yields t.unstack stack items →
      Yields t.unstack (c :: stack) (t.subtree c ++ items) := fun c _ => h.yields_subtree c
  have hyields := yields_flatMap hchildren hnil
  rwa [List.append_nil, List.append_nil, ← h.descendants_eq] at hyields

/-- The descendants of a node are its children, each with its own descendants behind it, and no
other listing of the nodes of the tree has this form. -/
theorem WellFormed.preorder_iff (h : t.WellFormed) (listing : NodeId → List NodeId) :
    (∀ n, listing n = (t.children n).flatMap fun c => c :: listing c) ↔
      listing = t.descendants := by
  have hsubtree : ∀ n, (t.children n).flatMap (fun c => c :: t.descendants c) =
      t.descendants n := by
    intro n
    rw [h.descendants_eq n]
    exact List.flatMap_congr fun c _ => h.cons_descendants c
  constructor
  -- By induction from the leaves up, a listing of this form agrees with that of the descendants.
  · intro hlisting
    funext n
    induction n using h.descend_induction with
    | step n ih =>
      rw [hlisting n, ← hsubtree n]
      exact List.flatMap_congr fun c hc => by rw [ih c hc]
  · rintro rfl n
    exact (hsubtree n).symm

/-- The text of an element or a document is that of the text nodes below it, in the order in which
they are listed. -/
theorem textContent_eq {n : NodeId} (hn : t.isElement n = true ∨ t.isDocument n = true) :
    t.textContent n = String.join ((t.descendants n).filterMap t.text?) := by
  unfold textContent
  unfold isElement element? isDocument at hn
  cases hdata : t.data? n with
  | none => simp [hdata] at hn
  | some data =>
    cases data with
    | document => rfl
    | element element => rfl
    | text content => simp [hdata] at hn
    | comment content => simp [hdata] at hn

/-- In a well-formed tree the two walks from a node end, and each gives one list. That of the walk
downwards has exactly the nodes that have the node among their ancestors, each once, and it is the
recursive pre-order of the lists of children; the test for a descendant looks for a node in it. That
of the walk upwards has no repetition and ends at a node without a parent, which is the node itself
if the list is empty. The text of an element or a document is that of the text nodes below it, in
the order of the walk. -/
theorem walks_exact (h : t.WellFormed) (n : NodeId) :
    (∀ items, Yields t.unstack (t.children n) items ↔ items = t.descendants n) ∧
      (∀ d, (d ∈ t.descendants n ↔ n ∈ t.ancestors d) ∧
        (t.isDescendantOf d n = true ↔ d ∈ t.descendants n)) ∧
      (t.descendants n).Nodup ∧
      (∀ listing : NodeId → List NodeId,
        (∀ m, listing m = (t.children m).flatMap fun c => c :: listing c) ↔
          listing = t.descendants) ∧
      (∀ items, Yields (along t.parent?) (t.parent? n) items ↔ items = t.ancestors n) ∧
      (t.ancestors n).Nodup ∧ t.parent? ((t.ancestors n).getLastD n) = none ∧
      (t.isElement n = true ∨ t.isDocument n = true →
        t.textContent n = String.join ((t.descendants n).filterMap t.text?)) := by
  refine ⟨fun items => (h.yields_descendants n).iff_eq, fun d => ⟨?_, ?_⟩, h.nodup_descendants n,
    h.preorder_iff, fun items => (h.yields_ancestors n).iff_eq, h.nodup_ancestors n,
    h.parent?_top n, textContent_eq⟩
  · rw [h.mem_descendants, h.mem_ancestors]
  · rw [h.isDescendantOf_iff, h.mem_descendants]

/-- For one, a list with two items, of which the first has a text and an emphasis in it. -/
theorem walks_exact_list :
    let t := Edit.run (.empty .html)
      [.createElement "ul" [], .createElement "li" [], .createElement "li" [], .createText "one ",
        .createElement "em" [], .createText "and", .createText "two", .append 0 1, .append 1 3,
        .insertBefore 1 2 3, .append 2 4, .append 2 5, .append 5 6, .append 3 7]
    t.WellFormed ∧ t.isElement 1 = true ∧
      (∀ items, Yields t.unstack (t.children 1) items ↔ items = [2, 4, 5, 6, 3, 7]) ∧
      (∀ items, Yields (along t.parent?) (t.parent? 6) items ↔ items = [5, 2, 1, 0]) ∧
      t.isDescendantOf 6 1 = true ∧ t.parent? 0 = none ∧ t.textContent 1 = "one andtwo" := by
  intro t
  have h : t.WellFormed := Edit.wellFormed_run (wellFormed_empty .html) _
  have helement : t.isElement 1 = true := by decide +kernel
  have hdescendants : t.descendants 1 = [2, 4, 5, 6, 3, 7] := by decide +kernel
  have hancestors : t.ancestors 6 = [5, 2, 1, 0] := by decide +kernel
  -- The walks from the list, and those from the text in the emphasis.
  obtain ⟨hbelow, hmem, -, -, -, -, -, htext⟩ := walks_exact h 1
  obtain ⟨-, -, -, -, habove, -, hfree, -⟩ := walks_exact h 6
  refine ⟨h, helement, hdescendants ▸ hbelow, hancestors ▸ habove, ?_, ?_, ?_⟩
  · rw [(hmem 6).2, hdescendants]
    decide
  · rwa [hancestors] at hfree
  · rw [htext (.inl helement), hdescendants]
    decide +kernel

end Tree

end TreeQuery
