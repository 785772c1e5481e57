import TreeQuery.Proofs.Positional
import TreeQuery.Proofs.Reachable

/-!
# Positional paths identify nodes

The climb for a positional path succeeds exactly where elements alone lie on the way up to the
document node (`climb_eq_ok_iff`). The path does not depend on where it is followed from, so it
leads to its node from everywhere, and no other node has it (`positionalPath_identifies`).
-/

namespace TreeQuery.Tree

variable {t : Tree}

/-! ## The way up -/

/-- The document node comes after elements alone. -/
def ElementsBeforeDocument (t : Tree) (chain : List NodeId) : Prop :=
  ∃ below above, chain = below ++ .document :: above ∧ ∀ m ∈ below, t.isElement m = true

/-- On the way up from a node, every node before the first document is an element, and that document
is the document node. -/
def Rooted (t : Tree) (n : NodeId) : Prop :=
  t.ElementsBeforeDocument (n :: t.ancestors n)

/-- No way is too short to come to the document node. -/
theorem not_elementsBeforeDocument_nil : ¬ t.ElementsBeforeDocument [] := by
  rintro ⟨below, above, heq, -⟩
  exact List.append_ne_nil_of_right_ne_nil below (List.cons_ne_nil _ _) heq.symm

/-- The way starts at the document node, or at an element and goes on in that manner. -/
theorem elementsBeforeDocument_cons {m : NodeId} {chain : List NodeId} :
    t.ElementsBeforeDocument (m :: chain) ↔
      m = .document ∨ t.isElement m = true ∧ t.ElementsBeforeDocument chain := by
  constructor
  · rintro ⟨below, above, heq, hbelow⟩
    cases below with
    | nil => exact .inl (List.cons.inj heq).1
    | cons first below =>
      obtain ⟨rfl, hchain⟩ := List.cons.inj heq
      obtain ⟨hm, hbelow⟩ := List.forall_mem_cons.mp hbelow
      exact .inr ⟨hm, below, above, hchain, hbelow⟩
  · rintro (rfl | ⟨hm, below, above, rfl, hbelow⟩)
    · exact ⟨[], chain, rfl, fun _ hmem => absurd hmem List.not_mem_nil⟩
    · exact ⟨m :: below, above, rfl, List.forall_mem_cons.mpr ⟨hm, hbelow⟩⟩

/-- No element is a document. -/
theorem isElement_eq_false_of_isDocument {n : NodeId} (hn : t.isDocument n = true) :
    t.isElement n = false := by
  rw [isElement, element?, isDocument_iff.mp hn]
  rfl

/-- A climb succeeds exactly where elements alone come before the document node. -/
theorem WellFormed.climb_eq_ok_iff (h : t.WellFormed) (n : NodeId) {chain : List NodeId}
    (steps : List Step) :
    (∃ all, t.climb n chain steps = .ok all) ↔ t.ElementsBeforeDocument chain := by
  induction chain generalizing steps with
  | nil => exact iff_of_false (fun ⟨_, hall⟩ => nomatch hall) not_elementsBeforeDocument_nil
  | cons m chain ih =>
    rw [climb, elementsBeforeDocument_cons]
    by_cases hdocument : t.isDocument m = true
    · -- The climb ends here, and goes well if this is the document node.
      rw [if_pos hdocument, isElement_eq_false_of_isDocument hdocument]
      split_ifs with hm
      · exact iff_of_true ⟨steps, rfl⟩ (.inl hm)
      · exact iff_of_false (fun ⟨_, hall⟩ => nomatch hall) (by simp [hm])
    -- Another node is not the document node, so it must be an element for the climb to go on.
    · have hm : m ≠ .document := by
        rintro rfl
        exact hdocument (isDocument_iff.mpr h.document)
      rw [if_neg hdocument, isElement]
      cases t.element? m with
      | none => exact iff_of_false (fun ⟨_, hall⟩ => nomatch hall) (by simp [hm])
      | some element =>
        rw [or_iff_right hm, Option.isSome_some, eq_self, true_and]
        exact ih _

/-! ## Paths -/

/-- A positional path leads to its node from everywhere. -/
theorem WellFormed.evaluate_positionalPath (h : t.WellFormed) {n context : NodeId}
    {path : LocationPath} (hpath : t.positionalPath n = .ok path) (hcontext : context < t.size) :
    t.evaluate path context = .ok [n] := by
  have hdocument : t.evaluate path .document = .ok [n] := by
    have hjoin := h.follow_positionalPath hpath []
    rwa [LocationPath.join, List.append_nil] at hjoin
  -- The path is absolute, so the context is only looked up.
  obtain ⟨-, all, -, rfl⟩ := positionalPath_eq_ok_iff.mp hpath
  rw [← hdocument, evaluate_eq_ok hcontext, evaluate_eq_ok h.size_pos]
  rfl

/-- A node has a positional path exactly if it exists and elements alone lie on the way from it to
the document node. The path leads to that node alone, wherever it is followed from, so no two nodes
have the same path. -/
theorem positionalPath_identifies (h : t.WellFormed) :
    (∀ n, (∃ path, t.positionalPath n = .ok path) ↔ n < t.size ∧ t.Rooted n) ∧
      (∀ n path, t.positionalPath n = .ok path →
        ∀ context < t.size, t.evaluate path context = .ok [n]) ∧
      ∀ m n path, t.positionalPath m = .ok path → t.positionalPath n = .ok path → m = n := by
  refine ⟨fun n => ?_, fun n path hpath context hcontext => ?_, fun m n path hm hn => ?_⟩
  -- There is a path exactly if the climb along the ancestors ends at the document node.
  · rw [Rooted, ← h.climb_eq_ok_iff n []]
    simp only [positionalPath_eq_ok_iff]
    constructor
    · rintro ⟨path, hlt, all, hall, -⟩
      exact ⟨hlt, all, hall⟩
    · rintro ⟨hlt, all, hall⟩
      exact ⟨_, hlt, all, hall, rfl⟩
  · exact h.evaluate_positionalPath hpath hcontext
  -- A path that two nodes had would lead to both of them alone.
  · have hboth : Except.ok [m] = Except.ok [n] :=
      (h.evaluate_positionalPath hm h.size_pos).symm.trans (h.evaluate_positionalPath hn h.size_pos)
    exact List.singleton_inj.mp (Except.ok.inj hboth)

/-- Two items with text between them and a division before them, where the names of the items differ
in case. A second document stands free with an element below it. -/
def itemsApart : Tree :=
  Edit.run (.empty .html)
    [.createElement "ul" [], .createElement "div" [], .createElement "LI" [], .createText "and",
      .createElement "li" [], .append 0 1, .append 1 2, .append 1 3, .append 1 4, .append 1 5,
      .alloc .document, .createElement "li" [], .append 6 7]

/-- For one, the path of the second item, which leads to it from outside the document as well. -/
theorem positionalPath_identifies_item :
    itemsApart.WellFormed ∧
      ∃ path, itemsApart.positionalPath 5 = .ok path ∧ itemsApart.evaluate path 7 = .ok [5] :=
  have h : itemsApart.WellFormed := Edit.wellFormed_run (wellFormed_empty .html) _
  have hrooted : itemsApart.Rooted 5 := ⟨[5, 1], [], by decide +kernel, by decide +kernel⟩
  have ⟨path, hpath⟩ := ((positionalPath_identifies h).1 5).mpr ⟨by decide +kernel, hrooted⟩
  ⟨h, path, hpath, (positionalPath_identifies h).2.1 5 path hpath 7 (by decide +kernel)⟩

/-- The path counts the items up to this one, however their names are written. -/
example : (itemsApart.positionalPath 5).toOption.map (·.render) = some "/ul[1]/li[2]" := by
  decide +kernel

end TreeQuery.Tree
