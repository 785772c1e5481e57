import TreeQuery.Proofs.Traversal

/-!
# Filtering by an attribute

A filter by one test of an attribute looks at every node by itself and at nothing else, so it always
succeeds and leaves the session as it was (`keep_attribute_eq`). Of elements it keeps those that
pass the test, as the matcher has it, and of numbers that no node has it keeps none. It keeps every
other node of the tree, whatever the test asks for: documents, texts and comments have no attributes
and pass no test, yet no test of an attribute stops them in a filter. `keep_attribute_iff` says that
these nodes are the only ones on which the filter and the matcher differ.
-/

namespace TreeQuery

namespace Tree

variable {t : Tree} {n : NodeId} {test : AttributeTest}

/-- A node of the tree that is no element. -/
def Bare (t : Tree) (n : NodeId) : Prop :=
  t.contains n = true ∧ t.isElement n = false

/-- A node of the tree is one that has data. -/
theorem contains_iff_data? : t.contains n = true ↔ ∃ data, t.data? n = some data := by
  constructor
  · intro hn
    have hlt : n < t.nodes.size := of_decide_eq_true hn
    refine ⟨t.nodes[n].data, ?_⟩
    rw [data?, Array.getElem?_eq_getElem hlt]
    rfl
  · rintro ⟨data, hdata⟩
    exact contains_of_lt (lt_size_of_data? hdata)

/-- Only an element has attributes to be tested. -/
theorem passesTest_of_not_element (hn : t.isElement n = false) : t.passesTest n test = false := by
  refine Bool.eq_false_iff.mpr fun hpasses => Bool.eq_false_iff.mp hn ?_
  exact SimpleTest.isElement_of_hasAttribute (SimpleTest.hasAttribute_of_passesTest hpasses)

/-- By itself a test of an attribute is passed by the elements that pass it and by all other nodes
of the tree, unless it asks for the type of the node. -/
theorem passesAll_attr_iff (hordinary : ¬ (test.name = "nodeType" ∧ test.comparison = .equal))
    (settings : Settings) (n : NodeId) :
    t.passesAll settings n [.attr test] = true ↔ t.Bare n ∨ t.passesTest n test = true := by
  have hcode : (Token.attr test).typeCode? = none :=
    if_neg fun hboth => hordinary (by simpa using hboth)
  by_cases helement : t.isElement n = true
  · -- A filter asks the same of an element as the matcher.
    have halike : ∀ test' ∈ [SimpleTest.attr test], test'.AskedAlike t settings := fun _ hmem =>
      List.mem_singleton.mp hmem ▸ hcode
    have hbare : ¬ t.Bare n := fun hbare => Bool.eq_false_iff.mp hbare.2 helement
    rw [or_iff_right hbare]
    refine (SimpleTest.passesAll_iff halike helement).trans ?_
    rw [List.forall_mem_singleton]
    exact SimpleTest.passesTest_iff.symm
  · -- Of another node it asks only whether the node is there.
    rw [Bool.not_eq_true] at helement
    rw [passesTest_of_not_element helement, Bare, and_iff_left helement, contains_iff_data?]
    unfold passesAll
    cases hdata : t.data? n with
    | none => simp
    | some data =>
      cases data with
      | element element =>
        have helement' : t.element? n = some element := element?_eq_some_iff.mpr hdata
        rw [isElement, helement'] at helement
        cases helement
      | _ => simp [hcode, otherPasses]

end Tree

namespace Query

variable {test : AttributeTest} {group : Group}

/-- A filter by one test of an attribute always succeeds, keeps nodes of the list in their order,
each once, and leaves the session as it is. It keeps the elements that pass the test, and all other
nodes of the tree, and these are the only nodes on which it differs from the matcher. -/
theorem keep_attribute_iff (hgroup : group.simpleTokens = [.attr test])
    (hordinary : ¬ (test.name = "nodeType" ∧ test.comparison = .equal)) (settings : Settings)
    (nodes : List NodeId) (s : Session) :
    ∃ kept, keep settings ⟨[group]⟩ nodes s = .ok kept s ∧
      kept.Sublist (NodeSet.ofList nodes).nodes ∧
      (∀ n, n ∈ kept ↔ n ∈ nodes ∧ (s.tree.Bare n ∨ s.tree.passesTest n test = true)) ∧
      ∀ n ∈ nodes, (n ∈ kept ↔ s.tree.passesTest n test = true) ↔ ¬ s.tree.Bare n := by
  have hne : group ≠ [] := by
    rintro rfl
    cases hgroup
  -- A group with one test filters by this test alone.
  have hgroup' : group.simpleTokens = [SimpleTest.attr test].map (·.token) := hgroup
  have hmem : ∀ n, n ∈ (NodeSet.ofList nodes).nodes.filter (fun n =>
      s.tree.passesAll settings n [.attr test]) ↔
        n ∈ nodes ∧ (s.tree.Bare n ∨ s.tree.passesTest n test = true) := by
    intro n
    rw [List.mem_filter, NodeSet.mem_ofList, Tree.passesAll_attr_iff hordinary]
  refine ⟨_, keep_tests_eq hgroup' hne settings nodes s, List.filter_sublist, hmem,
    fun n hn => ?_⟩
  -- Where the node is listed, the two sides differ exactly if the node is bare: then a filter keeps
  -- it and the matcher does not.
  refine (iff_congr ((hmem n).trans (and_iff_right hn)) Iff.rfl).trans ?_
  constructor
  · intro hagree hbare
    have hpasses := hagree.mp (.inl hbare)
    rw [Tree.passesTest_of_not_element hbare.2] at hpasses
    cases hpasses
  · exact fun hbare => or_iff_right hbare

/-- An element of a class, a text and a comment, which stand free. -/
def looseNodes : Tree :=
  Edit.run (.empty .html)
    [.createElement "p" [("class", "a")], .createText "a", .createComment "a"]

/-- For one, of all nodes of a tree and a number that no node has, the element passes the test for
its class. -/
theorem keep_attribute_iff_loose :
    Group.simpleTokens [.descendant, .attr ⟨"class", .equal, "a"⟩] =
        [.attr ⟨"class", .equal, "a"⟩] ∧
      ¬ ("class" = "nodeType" ∧ Comparison.equal = .equal) ∧
      ∃ kept, keep .default ⟨[[.descendant, .attr ⟨"class", .equal, "a"⟩]]⟩ [0, 1, 2, 3, 4]
          { tree := looseNodes } = .ok kept { tree := looseNodes } ∧
        1 ∈ kept ∧ 4 ∉ kept := by
  have hgroup : Group.simpleTokens [.descendant, .attr ⟨"class", .equal, "a"⟩] =
      [.attr ⟨"class", .equal, "a"⟩] := rfl
  have hordinary : ¬ ("class" = "nodeType" ∧ Comparison.equal = .equal) := by decide
  obtain ⟨kept, hkept, -, hmem, -⟩ :=
    keep_attribute_iff hgroup hordinary .default [0, 1, 2, 3, 4] { tree := looseNodes }
  -- The element passes by its class. The number that no node has is neither bare nor an element.
  refine ⟨hgroup, hordinary, kept, hkept, (hmem 1).mpr ⟨by decide, .inr ?_⟩, fun hfour => ?_⟩
  · decide +kernel
  · obtain ⟨-, hbare | hpasses⟩ := (hmem 4).mp hfour
    · revert hbare
      unfold Tree.Bare
      decide +kernel
    · revert hpasses
      decide +kernel

/-- The text and the comment have no class, and yet the filter for a class keeps them, as it does
with the document. -/
theorem keep_attribute_not_matched :
    keep .default ⟨[[.descendant, .attr ⟨"class", .present, ""⟩]]⟩ [0, 1, 2, 3, 4]
        { tree := looseNodes } = .ok [0, 1, 2, 3] { tree := looseNodes } ∧
      ∀ n ∈ [0, 2, 3], looseNodes.passesTest n ⟨"class", .present, ""⟩ = false := by
  have hgroup : Group.simpleTokens [.descendant, .attr ⟨"class", .present, ""⟩] =
      [SimpleTest.attr ⟨"class", .present, ""⟩].map (·.token) := rfl
  have hkept : ((NodeSet.ofList [0, 1, 2, 3, 4]).nodes.filter fun n =>
      looseNodes.passesAll .default n [.attr ⟨"class", .present, ""⟩]) = [0, 1, 2, 3] := by
    decide +kernel
  refine ⟨?_, by decide +kernel⟩
  rw [keep_tests_eq hgroup (List.cons_ne_nil _ _)]
  exact congrArg (EStateM.Result.ok · _) hkept

end Query

end TreeQuery
