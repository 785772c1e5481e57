import TreeQuery.Path.Position
import TreeQuery.Proofs.Evaluation
import TreeQuery.Proofs.Loaded

/-!
# Positional paths lead to their nodes

A positional step counts the siblings of the same name before an element, and the evaluation of the
step counts the children of that name, so the step leads from the parent back to the element alone
(`selectFrom_positionalStep`). The climb to the document node puts such steps together, and
following them leads down to the node that the climb started from (`follow_climb`).
-/

namespace TreeQuery.Tree

variable {t : Tree}

/-- A document is a node whose data say so. -/
theorem isDocument_iff {n : NodeId} : t.isDocument n = true ↔ t.data? n = some .document := by
  unfold isDocument
  split
  · next hdata => exact iff_of_true rfl hdata
  · next hdata => exact iff_of_false (fun hfalse => nomatch hfalse) hdata

/-- The document node may stand as a root. -/
theorem WellFormed.isRoot_document (h : t.WellFormed) : t.isRoot .document = true := by
  rw [isRoot, isDocument_iff.mpr h.document]
  rfl

/-- Elements and documents are nodes of the tree. -/
theorem lt_size_of_isElement_or_isDocument {n : NodeId}
    (hn : t.isElement n = true ∨ t.isDocument n = true) : n < t.size := by
  rcases hn with hn | hn
  · exact lt_size_of_isElement hn
  · exact lt_size_of_data? (isDocument_iff.mp hn)

/-- Every name is the name that it is. -/
theorem sameName_self (t : Tree) (name : String) : t.sameName name name = true := by
  unfold sameName Flavour.sameName
  split_ifs
  · exact beq_self_eq_true name
  · exact Text.sameName_self name

/-- The siblings that the place of an element counts are those that pass its positional step. -/
theorem positionOf_eq (t : Tree) (n : NodeId) (element : Element) :
    t.positionOf n element =
      1 + ((t.precedingSiblings n).filter (t.passes false (.named element.tagName))).length := by
  unfold positionOf
  congr 3
  funext sibling
  unfold passes
  cases t.element? sibling with
  | none => rfl
  | some other => rfl

/-- In a list cut at a member, the place behind the first part holds the member. -/
theorem getElem?_length {α : Type} (before after : List α) (a : α) :
    (before ++ a :: after)[before.length]? = some a := by
  rw [List.getElem?_append_right (Nat.le_refl _), Nat.sub_self]
  rfl

/-- A positional step leads from the parent of an element to that element alone. -/
theorem WellFormed.selectFrom_positionalStep (h : t.WellFormed) {p n : NodeId}
    (hp : t.parent? n = some p) {element : Element} (hn : t.element? n = some element) :
    t.selectFrom (t.positionalStep n element) [p] = [n] := by
  rw [h.selectFrom_singleton]
  -- Both counts are about the children before `n` that have its name.
  obtain ⟨before, after, hsplit, -⟩ := h.exists_split hp
  generalize hpass : t.passes false (.named element.tagName) = pass
  have hself : pass n = true := by
    rw [← hpass, passes, hn]
    exact t.sameName_self element.tagName
  have hposition : t.positionOf n element = 1 + (before.filter pass).length := by
    rw [positionOf_eq, h.precedingSiblings_eq hsplit, hpass, List.filter_reverse,
      List.length_reverse]
  have hfilter : (t.children p).filter pass = before.filter pass ++ n :: after.filter pass := by
    rw [hsplit, List.filter_append, List.filter_cons_of_pos hself]
  show t.keep ((t.children p).filter (t.passes false (.named element.tagName)))
    (.position (t.positionOf n element)) = [n]
  rw [hpass, hfilter, hposition]
  rw [keep, if_neg (by omega), Nat.add_sub_cancel_left, getElem?_length]
  rfl

/-- The steps of a climb lead from the document node to where the climb started. -/
theorem WellFormed.follow_climb (h : t.WellFormed) {n m : NodeId} {steps all : List Step}
    (hclimb : t.climb n (m :: t.ancestors m) steps = .ok all) :
    t.follow all [.document] = t.follow steps [m] := by
  -- The climb puts one step in front of the steps at hand and goes on from the parent.
  induction m using h.climb_induction generalizing steps with
  | step m ih =>
    unfold climb at hclimb
    split_ifs at hclimb with hdocument hm
    · rw [hm, Except.ok.inj hclimb]
    · cases helement : t.element? m with
      | none =>
        rw [helement] at hclimb
        cases hclimb
      | some element =>
        rw [helement] at hclimb
        cases hp : t.parent? m with
        | none =>
          rw [ancestors_of_free hp] at hclimb
          cases hclimb
        | some p =>
          rw [h.ancestors_of_parent? hp] at hclimb
          rw [ih p hp hclimb]
          show t.follow steps (t.selectFrom (t.positionalStep m element) [p]) = t.follow steps [m]
          rw [h.selectFrom_positionalStep hp helement]

/-- The positional path of a node of the tree is the path that the climb from it puts together. -/
theorem positionalPath_eq_ok_iff {n : NodeId} {path : LocationPath} :
    t.positionalPath n = .ok path ↔
      n < t.size ∧ ∃ all, t.climb n (n :: t.ancestors n) [] = .ok all ∧ .join .root all = path := by
  unfold positionalPath
  by_cases hn : n < t.size
  · rw [contains_of_lt hn]
    cases hclimb : t.climb n (n :: t.ancestors n) [] with
    | error e => exact iff_of_false (fun hok => nomatch hok) (fun ⟨_, _, hok, _⟩ => nomatch hok)
    | ok all =>
      show Except.ok (.join .root all) = Except.ok path ↔ _
      simp [hn]
  · rw [contains_of_not_lt hn]
    exact iff_of_false (fun hok => nomatch hok) fun hok => hn hok.1

/-- The positional path of a node leads to that node alone, also when it is continued. -/
theorem WellFormed.follow_positionalPath (h : t.WellFormed) {n : NodeId} {path : LocationPath}
    (hpath : t.positionalPath n = .ok path) (steps : List Step) :
    t.evaluate (path.join steps) .document = .ok (t.follow steps [n]) := by
  obtain ⟨-, all, hclimb, rfl⟩ := positionalPath_eq_ok_iff.mp hpath
  rw [evaluate_eq_ok h.size_pos]
  show Except.ok (t.follow ([] ++ all ++ steps) [.document]) = _
  rw [List.nil_append, follow_append, h.follow_climb hclimb]
  rfl

/-- In a tree made of markup, elements and the document node can climb to the document node. -/
theorem Loaded.climb_eq_ok (h : t.Loaded) (n : NodeId) {m : NodeId}
    (hm : t.isElement m = true ∨ t.isDocument m = true) (steps : List Step) :
    ∃ all, t.climb n (m :: t.ancestors m) steps = .ok all := by
  have hwf := h.toWellFormed
  -- By induction from the document node downwards, with the steps found so far general.
  induction m using hwf.climb_induction generalizing steps with
  | step m ih =>
    unfold climb
    by_cases hdocument : t.isDocument m = true
    · rw [if_pos hdocument, if_pos (h.eq_document (isDocument_iff.mp hdocument))]
      exact ⟨steps, rfl⟩
    -- Another node than the document node is an element that hangs from some node.
    · rw [if_neg hdocument]
      have hisElement := hm.resolve_right hdocument
      obtain ⟨element, helement⟩ := Option.isSome_iff_exists.mp hisElement
      have hne : m ≠ .document := by
        rintro rfl
        exact hdocument (isDocument_iff.mpr h.document)
      obtain ⟨p, hp, hparent⟩ := h.hangs (lt_size_of_isElement hisElement) hne
      rw [helement, hwf.ancestors_of_parent? hp]
      refine ih p hp ?_ _
      rcases hparent with rfl | hparent
      · exact .inr (isDocument_iff.mpr h.document)
      · exact .inl hparent

/-- In a tree made of markup, elements and the document node have positional paths. -/
theorem Loaded.positionalPath_eq_ok (h : t.Loaded) {n : NodeId}
    (hn : t.isElement n = true ∨ t.isDocument n = true) :
    ∃ path, t.positionalPath n = .ok path := by
  obtain ⟨all, hall⟩ := h.climb_eq_ok n hn []
  exact ⟨_, positionalPath_eq_ok_iff.mpr ⟨lt_size_of_isElement_or_isDocument hn, all, hall, rfl⟩⟩

end TreeQuery.Tree
