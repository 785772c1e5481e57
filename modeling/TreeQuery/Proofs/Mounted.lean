import TreeQuery.Proofs.Mounting
import TreeQuery.Proofs.Positional
import TreeQuery.Proofs.Reachable
import TreeQuery.Proofs.Steps

/-!
# The tree while a subtree is mounted

Mounting always succeeds on a node of the tree, and all that it does is to put the topmost node of a
free subtree behind the children of the document node. The walk upwards from the subtree then goes
on to the document node, and nothing that could be reached before is counted in another way, so
every positional path stays what it was (`Mount.attach_exact`).

Where two trees have the same data and the same lists of children from a node downwards
(`AlikeBelow`), steps lead from that node to the same nodes in both. So the mounted subtree is found
through its positional path exactly as steps find it from the node itself, and as they would find it
unmounted, but for the order (`Mount.evaluate_rooted_alike`).
-/

namespace TreeQuery

namespace Tree

variable {t u : Tree} {p c n m : NodeId}

/-! ## What the data decide -/

namespace SameNodes

/-- A tree with the same nodes has the same elements. -/
theorem element?_eq (h : SameNodes t u) (n : NodeId) : u.element? n = t.element? n := by
  rw [element?, element?, h.data?]

/-- A tree with the same nodes has the same documents. -/
theorem isDocument_eq (h : SameNodes t u) (n : NodeId) : u.isDocument n = t.isDocument n := by
  rw [isDocument, isDocument, h.data?]

/-- Names are compared in the same way. -/
theorem sameName_eq (h : SameNodes t u) (actual wanted : String) :
    u.sameName actual wanted = t.sameName actual wanted := by
  rw [sameName, sameName, h.flavour]

/-- The same nodes pass a test. -/
theorem passes_eq (h : SameNodes t u) (onSelf : Bool) (test : NameTest) :
    u.passes onSelf test = t.passes onSelf test := by
  funext n
  simp only [passes, h.element?_eq, h.sameName_eq]

/-- Predicates keep the same nodes. -/
theorem keepAll_eq (h : SameNodes t u) (predicates : List Predicate) (nodes : List NodeId) :
    u.keepAll predicates nodes = t.keepAll predicates nodes := by
  have hkeep : u.keep = t.keep := by
    funext nodes predicate
    cases predicate with
    | hasAttribute name => simp only [keep, hasAttribute, attribute?, h.element?_eq]
    | attributeIs name value => simp only [keep, attribute?, h.element?_eq]
    | position k => rfl
  rw [keepAll, keepAll, hkeep]

/-- A step selects the same children of a node if the node has the same children. -/
theorem selectChildren_eq (h : SameNodes t u) (hchildren : u.children n = t.children n)
    (step : Step) : u.selectChildren step n = t.selectChildren step n := by
  rw [selectChildren, selectChildren, hchildren, h.passes_eq, h.keepAll_eq]

end SameNodes

/-! ## Trees that are alike from a node downwards -/

/-- `u` has the nodes of `t`, and the same lists of children for `n` and what lies below it. -/
structure AlikeBelow (t u : Tree) (n : NodeId) : Prop extends SameNodes t u where
  /-- The children are the same in the subtree of the node. -/
  children : ∀ p ∈ t.subtree n, u.children p = t.children p

namespace AlikeBelow

variable (h : AlikeBelow t u n) (ht : t.WellFormed) (hu : u.WellFormed)

include h ht

/-- What is alike below a node is alike below every node in its subtree. -/
theorem mono (hm : m ∈ t.subtree n) : AlikeBelow t u m where
  toSameNodes := h.toSameNodes
  children p hp := h.children p ((ht.subtree_sublist hm).subset hp)

include hu

/-- The subtree of the node is the same. -/
theorem subtree_eq : u.subtree n = t.subtree n := by
  induction n using ht.descend_induction with
  | step n ih =>
    have hself := h.children n (ht.mem_subtree_self n)
    rw [hu.subtree_eq, ht.subtree_eq, hself]
    congr 1
    refine List.flatMap_congr fun c hc => ih c hc (h.mono ht ?_)
    exact ht.mem_subtree.mpr (.inr (.of_parent? (ht.mem_children.mp hc)))

/-- A step selects the same nodes from the node, in the same order. -/
theorem select_eq (step : Step) : u.select step n = t.select step n := by
  have hself := h.children n (ht.mem_subtree_self n)
  unfold select
  cases step.axis with
  | self => simp only [h.passes_eq, h.keepAll_eq]
  | child => exact h.selectChildren_eq hself step
  | descendant =>
    show (n :: u.descendants n).flatMap _ = (n :: t.descendants n).flatMap _
    rw [hu.cons_descendants, ht.cons_descendants, h.subtree_eq ht hu]
    exact List.flatMap_congr fun p hp => h.selectChildren_eq (h.children p hp) step

/-- Steps lead from the node to the same nodes. -/
theorem stepsTo_iff {steps : List Step} : u.StepsTo steps n m ↔ t.StepsTo steps n m := by
  induction steps generalizing n with
  | nil => exact Iff.rfl
  | cons step steps ih =>
    unfold StepsTo
    rw [h.select_eq ht hu]
    refine exists_congr fun k => and_congr_right fun hk => ih ?_
    exact h.mono ht (ht.mem_subtree_of_select hk)

/-- Following steps from the node gives the same nodes, if in another order. The order depends on
what else hangs from the document node. -/
theorem perm_follow (steps : List Step) : (t.follow steps [n]).Perm (u.follow steps [n]) := by
  have htNodup : (t.follow steps [n]).Nodup := ht.nodup_follow (List.nodup_singleton n)
  have huNodup : (u.follow steps [n]).Nodup := hu.nodup_follow (List.nodup_singleton n)
  refine (List.perm_ext_iff_of_nodup htNodup huNodup).mpr fun e => ?_
  simp only [mem_follow, List.mem_singleton, exists_eq_left, h.stepsTo_iff ht hu]

end AlikeBelow

/-! ## A free node that has been put last -/

/-- Every other node of the tree may be put under the document node. -/
theorem WellFormed.insertable_document (h : t.WellFormed) (hc : c < t.size)
    (hne : c ≠ .document) : t.Insertable .document c :=
  ⟨h.size_pos, hc, hne, hne, h.not_above_document⟩

/-- The document node lies in no subtree whose topmost node may not stand as a root. -/
theorem WellFormed.document_not_mem_subtree (h : t.WellFormed)
    (hroot : t.isRoot (t.top n) = false) : .document ∉ t.subtree n := by
  intro hmem
  rcases h.mem_subtree.mp hmem with rfl | habove
  · rw [top_of_free h.parent_document, h.isRoot_document] at hroot
    cases hroot
  · exact h.not_above_document habove

section PutIn

variable {before after : List NodeId}

/-- Below a node that does not have the new parent in its subtree, nothing changes. -/
theorem PutIn.alikeBelow (hput : PutIn t u p c before after) (hn : p ∉ t.subtree n) :
    AlikeBelow t u n where
  toSameNodes := hput.toSameNodes
  children q hq := by
    rw [hput.children, if_neg]
    rintro rfl
    exact hn hq

/-- From below the node that has been put in, the walk upwards goes on to the new parent. -/
theorem PutIn.ancestors_eq (hput : PutIn t u p c before after) (ht : t.WellFormed)
    (hu : u.WellFormed) (hn : t.top n = c) :
    u.ancestors n = t.ancestors n ++ p :: u.ancestors p := by
  induction n using ht.climb_induction with
  | step n ih =>
    cases hparent : t.parent? n with
    -- The node is the topmost one, so it is the one that has been put in.
    | none =>
      rw [top_of_free hparent] at hn
      have hnew : u.parent? n = some p := by rw [hput.parent?, if_pos hn]
      rw [hu.ancestors_of_parent? hnew, ancestors_of_free hparent]
      rfl
    -- The node hangs below another, whose walk goes on to the new parent.
    | some q =>
      have hne : n ≠ c := by
        rintro rfl
        rw [← hn, ht.parent?_top] at hparent
        cases hparent
      have hold : u.parent? n = some q := by rw [hput.parent?, if_neg hne, hparent]
      have hq : t.top q = c := (ht.top_of_parent? hparent).symm.trans hn
      rw [hu.ancestors_of_parent? hold, ht.ancestors_of_parent? hparent, ih q hparent hq]
      rfl

end PutIn

section PutLast

variable (hput : PutIn t u p c (t.children p) []) (ht : t.WellFormed) (hu : u.WellFormed)

include hput ht hu

/-- A node that comes last stands before no other. -/
theorem PutIn.precedingSiblings_eq {q : NodeId} (hn : t.parent? n = some q) :
    u.precedingSiblings n = t.precedingSiblings n := by
  obtain ⟨before, after, hsplit, -⟩ := ht.exists_split hn
  have hnew : u.children q = before ++ n :: (after ++ if q = p then [c] else []) := by
    rw [hput.children]
    split_ifs with hq
    · rw [← hq, hsplit, List.append_assoc, List.cons_append]
    · rw [hsplit, List.append_nil]
  rw [hu.precedingSiblings_eq hnew, ht.precedingSiblings_eq hsplit]

/-- The step from its parent to an old child is the same. -/
theorem PutIn.positionalStep_eq {q : NodeId} (hn : t.parent? n = some q) (element : Element) :
    u.positionalStep n element = t.positionalStep n element := by
  rw [positionalStep, positionalStep, positionOf_eq, positionOf_eq,
    hput.precedingSiblings_eq ht hu hn, hput.passes_eq]

/-- A climb that comes to the document node does so on the same way and finds the same steps. -/
theorem PutIn.climb_eq_ok (hfree : t.parent? c = none) {steps all : List Step}
    (hclimb : t.climb n (m :: t.ancestors m) steps = .ok all) :
    u.climb n (m :: u.ancestors m) steps = .ok all := by
  induction m using ht.climb_induction generalizing steps with
  | step m ih =>
    unfold climb at hclimb ⊢
    rw [hput.isDocument_eq, hput.element?_eq]
    split_ifs at hclimb ⊢ with hdocument hm
    · exact hclimb
    · cases helement : t.element? m with
      | none =>
        rw [helement] at hclimb
        cases hclimb
      | some element =>
        rw [helement] at hclimb
        cases hparent : t.parent? m with
        | none =>
          rw [ancestors_of_free hparent] at hclimb
          cases hclimb
        | some q =>
          -- The climb does not start from the new child, which stood free.
          have hne : m ≠ c := by
            rintro rfl
            rw [hfree] at hparent
            cases hparent
          have hold : u.parent? m = some q := by rw [hput.parent?, if_neg hne, hparent]
          rw [ht.ancestors_of_parent? hparent] at hclimb
          show u.climb n (u.ancestors m) (u.positionalStep m element :: steps) = .ok all
          rw [hu.ancestors_of_parent? hold, hput.positionalStep_eq ht hu hparent]
          exact ih q hparent hclimb

/-- A positional path stays what it was. -/
theorem PutIn.positionalPath_eq_ok (hfree : t.parent? c = none) {path : LocationPath}
    (hpath : t.positionalPath n = .ok path) : u.positionalPath n = .ok path := by
  obtain ⟨hn, all, hclimb, hjoin⟩ := positionalPath_eq_ok_iff.mp hpath
  refine positionalPath_eq_ok_iff.mpr ⟨hput.size ▸ hn, all, ?_, hjoin⟩
  exact hput.climb_eq_ok ht hu hfree hclimb

end PutLast

end Tree

namespace Mount

open TreeQuery.Tree

variable {t : Tree} {n : NodeId} {m : Mount}

/-! ## Mounting and taking down -/

/-- The subtree of a node of the tree can always be mounted. -/
theorem exists_attach (h : t.WellFormed) (hn : n < t.size) : ∃ m, attach t n = .ok m := by
  unfold attach
  rw [contains_of_lt hn]
  cases hroot : t.isRoot (t.top n) with
  | true => exact ⟨_, rfl⟩
  | false =>
    have hne : t.top n ≠ .document := by
      intro htop
      rw [htop, h.isRoot_document] at hroot
      cases hroot
    obtain ⟨u, happend, -⟩ :=
      h.append_of_free (h.insertable_document (h.top_lt_size hn) hne) (h.parent?_top n)
    rw [happend]
    exact ⟨_, rfl⟩

/-- Mounting fails only for a node that does not exist. It mounts the topmost node, unless that may
stand as a root, and does so by putting it last among the children of the document node: the walk
upwards goes on to the document node, and nothing else changes. What had a positional path keeps it,
and taking the subtree down gives the tree back. -/
theorem attach_exact (h : t.WellFormed) (n : NodeId) :
    (¬ n < t.size → attach t n = .error (.unknownNode n)) ∧
      (n < t.size → ∃ m, attach t n = .ok m ∧ m.tree.WellFormed ∧
        (t.isRoot (t.top n) = true → m = ⟨t, none⟩) ∧
        (t.isRoot (t.top n) = false → m.mounted? = some (t.top n) ∧
          PutIn t m.tree .document (t.top n) (t.children .document) [] ∧
          m.tree.ancestors n = t.ancestors n ++ [.document]) ∧
        (∀ k path, t.positionalPath k = .ok path → m.tree.positionalPath k = .ok path) ∧
        release m.tree m.mounted? = t) := by
  refine ⟨fun hn => ?_, fun hn => ?_⟩
  -- Mounting starts with the check that the node exists.
  · unfold attach
    rw [contains_of_not_lt hn]
    rfl
  · obtain ⟨m, hm⟩ := exists_attach h hn
    have hwf := wellFormed_attach h hm
    have hrelease := release_attach h hm
    refine ⟨m, hm, hwf, ?_⟩
    -- The topmost node may stand as a root, and nothing is mounted; or it is put under the document
    -- node.
    rcases attach_cases h hm with ⟨hroot, rfl⟩ | ⟨hroot, -, hmounted, hput, -⟩
    · refine ⟨fun _ => rfl, fun hfree => ?_, fun _ _ hpath => hpath, hrelease⟩
      rw [hroot] at hfree
      cases hfree
    · have hwalk : m.tree.ancestors n = t.ancestors n ++ [.document] := by
        rw [hput.ancestors_eq h hwf rfl, ancestors_of_free hwf.parent_document]
      refine ⟨fun hstands => ?_, fun _ => ⟨hmounted, hput, hwalk⟩, fun k path hpath => ?_, hrelease⟩
      · rw [hroot] at hstands
        cases hstands
      · exact hput.positionalPath_eq_ok h hwf (h.parent?_top n) hpath

/-- A list of one item in the document, and another that stands free. -/
def twoLists : Tree :=
  Edit.run (.empty .html)
    [.createElement "ul" [], .createElement "li" [], .createElement "UL" [],
      .createElement "li" [], .append 0 1, .append 1 2, .append 3 4]

/-- The tree with two lists comes about by edits. -/
theorem wellFormed_twoLists : twoLists.WellFormed :=
  Edit.wellFormed_run (wellFormed_empty .html) _

/-- The path of the item in the document. -/
def firstItem : LocationPath :=
  { absolute := true
    steps :=
      [{ axis := .child, test := .named "ul", predicates := [.position 1] },
        { axis := .child, test := .named "li", predicates := [.position 1] }] }

/-- For one, the free list is mounted for its item, and nothing for a node that does not exist. -/
theorem attach_exact_twoLists :
    twoLists.WellFormed ∧ attach twoLists 5 = .error (.unknownNode 5) ∧
      ∃ m, attach twoLists 4 = .ok m ∧ m.mounted? = some 3 ∧ m.tree.ancestors 4 = [3, 0] ∧
        m.tree.positionalPath 2 = .ok firstItem ∧ release m.tree m.mounted? = twoLists := by
  have h := wellFormed_twoLists
  obtain ⟨m, hm, -, -, hfree, hpaths, hrelease⟩ := (attach_exact h 4).2 (by decide +kernel)
  obtain ⟨hmounted, -, hwalk⟩ := hfree (by decide +kernel)
  refine ⟨h, (attach_exact h 5).1 (by decide +kernel), m, hm, ?_, ?_, ?_, hrelease⟩
  · exact hmounted.trans (by decide +kernel)
  · exact hwalk.trans (by decide +kernel)
  · exact hpaths 2 firstItem (by decide +kernel)

/-! ## Evaluation in the mounted subtree -/

/-- From a node of a subtree that gets mounted, the tree looks the same as before. -/
theorem alikeBelow_attach (h : t.WellFormed) (hm : attach t n = .ok m) :
    AlikeBelow t m.tree n := by
  rcases attach_cases h hm with ⟨-, rfl⟩ | ⟨hroot, -, -, hput, -⟩
  · exact ⟨.refl t, fun _ _ => rfl⟩
  · exact hput.alikeBelow (h.document_not_mem_subtree hroot)

/-- While the subtree of a node is mounted, its positional path continued by some steps leads from
the document node to the very list that the steps lead to from the node. Before, they lead from the
node to the same nodes, if in another order. -/
theorem evaluate_rooted_alike (h : t.WellFormed) (hm : attach t n = .ok m) {path : LocationPath}
    (hpath : m.tree.positionalPath n = .ok path) (steps : List Step) :
    ∃ rooted alone, m.tree.evaluate (path.join steps) .document = .ok rooted ∧
      m.tree.evaluate { steps } n = .ok rooted ∧ t.evaluate { steps } n = .ok alone ∧
      alone.Perm rooted := by
  have hwf := wellFormed_attach h hm
  have halike := alikeBelow_attach h hm
  obtain ⟨hn, -⟩ := positionalPath_eq_ok_iff.mp hpath
  exact ⟨m.tree.follow steps [n], t.follow steps [n], hwf.follow_positionalPath hpath steps,
    evaluate_eq_ok hn { steps }, evaluate_eq_ok (halike.size ▸ hn) { steps },
    halike.perm_follow h hwf steps⟩

/-- A division that stands free, with two paragraphs, the first of which has a paragraph in it. -/
def looseParagraphs : Tree :=
  Edit.run (.empty .html)
    [.createElement "div" [], .createElement "p" [], .createElement "p" [], .createElement "p" [],
      .append 1 2, .append 2 3, .append 1 4]

/-- To all paragraphs, and from each of them to itself, which puts them in document order if they
have a place there. -/
def paragraphSteps : List Step :=
  [{ axis := .descendant, test := .named "p" }, { axis := .self, test := .any }]

/-- For one, from the division while it is mounted and before. -/
theorem evaluate_rooted_alike_loose :
    looseParagraphs.WellFormed ∧ ∃ m path rooted alone, attach looseParagraphs 1 = .ok m ∧
      m.tree.positionalPath 1 = .ok path ∧
      m.tree.evaluate (path.join paragraphSteps) .document = .ok rooted ∧
      m.tree.evaluate { steps := paragraphSteps } 1 = .ok rooted ∧
      looseParagraphs.evaluate { steps := paragraphSteps } 1 = .ok alone ∧
      alone.Perm rooted := by
  have h : looseParagraphs.WellFormed := Edit.wellFormed_run (wellFormed_empty .html) _
  obtain ⟨m, hm⟩ := exists_attach h (n := 1) (by decide +kernel)
  have htree : m.tree = Edit.run looseParagraphs [.mount 1] := by
    simp only [Edit.run, List.foldl_cons, List.foldl_nil, Edit.apply, hm]
    rfl
  have hpath : m.tree.positionalPath 1 = .ok
      (.join .root [{ axis := .child, test := .named "div", predicates := [.position 1] }]) := by
    rw [htree]
    decide +kernel
  -- In the mounted tree both evaluations agree, and the division alone gives the same up to order.
  obtain ⟨rooted, alone, hfound⟩ := evaluate_rooted_alike h hm hpath paragraphSteps
  exact ⟨h, m, _, rooted, alone, hm, hpath, hfound⟩

/-- While the division stands alone, its paragraphs are listed parent by parent, and once it is
mounted they are listed in document order. -/
example : looseParagraphs.evaluate { steps := paragraphSteps } 1 = .ok [2, 4, 3] ∧
    (Edit.run looseParagraphs [.mount 1]).evaluate { steps := paragraphSteps } 1 =
      .ok [2, 3, 4] := by
  decide +kernel

end Mount

end TreeQuery
