import TreeQuery.Proofs.Traversal

/-!
# Type selectors in searches and filters

A search makes the test of a type selector part of a path, and a filter looks at the name of each
node by itself. For a name without a bar both compare the same two names in the same way. A name
with a bar is compared as a whole by a filter, under the rule of the tree for the case of letters;
a search that knows of qualifiers compares the two parts letter by letter, whatever the tree. So the
two disagree on an element exactly if its name is that of the selector up to the case of letters,
and not letter by letter, in a tree that does not tell letters apart by their case
(`name_tests_agree_iff`). The filter keeps such an element and the search misses it.
-/

namespace TreeQuery

variable {t : Tree} {settings : Settings} {n : NodeId} {element : Element} {name : String}

namespace SimpleTest

/-- An element whose name differs in the case of letters does not pass the test. -/
theorem CaseApart.not_holds (h : CaseApart t settings element name)
    (valid : isTypeSelector name = true) (hn : t.element? n = some element) :
    ¬ Holds t settings n (.tag name valid) := by
  obtain ⟨haware, -, qualifier, localName, hparts, -, hne⟩ := h
  rintro (rfl | ⟨other, hother, hname⟩)
  · revert hparts
    simp [barParts?, Text.splitOnce]
  · rw [hn] at hother
    obtain rfl := Option.some.inj hother
    unfold Tree.HasName at hname
    rw [hparts] at hname
    dsimp only at hname
    rw [if_pos haware, Element.parts_iff] at hname
    exact hne hname.2

/-- The test of names that is part of a path and the test that a filter makes agree on an element
unless the case of letters keeps them apart. -/
theorem passes_iff_elementPasses_iff (valid : isTypeSelector name = true)
    (hn : t.element? n = some element) (onSelf : Bool) :
    (t.passes onSelf (.ofTag settings name) n = true ↔
        t.elementPasses settings n element (.tag name) = true) ↔
      ¬ CaseApart t settings element name := by
  -- On an element the test in a path holds whether or not it is on the node itself.
  have hself : t.passes onSelf (.ofTag settings name) n = true ↔
      Holds t settings n (.tag name valid) := by
    have helement : t.isElement n = true := Option.isSome_iff_exists.mpr ⟨element, hn⟩
    cases onSelf with
    | true => exact passes_ofTag t settings n name
    | false =>
      rw [Tree.passes_false_iff, and_iff_right helement]
      exact passes_ofTag t settings n name
  rw [hself, elementPasses_tag_iff valid hn]
  -- The filter lets pass, besides what the path does, the elements that case keeps apart.
  constructor
  · intro hagree hapart
    exact hapart.not_holds valid hn (hagree.mpr (.inr hapart))
  · exact fun hapart => (or_iff_left hapart).symm

end SimpleTest

namespace Selector

/-- A type selector is read as one group with that selector. -/
theorem parse_tag (valid : isTypeSelector name = true) :
    parse name = ⟨[[.descendant, .tag name]]⟩ := by
  -- All characters of the name may stand in a tag, so none of them is blank, and nothing stops the
  -- run.
  have hread : (Token.tag name).Readable := by
    unfold isTypeSelector at valid
    rw [Bool.or_eq_true, Bool.and_eq_true, beq_iff_eq, List.all_eq_true] at valid
    obtain rfl | ⟨hne, hchars⟩ := valid
    · exact ⟨by decide, forall_mem_of_all (by decide)⟩
    · refine ⟨by simpa [String.toList_eq_nil_iff] using hne, fun c hc => ?_⟩
      have hc := hchars c hc
      unfold isTagChar
      simp only [Bool.or_eq_true] at hc ⊢
      tauto
  have hblank : ∀ c ∈ name.toList, Text.isBlank c = false := fun c hc =>
    (plain_of_isTagChar (hread.2 c hc)).1
  have hchars : name.toList = (Token.tag name).chars ++ [] := (List.append_nil _).symm
  have hstop : (Token.tag name).StopsAt ([] : List Char).head? := fun c hc => by cases hc
  unfold parse
  rw [normalize_eq hblank, hchars, lexemes_chars _ hread hstop, lexemes]
  rfl

end Selector

namespace Query

/-- A search from the document node for a type selector finds the elements below it that pass the
test of names. -/
theorem meets_find_tag (h : t.WellFormed) (valid : isTypeSelector name = true)
    (settings : Settings) :
    Meets t (find settings (Selector.parse name) [.document])
      (fun found => ∀ e, e ∈ found ↔ t.Above .document e ∧ t.isElement e = true ∧
        t.passes true (.ofTag settings name) e = true) Never := by
  have hadd : (Draft.add settings ⟨[], some .descendant⟩
      (SimpleTest.tag name valid).token).1 = .structural := by
    show (if isTypeSelector name then _ else _ : Outcome × Draft).1 = _
    rw [if_pos valid]
  rw [Selector.parse_tag valid]
  refine (meets_find_test h hadd).weaken (fun found hfound e => ?_) fun _ he => he
  rw [SimpleTest.passes_ofTag]
  exact hfound.2 e

/-- A filter for a type selector keeps the nodes that pass, each once, and leaves the session as it
is. -/
theorem keep_tag_eq (valid : isTypeSelector name = true) (settings : Settings)
    (nodes : List NodeId) (s : Session) :
    keep settings (Selector.parse name) nodes s =
      .ok ((NodeSet.ofList nodes).nodes.filter fun n => s.tree.passesAll settings n [.tag name])
        s := by
  have hgroup : Group.simpleTokens [.descendant, .tag name] =
      [SimpleTest.tag name valid].map (·.token) := rfl
  rw [Selector.parse_tag valid]
  exact keep_tests_eq hgroup (List.cons_ne_nil _ _) settings nodes s

/-- The test of a type selector in a path and the test that a filter makes agree on an element
exactly if the case of letters does not keep them apart. So a search from the document node and a
filter, which both succeed, agree on exactly these of the elements below the document node. -/
theorem name_tests_agree_iff (valid : isTypeSelector name = true) (settings : Settings) :
    (∀ (t : Tree) (onSelf : Bool) (n : NodeId) (element : Element), t.element? n = some element →
      ((t.passes onSelf (.ofTag settings name) n = true ↔
          t.elementPasses settings n element (.tag name) = true) ↔
        ¬ SimpleTest.CaseApart t settings element name)) ∧
      ∀ s : Session, s.tree.WellFormed → ∀ nodes : List NodeId,
        ∃ found kept s', find settings (Selector.parse name) [.document] s = .ok found s' ∧
          keep settings (Selector.parse name) nodes s' = .ok kept s' ∧
          ∀ n ∈ nodes, ∀ element, s.tree.element? n = some element → s.tree.Above .document n →
            ((n ∈ found ↔ n ∈ kept) ↔ ¬ SimpleTest.CaseApart s.tree settings element name) := by
  refine ⟨fun t onSelf n element hn => SimpleTest.passes_iff_elementPasses_iff valid hn onSelf,
    fun s h nodes => ?_⟩
  -- The search leaves the tree as it was, so the filter asks the same elements afterwards.
  obtain ⟨found, s', hok, htree, hfound⟩ := (meets_find_tag h valid settings).exists_ok rfl
  refine ⟨found, _, s', hok, keep_tag_eq valid settings nodes s',
    fun n hn element helement habove => ?_⟩
  have hisElement : s.tree.isElement n = true := Option.isSome_iff_exists.mpr ⟨element, helement⟩
  -- Of an element the filter asks its one token.
  have hkept : s'.tree.passesAll settings n [.tag name] =
      s.tree.elementPasses settings n element (.tag name) := by
    rw [htree]
    unfold Tree.passesAll
    rw [Tree.element?_eq_some_iff.mp helement]
    simp [Token.typeCode?]
  rw [hfound, and_iff_right habove, and_iff_right hisElement, List.mem_filter, NodeSet.mem_ofList,
    and_iff_right hn, hkept]
  exact SimpleTest.passes_iff_elementPasses_iff valid helement true

/-- An HTML tree with an element whose name has a qualifier. -/
def drawing : Tree :=
  Edit.run (.empty .html) [.createElement "svg:rect" [], .append .document 1]

/-- The drawing comes about by edits. -/
theorem wellFormed_drawing : drawing.WellFormed :=
  Edit.wellFormed_run (Tree.wellFormed_empty .html) _

/-- For one, the two agree on `svg|rect` and an element `svg:rect`, by itself and in a search and a
filter. -/
theorem name_tests_agree_iff_rect :
    isTypeSelector "svg|rect" = true ∧ drawing.WellFormed ∧
      drawing.element? 1 = some ⟨"svg:rect", .empty⟩ ∧ drawing.Above .document 1 ∧
      (drawing.passes false (.ofTag (.ofFlavour .xml) "svg|rect") 1 = true ↔
        drawing.elementPasses (.ofFlavour .xml) 1 ⟨"svg:rect", .empty⟩ (.tag "svg|rect") = true) ∧
      ∃ found kept s',
        find (.ofFlavour .xml) (Selector.parse "svg|rect") [.document] { tree := drawing } =
            .ok found s' ∧
          keep (.ofFlavour .xml) (Selector.parse "svg|rect") [1] s' = .ok kept s' ∧
          (1 ∈ found ↔ 1 ∈ kept) := by
  have hvalid : isTypeSelector "svg|rect" = true := by decide +kernel
  have helement : drawing.element? 1 = some ⟨"svg:rect", .empty⟩ := by decide +kernel
  have habove : drawing.Above .document 1 := .of_parent? (by decide +kernel)
  -- The two parts are written as in the name of the element, so case does not keep them apart.
  have htogether : ¬ SimpleTest.CaseApart drawing (.ofFlavour .xml) ⟨"svg:rect", .empty⟩
      "svg|rect" := by
    have hparts : barParts? "svg|rect" = some ("svg", "rect") := by decide +kernel
    rintro ⟨-, -, qualifier, localName, hother, -, hne⟩
    rw [hparts] at hother
    obtain ⟨rfl, rfl⟩ := Prod.mk.inj (Option.some.inj hother)
    exact hne (by decide)
  obtain ⟨htests, hsearch⟩ := name_tests_agree_iff hvalid (.ofFlavour .xml)
  obtain ⟨found, kept, s', hfind, hkeep, hagree⟩ :=
    hsearch { tree := drawing } wellFormed_drawing [1]
  exact ⟨hvalid, wellFormed_drawing, helement, habove,
    (htests drawing false 1 _ helement).mpr htogether, found, kept, s', hfind, hkeep,
    (hagree 1 (List.mem_singleton_self 1) _ helement habove).mpr htogether⟩

/-- Under `SVG|rect` a filter keeps the element of the HTML tree and the test in a path stops it, so
that a search does not find it. -/
theorem name_tests_not_alike :
    drawing.passes false (.ofTag (.ofFlavour .xml) "SVG|rect") 1 = false ∧
      drawing.elementPasses (.ofFlavour .xml) 1 ⟨"svg:rect", .empty⟩ (.tag "SVG|rect") = true ∧
      ∃ s', find (.ofFlavour .xml) (Selector.parse "SVG|rect") [.document] { tree := drawing } =
          .ok [] s' ∧
        keep (.ofFlavour .xml) (Selector.parse "SVG|rect") [1] s' = .ok [1] s' := by
  have hvalid : isTypeSelector "SVG|rect" = true := by decide +kernel
  -- No node of the drawing passes the test in the path, which is checked node by node.
  have hstopped : ∀ n < drawing.size,
      ¬ (drawing.isElement n = true ∧
        drawing.passes true (.ofTag (.ofFlavour .xml) "SVG|rect") n = true) := by
    decide +kernel
  obtain ⟨found, s', hok, htree, hfound⟩ :=
    (meets_find_tag wellFormed_drawing hvalid (.ofFlavour .xml)).exists_ok
      (rfl : ({ tree := drawing } : Session).tree = drawing)
  have hnone : found = [] := List.eq_nil_iff_forall_not_mem.mpr fun n hn => by
    obtain ⟨-, helement, hpasses⟩ := (hfound n).mp hn
    obtain ⟨element, hn⟩ := Option.isSome_iff_exists.mp helement
    have hlt := Tree.lt_size_of_data? (Tree.element?_eq_some_iff.mp hn)
    exact hstopped n hlt ⟨helement, hpasses⟩
  -- The filter keeps the element, in the tree that the search leaves.
  have hkept : ((NodeSet.ofList [1]).nodes.filter fun n =>
      drawing.passesAll (.ofFlavour .xml) n [.tag "SVG|rect"]) = [1] := by
    decide +kernel
  refine ⟨by decide +kernel, by decide +kernel, s', hnone ▸ hok, ?_⟩
  rw [keep_tag_eq hvalid, htree]
  exact congrArg (EStateM.Result.ok · _) hkept

end Query

end TreeQuery
