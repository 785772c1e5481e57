import TreeQuery.Proofs.Steps

/-!
# Simple tests

What a type selector, an id, a list of classes or a test of an attribute asks of a node is said by
`SimpleTest.Holds`, without regard to how it is found out. A draft takes the test in as a step, as a
predicate, or as a predicate and a narrowing that follows the evaluation, and all three lead to the
nodes that pass the test (`SimpleTest.add_token`).
-/

namespace TreeQuery

/-- The qualifier and the local name are what stands before and after the first colon. -/
theorem Element.parts_iff {element : Element} {qualifier name : String} :
    element.qualifier? = some qualifier ∧ element.localName = name ↔
      ':' ∉ qualifier.toList ∧ element.tagName = qualifier ++ ":" ++ name := by
  unfold Element.qualifier? Element.localName
  constructor
  -- The name is split at its first colon.
  · intro ⟨hqualifier, hname⟩
    obtain ⟨⟨front, back⟩, hparts, hfront⟩ := Option.map_eq_some_iff.mp hqualifier
    rw [hparts] at hname
    obtain ⟨⟨before, after⟩, hsplit, hpair⟩ := Option.map_eq_some_iff.mp hparts
    obtain ⟨hbefore, hafter⟩ := Prod.mk.inj hpair
    obtain ⟨heq, hnot⟩ := Text.eq_of_splitOnce hsplit
    simp only [Option.map_some, Option.getD_some] at hname hfront
    rw [← hfront, ← hname, ← hbefore, ← hafter, String.toList_ofList]
    refine ⟨hnot, String.toList_injective ?_⟩
    simp [heq]
  -- Put together again, it is split there, as no colon stands in the qualifier.
  · rintro ⟨hnot, heq⟩
    have hparts : element.nameParts? = some (qualifier, name) := by
      unfold Element.nameParts?
      rw [heq]
      simp [Text.splitOnce_append hnot]
    rw [hparts]
    exact ⟨rfl, rfl⟩

namespace Tree

/-- An element has the name that a type selector other than `*` asks for. Among names with
qualifiers, a name with a bar asks for the qualifier and the local name, and another one for the
local name alone. -/
def HasName (t : Tree) (settings : Settings) (element : Element) (name : String) : Prop :=
  match barParts? name with
  | some (qualifier, localName) =>
    if settings.namespaceAware then
      element.qualifier? = some qualifier ∧ element.localName = localName
    else t.sameName element.tagName (qualifier ++ ":" ++ localName) = true
  | none =>
    if settings.namespaceAware then t.sameName element.localName name = true
    else t.sameName element.tagName name = true

end Tree

/-- A test of single nodes. -/
inductive SimpleTest where
  /-- A type selector. -/
  | tag (name : String) (valid : isTypeSelector name = true)
  /-- An id. -/
  | id (name : String)
  /-- Class names with points between them. -/
  | classes (names : String)
  /-- A test of an attribute. -/
  | attr (test : AttributeTest)

namespace SimpleTest

variable {t : Tree} {settings : Settings} {n : NodeId}

/-- The token of a test. -/
def token : SimpleTest → Token
  | tag name _ => .tag name
  | id name => .id name
  | classes names => .classes names
  | attr test => .attr test

/-- A node passes a test. Any node passes the type selector `*`, the others ask for an element. -/
def Holds (t : Tree) (settings : Settings) (n : NodeId) : SimpleTest → Prop
  | tag name _ =>
    name = "*" ∨ ∃ element, t.element? n = some element ∧ t.HasName settings element name
  | id name => t.attribute? n "id" = some name
  | classes names =>
    ∃ element, t.element? n = some element ∧
      ∀ name ∈ names.toList.splitOnP (· == '.'), String.ofList name ∈ element.classes
  | attr test =>
    ∃ actual, t.attribute? n test.name = some actual ∧
      test.comparison.holds actual.toList test.value.toList = true

/-! ## Tests of names -/

/-- The test of names that a type selector asks for is passed by the nodes that it asks for. -/
theorem passes_ofTag (t : Tree) (settings : Settings) (n : NodeId) (name : String) :
    t.passes true (.ofTag settings name) n = true ↔
      name = "*" ∨ ∃ element, t.element? n = some element ∧ t.HasName settings element name := by
  -- The star is passed by all nodes, and another selector by elements alone.
  by_cases hany : name = "*"
  · subst hany
    exact iff_of_true (Tree.passes_any n) (.inl rfl)
  · rw [or_iff_right hany]
    unfold NameTest.ofTag Tree.HasName Tree.passes
    rw [if_neg (by simpa using hany)]
    cases t.element? n with
    | none =>
      refine iff_of_false ?_ (by simp)
      rcases barParts? name with _ | ⟨qualifier, name⟩ <;> dsimp only <;> split_ifs <;> simp
    | some element =>
      simp only [Option.some.injEq, exists_eq_left']
      rcases barParts? name with _ | ⟨qualifier, name⟩ <;> dsimp only <;> split_ifs <;> simp

/-- Whether a node has the classes, as a proposition. -/
theorem hasClasses_iff {names : String} :
    t.hasClasses n names = true ↔ Holds t settings n (.classes names) := by
  unfold Tree.hasClasses Holds
  cases t.element? n with
  | none => simp
  | some element => simp

/-- Whether a node passes a test of an attribute, as a proposition. -/
theorem passesTest_iff {test : AttributeTest} :
    t.passesTest n test = true ↔ Holds t settings n (.attr test) := by
  unfold Tree.passesTest Holds
  cases hattribute : t.attribute? n test.name with
  | none => simp [hattribute]
  | some actual => simp [hattribute]

/-- Only elements have attributes. -/
theorem isElement_of_hasAttribute {name : String} (h : t.hasAttribute n name = true) :
    t.isElement n = true := by
  unfold Tree.hasAttribute Tree.attribute? at h
  unfold Tree.isElement
  cases helement : t.element? n with
  | none =>
    rw [helement] at h
    cases h
  | some element => rfl

/-- A node that has classes has the attribute that lists them. -/
theorem hasAttribute_of_hasClasses {names : String} (h : t.hasClasses n names = true) :
    t.hasAttribute n "class" = true := by
  unfold Tree.hasClasses at h
  unfold Tree.hasAttribute Tree.attribute?
  cases helement : t.element? n with
  | none =>
    rw [helement] at h
    cases h
  | some element =>
    rw [helement] at h
    show (element.attributes.get? "class").isSome = true
    cases hclass : element.attributes.get? "class" with
    | some value => rfl
    | none =>
      -- Without the attribute there are no classes, but one at least is asked for.
      obtain ⟨name, hname⟩ := List.exists_mem_of_ne_nil _
        (List.splitOnP_ne_nil (· == '.') names.toList)
      have hmem := List.all_eq_true.mp h name hname
      unfold Element.classes at hmem
      rw [hclass] at hmem
      cases hmem

/-- A node that passes a test of an attribute has the attribute. -/
theorem hasAttribute_of_passesTest {test : AttributeTest} (h : t.passesTest n test = true) :
    t.hasAttribute n test.name = true := by
  unfold Tree.passesTest at h
  unfold Tree.hasAttribute
  cases hattribute : t.attribute? n test.name with
  | none =>
    rw [hattribute] at h
    cases h
  | some actual => rfl

/-! ## Tests in a draft -/

/-- The predicate for an attribute keeps the nodes that have the attribute. -/
theorem keep_hasAttribute (t : Tree) (name : String) (nodes : List NodeId) :
    t.keep nodes (.hasAttribute name) = nodes.filter fun n => t.hasAttribute n name :=
  rfl

/-- The predicate for the value of an attribute keeps the nodes whose attribute has the value. -/
theorem keep_attributeIs (t : Tree) (name value : String) (nodes : List NodeId) :
    t.keep nodes (.attributeIs name value) =
      nodes.filter fun n => t.attribute? n name == some value :=
  rfl

/-- The test for the presence of an attribute is passed by the nodes that have it. -/
theorem holds_present_iff {name value : String} :
    Holds t settings n (.attr ⟨name, .present, value⟩) ↔ t.hasAttribute n name = true := by
  unfold Holds Tree.hasAttribute
  rw [Option.isSome_iff_exists]
  exact exists_congr fun actual => and_iff_left rfl

/-- The test for the value of an attribute is passed by the nodes whose attribute has it. -/
theorem holds_equal_iff {name value : String} :
    Holds t settings n (.attr ⟨name, .equal, value⟩) ↔ t.attribute? n name = some value := by
  unfold Holds
  constructor
  · rintro ⟨actual, hactual, heq⟩
    rw [hactual, String.toList_injective (beq_iff_eq.mp heq)]
  · exact fun hvalue => ⟨value, hvalue, beq_iff_eq.mpr rfl⟩

/-- A draft leads on to the nodes that pass a test: along the axis that waits, if one does. -/
def LeadsOn (t : Tree) (settings : Settings) (draft : Draft) (test : SimpleTest)
    (n m : NodeId) : Prop :=
  ∃ k, t.StepsTo draft.steps n k ∧ t.AxisTo (draft.axis?.getD .self) k m ∧
    test.Holds t settings m

/-- What a draft with one more predicate and a narrowing lead to together. -/
theorem leadsOn_iff_narrow (h : t.WellFormed) (settings : Settings) (draft : Draft)
    (test : SimpleTest) {name : String} {narrowing : Narrowing}
    (himp : ∀ m, narrowing.holds t m = true → t.hasAttribute m name = true)
    (hiff : ∀ m, narrowing.holds t m = true ↔ test.Holds t settings m) {n m : NodeId} :
    t.StepsTo (draft.addPredicate (.hasAttribute name)).steps n m ∧ narrowing.holds t m = true ↔
      test.LeadsOn t settings draft n m := by
  rw [Draft.stepsTo_addPredicate h (keep_hasAttribute t name)]
  constructor
  · rintro ⟨⟨k, hk, haxis, -⟩, hholds⟩
    exact ⟨k, hk, haxis, (hiff m).mp hholds⟩
  · rintro ⟨k, hk, haxis, hholds⟩
    have hnarrow := (hiff m).mpr hholds
    exact ⟨⟨k, hk, haxis, himp m hnarrow⟩, hnarrow⟩

/-- A draft takes a test in, with a narrowing behind it or without one, and leads on to the nodes
that pass the test. No axis waits behind it. -/
theorem add_token (h : t.WellFormed) (settings : Settings) (draft : Draft) (test : SimpleTest) :
    ∃ drafted : Draft, drafted.axis? = none ∧
      (draft.add settings test.token = (.structural, drafted) ∧
          (∀ n m, t.StepsTo drafted.steps n m ↔ test.LeadsOn t settings draft n m) ∨
        ∃ narrowing, draft.add settings test.token = (.narrow narrowing, drafted) ∧
          ∀ n m, t.StepsTo drafted.steps n m ∧ narrowing.holds t m = true ↔
            test.LeadsOn t settings draft n m) := by
  cases test with
  | tag name valid =>
    -- The only test that is drawn up as a step of its own.
    refine ⟨draft.addStep (.ofTag settings name), rfl, .inl ⟨if_pos valid, fun n m => ?_⟩⟩
    rw [Draft.stepsTo_addStep h]
    simp only [passes_ofTag]
    rfl
  | id name =>
    refine ⟨_, draft.axis?_addPredicate _, .inl ⟨rfl, fun n m => ?_⟩⟩
    rw [Draft.stepsTo_addPredicate h (keep_attributeIs t "id" name)]
    simp only [beq_iff_eq]
    rfl
  | classes names =>
    have himp : ∀ m, Narrowing.holds t m (.classes names) = true →
        t.hasAttribute m "class" = true := fun m => hasAttribute_of_hasClasses
    refine ⟨_, draft.axis?_addPredicate _, .inr ⟨_, rfl, fun n m => ?_⟩⟩
    exact leadsOn_iff_narrow h settings draft _ himp fun m => hasClasses_iff
  | attr test =>
    have himp : ∀ m, Narrowing.holds t m (.attr test) = true →
        t.hasAttribute m test.name = true := fun m => hasAttribute_of_passesTest
    have hnarrow : ∀ n m, t.StepsTo (draft.addPredicate (.hasAttribute test.name)).steps n m ∧
        Narrowing.holds t m (.attr test) = true ↔
          (SimpleTest.attr test).LeadsOn t settings draft n m := fun n m =>
      leadsOn_iff_narrow h settings draft _ himp fun m => passesTest_iff
    obtain ⟨name, comparison, value⟩ := test
    -- A path can say that an attribute is there or has a value, and no more.
    cases comparison with
    | present =>
      refine ⟨_, draft.axis?_addPredicate _, .inl ⟨rfl, fun n m => ?_⟩⟩
      rw [Draft.stepsTo_addPredicate h (keep_hasAttribute t name)]
      simp only [LeadsOn, holds_present_iff]
    | equal =>
      refine ⟨_, draft.axis?_addPredicate _, .inl ⟨rfl, fun n m => ?_⟩⟩
      rw [Draft.stepsTo_addPredicate h (keep_attributeIs t name value)]
      simp only [LeadsOn, holds_equal_iff, beq_iff_eq]
    | _ => exact ⟨_, draft.axis?_addPredicate _, .inr ⟨_, rfl, hnarrow⟩⟩

/-! ## Tests in a filter -/

/-- A filter asks the same of an element as a search. A filter compares a name with a bar as a
whole, takes an element without an id for one whose id is empty, and takes `[nodeType=1]` for a
question about the type of the node. -/
def AskedAlike (t : Tree) (settings : Settings) : SimpleTest → Prop
  | tag name _ => '|' ∉ name.toList ∨ settings.namespaceAware = t.flavour.namespaceAware
  | id name => name ≠ ""
  | classes _ => True
  | attr test => (Token.attr test).typeCode? = none

/-- No type selector has a colon. -/
theorem colon_not_mem {name : String} (valid : isTypeSelector name = true) :
    ':' ∉ name.toList := by
  intro hmem
  unfold isTypeSelector at valid
  rw [Bool.or_eq_true, Bool.and_eq_true, beq_iff_eq, List.all_eq_true] at valid
  rcases valid with rfl | ⟨-, hall⟩
  · revert hmem
    decide
  · exact absurd (hall ':' hmem) (by decide)

/-- A name with a bar is that of an element up to the case of letters, but not letter by letter,
where a search compares such names letter by letter and a filter does not. -/
def CaseApart (t : Tree) (settings : Settings) (element : Element) (name : String) : Prop :=
  settings.namespaceAware = true ∧ t.flavour.caseSensitive = false ∧
    ∃ qualifier localName, barParts? name = some (qualifier, localName) ∧
      Text.sameName element.tagName (qualifier ++ ":" ++ localName) = true ∧
      element.tagName ≠ qualifier ++ ":" ++ localName

/-- An element that passes a filter for a type selector other than `*` has the name that the
selector asks for, or else has it but for the case of letters. -/
theorem passesTag_iff_or {name : String} (valid : isTypeSelector name = true) (t : Tree)
    (settings : Settings) (element : Element) :
    t.passesTag settings element name = true ↔
      t.HasName settings element name ∨ CaseApart t settings element name := by
  unfold Tree.passesTag Tree.HasName CaseApart
  -- Without a bar the filter compares names like the search.
  cases hparts : barParts? name with
  | none =>
    dsimp only
    split_ifs
    · simp
    · simp
  | some parts =>
    obtain ⟨⟨before, after⟩, hsplit, rfl⟩ := Option.map_eq_some_iff.mp hparts
    obtain ⟨hname, -⟩ := Text.eq_of_splitOnce hsplit
    -- A type selector has no colon in it, and so neither has what stands in front of its bar.
    have hcolon : ':' ∉ (String.ofList before).toList := by
      rw [String.toList_ofList]
      intro hmem
      exact colon_not_mem valid (hname ▸ List.mem_append_left _ hmem)
    simp only [Option.some.injEq, Prod.mk.injEq]
    split_ifs with haware
    · -- The search splits the name of the element, the filter puts the two parts together.
      rw [Element.parts_iff, and_iff_right hcolon]
      unfold Tree.sameName Flavour.sameName
      cases hcase : t.flavour.caseSensitive with
      | true => simp
      | false =>
        by_cases heq : element.tagName = String.ofList before ++ ":" ++ String.ofList after
        · simp [heq, Text.sameName_self]
        · simp [heq, haware]
    · simp [haware]

/-- Where a filter asks the same as a search, no name is apart. -/
theorem not_caseApart {name : String} {valid : isTypeSelector name = true}
    (halike : (tag name valid).AskedAlike t settings) (element : Element) :
    ¬ CaseApart t settings element name := by
  rintro ⟨haware, hcase, qualifier, localName, hparts, -⟩
  obtain ⟨⟨before, after⟩, hsplit, -⟩ := Option.map_eq_some_iff.mp hparts
  obtain ⟨hname, -⟩ := Text.eq_of_splitOnce hsplit
  have hbar : '|' ∈ name.toList := hname ▸ List.mem_append_right before List.mem_cons_self
  have hsuits := halike.resolve_left (not_not.mpr hbar)
  -- A flavour that splits names into parts tells their letters apart as well.
  rw [haware] at hsuits
  revert hsuits hcase
  cases t.flavour with
  | xml => exact fun hcase => nomatch hcase
  | _ => exact fun _ hsuits => nomatch hsuits

/-- An element passes a filter for a type selector if it passes the test, or else has the name but
for the case of letters. -/
theorem elementPasses_tag_iff {name : String} (valid : isTypeSelector name = true)
    {element : Element} (hn : t.element? n = some element) :
    t.elementPasses settings n element (.tag name) = true ↔
      Holds t settings n (.tag name valid) ∨ CaseApart t settings element name := by
  show (name == "*" || t.passesTag settings element name) = true ↔ _
  rw [Bool.or_eq_true, beq_iff_eq, passesTag_iff_or valid, ← or_assoc]
  refine or_congr_left (or_congr_right ⟨fun hname => ⟨element, hn, hname⟩, ?_⟩)
  rintro ⟨other, hother, hname⟩
  rw [hn] at hother
  rwa [Option.some.inj hother]

/-- A filter finds out whether an element passes a test. -/
theorem elementPasses_iff {test : SimpleTest} (halike : test.AskedAlike t settings)
    {element : Element} (hn : t.element? n = some element) :
    t.elementPasses settings n element test.token = true ↔ test.Holds t settings n := by
  cases test with
  -- A filter for a name lets case pass where the search does not, which is excluded here.
  | tag name valid =>
    exact (elementPasses_tag_iff valid hn).trans (or_iff_left (not_caseApart halike element))
  -- For the filter an element without an id has the empty one, and the name is not empty.
  | id name =>
    show (element.id?.getD "" == name) = true ↔ t.attribute? n "id" = some name
    have hid : t.attribute? n "id" = element.id? := by
      unfold Tree.attribute?
      rw [hn]
      rfl
    rw [hid, beq_iff_eq]
    cases element.id? with
    | none => exact iff_of_false (Ne.symm halike) (fun hsome => nomatch hsome)
    | some actual => simp
  | classes names => exact hasClasses_iff
  | attr test => exact passesTest_iff

/-- A filter keeps the elements that pass all of its tests. -/
theorem passesAll_iff {tests : List SimpleTest}
    (halike : ∀ test ∈ tests, test.AskedAlike t settings) (hn : t.isElement n = true) :
    t.passesAll settings n (tests.map (·.token)) = true ↔
      ∀ test ∈ tests, test.Holds t settings n := by
  obtain ⟨element, helement⟩ := Option.isSome_iff_exists.mp hn
  have hdata : t.data? n = some (.element element) := Tree.element?_eq_some_iff.mp helement
  unfold Tree.passesAll
  rw [hdata]
  show (tests.map (·.token)).all _ = true ↔ _
  rw [List.all_map, List.all_eq_true]
  refine forall₂_congr fun test htest => ?_
  rw [← elementPasses_iff (halike test htest) helement]
  -- Only a test for the type of a node would be asked of the node first.
  have htype : test.token.typeCode? = none := by
    cases test with
    | attr test => exact halike _ htest
    | _ => rfl
  dsimp only [Function.comp]
  rw [htype]

end SimpleTest

/-- Only elements pass a narrowing. -/
theorem Narrowing.isElement_of_holds {t : Tree} {n : NodeId} (narrowing : Narrowing)
    (h : narrowing.holds t n = true) : t.isElement n = true := by
  cases narrowing with
  | classes names =>
    exact SimpleTest.isElement_of_hasAttribute (SimpleTest.hasAttribute_of_hasClasses h)
  | attr test =>
    exact SimpleTest.isElement_of_hasAttribute (SimpleTest.hasAttribute_of_passesTest h)

end TreeQuery
