import TreeQuery.Proofs.SiblingRuns

/-!
# Compounds behind sibling combinators

Behind a star, `+` and `~` lead to the same nodes, which are the elements with an element before
them among their siblings (`Tree.Loaded.matches_star_iff`): the nearest element before such a node
is one that `+` leads on from. So a search for `* + C` or `* ~ C` finds what a search for `C` finds,
as far as an element stands before it, because the tests of `C` are all read, if in two portions. It
does not where the type selector of `C` is cut at a bar. What is found then are elements that pass
both pieces, and no element that is found for `C` (`Query.find_sibling_compound`).
-/

namespace TreeQuery

variable {tests : List SimpleTest}

/-! ## Searching -/

namespace Tree

variable {t : Tree} {settings : Settings} {n e : NodeId}

/-- An element stands before a node among its siblings. -/
def HasEarlier (t : Tree) (e : NodeId) : Prop :=
  ∃ n between, t.isElement n = true ∧ t.Later between n e

/-- An element matches one compound from a node if the two are related and it passes the tests. -/
theorem matches_singleton {compound : Compound} : t.Matches settings [compound] n e ↔
    t.isElement e = true ∧ compound.Relates t n e ∧
      ∀ test ∈ compound.tests, test.Holds t settings e := by
  simp only [Matches]
  constructor
  · rintro ⟨_, he, hrelated, hholds, rfl⟩
    exact ⟨he, hrelated, hholds⟩
  · rintro ⟨he, hrelated, hholds⟩
    exact ⟨e, he, hrelated, hholds, rfl⟩

/-- The nearest element before a node has no element between them. -/
theorem Later.exists_nearest {between : List NodeId} (h : t.Later between n e)
    (hn : t.isElement n = true) :
    ∃ m between', t.isElement m = true ∧ t.Later between' m e ∧
      ∀ k ∈ between', t.isElement k = false := by
  obtain ⟨p, before, after, hsplit⟩ := h
  -- Going through what stands between, the nearest element so far is at hand.
  have hgo : ∀ (rest : List NodeId) (n : NodeId) (before front : List NodeId),
      t.isElement n = true → (∀ k ∈ front, t.isElement k = false) →
      t.children p = before ++ n :: (front ++ (rest ++ e :: after)) →
        ∃ m between', t.isElement m = true ∧ t.Later between' m e ∧
          ∀ k ∈ between', t.isElement k = false := by
    intro rest
    induction rest with
    | nil => exact fun n before front hn hfront hsplit =>
        ⟨n, front, hn, ⟨p, before, after, hsplit⟩, hfront⟩
    | cons k rest ih =>
      intro n before front hn hfront hsplit
      cases hk : t.isElement k with
      | true =>
        exact ih k (before ++ n :: front) [] hk (List.forall_mem_nil _) (by simp [hsplit])
      | false =>
        refine ih n before (front ++ [k]) hn (fun j hj => ?_) (by simp [hsplit])
        obtain hj | hj := List.mem_append.mp hj
        · exact hfront j hj
        · exact List.mem_singleton.mp hj ▸ hk
  exact hgo between n before [] hn (List.forall_mem_nil _) hsplit

/-- Both of two siblings lie below the document node in a tree made of markup. -/
theorem Loaded.above_of_later (h : t.Loaded) {between : List NodeId}
    (hlater : t.Later between n e) : t.Above .document n ∧ t.Above .document e := by
  obtain ⟨p, before, after, hsplit⟩ := hlater
  have habove : ∀ c ∈ t.children p, t.Above .document c := by
    intro c hc
    have hparent := h.mem_children.mp hc
    exact (h.attached (h.child_lt_size hc)).resolve_left (h.ne_document_of_parent? hparent)
  rw [hsplit] at habove
  exact ⟨habove n (by simp), habove e (by simp)⟩

/-- Behind a star, both sibling combinators lead to the elements with an element before them that
pass the tests. -/
theorem Loaded.matches_star_iff (h : t.Loaded) {compound : Compound} {sub : SiblingTest}
    (hcompound : compound = .adjacent sub tests ∨ compound = .general sub tests) :
    t.Matches settings [.descendant (.tag "*" rfl) [], compound] .document e ↔
      t.isElement e = true ∧ t.HasEarlier e ∧
        ∀ test ∈ sub.tests ++ tests, test.Holds t settings e := by
  -- Either leads to later siblings, and to the next one among them.
  have hlater : ∀ n m, compound.Relates t n m → ∃ between, t.Later between n m := by
    intro n m hrelated
    obtain rfl | rfl := hcompound
    · exact hrelated.imp fun between hboth => hboth.1
    · exact hrelated
  have hnext : ∀ n m between, t.Later between n m → (∀ k ∈ between, t.isElement k = false) →
      compound.Relates t n m := by
    intro n m between hbetween hnone
    obtain rfl | rfl := hcompound
    · exact ⟨between, hbetween, hnone⟩
    · exact ⟨between, hbetween⟩
  have htests : compound.tests = sub.tests ++ tests := by
    obtain rfl | rfl := hcompound
    · rfl
    · rfl
  simp only [Matches, htests]
  -- The star takes any element before the node, and the nearest one before it will do.
  constructor
  · rintro ⟨n, hn, -, -, _, he, hrelated, hholds, rfl⟩
    obtain ⟨between, hbetween⟩ := hlater n _ hrelated
    exact ⟨he, ⟨n, between, hn, hbetween⟩, hholds⟩
  · rintro ⟨he, ⟨n, between, hn, hbetween⟩, hholds⟩
    obtain ⟨m, between', hm, hbetween', hnone⟩ := hbetween.exists_nearest hn
    have hany : ∀ test ∈ [SimpleTest.tag "*" rfl], test.Holds t settings m := fun test htest =>
      List.mem_singleton.mp htest ▸ .inl rfl
    exact ⟨m, hm, (h.above_of_later hbetween').1, hany, e, he, hnext m e between' hbetween' hnone,
      hholds, rfl⟩

end Tree

namespace Query

variable {t : Tree} {settings : Settings}

/-- A search from the document node with one group finds what its tokens lead to. -/
theorem Reads.meets_find (h : t.Loaded) {group : Group} {goesTo : NodeId → NodeId → Prop}
    (hreads : Reads t settings group none goesTo) :
    Meets t (find settings ⟨[group]⟩ [.document])
      (fun found => ∀ e, e ∈ found ↔ goesTo .document e) Never := by
  have hdocument : ∀ n ∈ [NodeId.document], t.Followable n := fun n hn =>
    List.mem_singleton.mp hn ▸ .inr (Tree.isDocument_iff.mpr h.document)
  unfold find
  refine (hreads.meets_findGroups hdocument).bind fun found hfound => .pure fun e => ?_
  rw [NodeSet.mem_ofList, hfound e]
  simp only [List.mem_singleton, exists_eq_left]

/-- A search from the document node finds the elements that match the compounds. -/
theorem meets_find_compounds (h : t.Loaded) (settings : Settings) (compounds : List Compound) :
    Meets t (find settings ⟨[compounds.flatMap (·.tokens)]⟩ [.document])
      (fun found => ∀ e, e ∈ found ↔ t.Matches settings compounds .document e) Never :=
  Reads.meets_find h (reads_group h compounds)

/-- Behind a star and either sibling combinator, a text is read as a compound of the tests of the
run and those that follow it. -/
theorem exists_compound_of_star {selector : String} {sub : SiblingTest}
    (htake : (Selector.normalize selector.toList).takeWhile Selector.isSiblingChar =
      sub.text.toList)
    (hrest : Selector.split (Selector.lexemes
      ((Selector.normalize selector.toList).dropWhile Selector.isSiblingChar)) =
        [tests.map (·.token)]) :
    ∀ combinator ∈ ["* + ", "* ~ "], ∃ compound : Compound,
      (compound = .adjacent sub tests ∨ compound = .general sub tests) ∧
        Selector.parse (combinator ++ selector) =
          ⟨[[.descendant (.tag "*" rfl) [], compound].flatMap (·.tokens)]⟩ := by
  intro combinator hcombinator
  -- Behind `+` and behind `~` the text is read in the same way.
  obtain rfl | hcombinator := List.mem_cons.mp hcombinator
  · have hparse := Selector.parse_star (c := '+') rfl rfl .adjacent (fun _ => rfl) htake hrest
    exact ⟨.adjacent sub tests, .inl rfl,
      hparse.trans (by simp [Compound.tokens, SimpleTest.token])⟩
  · obtain rfl := List.mem_singleton.mp hcombinator
    have hparse := Selector.parse_star (c := '~') rfl rfl .general (fun _ => rfl) htake hrest
    exact ⟨.general sub tests, .inr rfl,
      hparse.trans (by simp [Compound.tokens, SimpleTest.token])⟩

/-- So a search for it finds the elements with an element before them that pass all these tests. -/
theorem meets_find_star (h : t.Loaded) (settings : Settings) {selector : String}
    {sub : SiblingTest}
    (htake : (Selector.normalize selector.toList).takeWhile Selector.isSiblingChar =
      sub.text.toList)
    (hrest : Selector.split (Selector.lexemes
      ((Selector.normalize selector.toList).dropWhile Selector.isSiblingChar)) =
        [tests.map (·.token)]) :
    ∀ combinator ∈ ["* + ", "* ~ "],
      Meets t (find settings (Selector.parse (combinator ++ selector)) [.document])
        (fun found => ∀ e, e ∈ found ↔ t.isElement e = true ∧ t.HasEarlier e ∧
          ∀ test ∈ sub.tests ++ tests, test.Holds t settings e) Never := by
  intro combinator hcombinator
  obtain ⟨compound, hcompound, hparse⟩ :=
    exists_compound_of_star htake hrest combinator hcombinator
  rw [hparse]
  refine (meets_find_compounds h settings _).weaken (fun found hfound e => ?_) fun _ he => he
  rw [hfound e, h.matches_star_iff hcompound]

end Query

/-! ## Type selectors that are cut -/

/-- Names that are the same as a third name are the same, up to the case of letters at most. -/
theorem Tree.asciiLower_eq {t : Tree} {actual wanted : String}
    (h : t.sameName actual wanted = true) :
    Text.asciiLower actual.toList = Text.asciiLower wanted.toList := by
  unfold Tree.sameName Flavour.sameName at h
  split_ifs at h
  · rw [beq_iff_eq.mp h]
  · exact beq_iff_eq.mp h

/-- No other character than the colon has the colon for its lower-case form. -/
theorem Text.eq_colon_of_toLower {c : Char} (h : c.toLower = ':') : c = ':' := by
  unfold Char.toLower at h
  split_ifs at h with hupper
  · have hval : c.val + 32 = 58 := congrArg Char.val h
    have hlow : 65 ≤ c.val := hupper.1
    have hhigh : c.val ≤ 90 := hupper.2
    grind
  · exact h

namespace SimpleTest

variable {t : Tree} {settings : Settings} {element : Element} {qualifier localName : String}

/-- The two type selectors that one with a qualifier is cut into ask for a name with nothing in
front of its colon, where names are read for qualifiers at all. -/
theorem hasName_cut_iff (hqualifier : isTypeSelector qualifier = true) (hempty : qualifier ≠ "")
    (hbar : '|' ∉ qualifier.toList) :
    t.HasName settings element qualifier ∧ t.HasName settings element ("|" ++ localName) ↔
      settings.namespaceAware = true ∧ element.tagName = ":" ++ localName ∧
        t.sameName localName qualifier = true := by
  have hplain : barParts? qualifier = none := by
    unfold barParts?
    rw [Text.splitOnce_eq_none_iff.mpr hbar]
    rfl
  have hparts : barParts? ("|" ++ localName) = some ("", localName) := by
    have hlist : ("|" ++ localName).toList = '|' :: localName.toList := by simp
    unfold barParts?
    rw [hlist, Text.splitOnce, if_pos rfl]
    simp
  unfold Tree.HasName
  rw [hplain, hparts]
  dsimp only
  cases settings.namespaceAware with
  | true =>
    have hcolon : element.qualifier? = some "" ∧ element.localName = localName ↔
        element.tagName = ":" ++ localName := by
      rw [Element.parts_iff]
      simp
    rw [if_pos rfl, if_pos rfl, hcolon, and_iff_right rfl, and_comm]
    refine and_congr_right fun hname => ?_
    rw [(hcolon.mpr hname).2]
  | false =>
    -- The name cannot be the same as one without a colon and as one that starts with it.
    refine iff_of_false ?_ fun hboth => Bool.false_ne_true hboth.1
    rw [if_neg Bool.false_ne_true, if_neg Bool.false_ne_true]
    rintro ⟨hwithout, hwith⟩
    have hlower := (Tree.asciiLower_eq hwithout).symm.trans (Tree.asciiLower_eq hwith)
    obtain ⟨c, cs, hchars⟩ := List.exists_cons_of_ne_nil (mt String.toList_eq_nil_iff.mp hempty)
    have hcolon : c = ':' := by
      rw [hchars] at hlower
      simp only [Text.asciiLower, String.toList_append, List.map_cons] at hlower
      exact Text.eq_colon_of_toLower (List.cons.inj hlower).1
    refine colon_not_mem hqualifier ?_
    rw [hchars, hcolon]
    exact List.mem_cons_self

/-- A name with nothing in front of its colon is not the one with the qualifier. -/
theorem not_hasName_of_cut (haware : settings.namespaceAware = true) (hempty : qualifier ≠ "")
    (hbar : '|' ∉ qualifier.toList) (hname : element.tagName = ":" ++ localName) :
    ¬ t.HasName settings element (qualifier ++ "|" ++ localName) := by
  -- The selector asks for a qualifier with characters in it.
  have hparts : barParts? (qualifier ++ "|" ++ localName) = some (qualifier, localName) := by
    have hlist : (qualifier ++ "|" ++ localName).toList =
        qualifier.toList ++ '|' :: localName.toList := by simp
    unfold barParts?
    rw [hlist, Text.splitOnce_append hbar]
    simp
  unfold Tree.HasName
  rw [hparts]
  dsimp only
  rw [if_pos haware, Element.parts_iff, hname]
  rintro ⟨-, heq⟩
  -- But the name of the element has none in front of the colon, as their lengths tell.
  have hlength := congrArg String.length heq
  rw [String.length_append, String.length_append, String.length_append] at hlength
  exact hempty (String.length_eq_zero_iff.mp (by omega))

/-- An element passes a type selector other than `*` if it has the name. -/
theorem holds_tag_iff {n : NodeId} {name : String} (valid : isTypeSelector name = true)
    (hstar : '*' ∉ name.toList) (hn : t.element? n = some element) :
    Holds t settings n (.tag name valid) ↔ t.HasName settings element name := by
  have hne : name ≠ "*" := by
    rintro rfl
    exact hstar (by decide)
  show name = "*" ∨ (∃ other, t.element? n = some other ∧ _) ↔ _
  simp [hne, hn]

end SimpleTest

namespace Query

open Selector (Cut normalize)

variable {t : Tree} {settings : Settings} {selector : String}

/-- A search for a compound finds the elements below the document node that pass its tests. -/
theorem meets_find_compound (h : t.Loaded) (settings : Settings)
    (hparse : Selector.parse selector = ⟨[.descendant :: tests.map (·.token)]⟩) :
    Meets t (find settings (Selector.parse selector) [.document])
      (fun found => ∀ e, e ∈ found ↔ t.isElement e = true ∧ t.Above .document e ∧
        ∀ test ∈ tests, test.Holds t settings e) Never := by
  obtain ⟨-, hne⟩ := Selector.split_of_parse hparse
  obtain ⟨first, others, rfl⟩ := List.exists_cons_of_ne_nil hne
  have htokens : Token.descendant :: (first :: others).map (·.token) =
      [Compound.descendant first others].flatMap (·.tokens) := by simp [Compound.tokens]
  rw [hparse, htokens]
  refine (meets_find_compounds h settings _).weaken (fun found hfound e => ?_) fun _ he => he
  rw [hfound e, Tree.matches_singleton]
  rfl

/-- Behind a star and a sibling combinator, a search for a compound that is not cut finds the
elements with an element before them that pass its tests. -/
theorem meets_find_star_of_not_cut (h : t.Loaded) (settings : Settings)
    (hparse : Selector.parse selector = ⟨[.descendant :: tests.map (·.token)]⟩)
    (hfirst : TagFirst tests)
    (hcut : ∀ qualifier localName, ¬ Cut (normalize selector.toList) qualifier localName) :
    ∀ combinator ∈ ["* + ", "* ~ "],
      Meets t (find settings (Selector.parse (combinator ++ selector)) [.document])
        (fun found => ∀ e, e ∈ found ↔ t.isElement e = true ∧ t.HasEarlier e ∧
          ∀ test ∈ tests, test.Holds t settings e) Never := by
  obtain ⟨hsplit, -⟩ := Selector.split_of_parse hparse
  obtain ⟨sub, others, htake, rfl, hrest⟩ := Selector.exists_sub_of_not_cut hsplit hfirst hcut
  exact meets_find_star h settings htake hrest

/-- Where a type selector is cut, such a search finds the elements with an element before them that
pass both type selectors it is cut into, and the other tests. -/
theorem meets_find_star_of_cut (h : t.Loaded) (settings : Settings)
    (hparse : Selector.parse selector = ⟨[.descendant :: tests.map (·.token)]⟩)
    {qualifier localName : String}
    (hcut : Cut (normalize selector.toList) qualifier localName) :
    ∀ combinator ∈ ["* + ", "* ~ "],
      Meets t (find settings (Selector.parse (combinator ++ selector)) [.document])
        (fun found => ∀ e, e ∈ found ↔ t.HasEarlier e ∧ settings.namespaceAware = true ∧
          (∃ element, t.element? e = some element ∧ element.tagName = ":" ++ localName ∧
            t.sameName localName qualifier = true) ∧
          ∀ test ∈ tests.tail, test.Holds t settings e) Never := by
  obtain ⟨hsplit, -⟩ := Selector.split_of_parse hparse
  obtain ⟨hlocal, whole, others, rfl, htake, hrest⟩ := Selector.exists_sub_of_cut hsplit hcut
  obtain ⟨hstar, hqualifier, -⟩ := Selector.isTypeSelector_parts whole hcut.2
  have hbar := hcut.takeWhile_eq.2
  have hlocalStar : '*' ∉ ("|" ++ localName).toList := Selector.star_not_mem hlocal (by simp)
  -- What stands in front of the bar is the test behind the combinator, and it has no classes.
  let sub : SiblingTest := ⟨some ⟨qualifier, hqualifier, hbar⟩, none⟩
  have htext : sub.text.toList = qualifier.toList := by
    rw [SiblingTest.toList_text]
    exact List.append_nil _
  intro combinator hcombinator
  refine (meets_find_star h settings (htake.trans htext.symm) hrest combinator
    hcombinator).weaken (fun found hfound e => ?_) fun _ he => he
  have htests : sub.tests = [.tag qualifier hqualifier] := rfl
  -- Both type selectors ask for the name of the element, and together they ask for the name that is
  -- cut.
  rw [hfound e, htests, List.singleton_append, List.forall_mem_cons, List.forall_mem_cons,
    List.tail_cons, ← and_assoc (c := ∀ test ∈ others, _), Tree.isElement]
  cases helement : t.element? e with
  | none => simp
  | some element =>
    rw [SimpleTest.holds_tag_iff hqualifier hstar helement,
      SimpleTest.holds_tag_iff hlocal hlocalStar helement,
      SimpleTest.hasName_cut_iff hqualifier hcut.2 hbar]
    simp only [Option.isSome_some, true_and, Option.some.injEq, exists_eq_left', and_assoc]

/-- **Compounds behind sibling combinators.** In a tree made of markup a search for a compound and
the searches for it behind `* +` and `* ~` succeed. The latter find of the elements that the former
finds those with an element before them among their siblings, unless the type selector of the
compound is cut. Then they find none of these, but the elements with an element before them and
nothing in front of the colon of their name, whose local name is that of the selector and the same
as its qualifier, and that pass the other tests; and only where names are read for qualifiers. -/
theorem find_sibling_compound {flavour : Flavour} {markup : Markup}
    (hbuild : Markup.build? flavour markup = .ok t) (settings : Settings)
    (hparse : Selector.parse selector = ⟨[.descendant :: tests.map (·.token)]⟩)
    (hfirst : TagFirst tests) (s : Session) (hs : s.tree = t) :
    ∃ found s₁, find settings (Selector.parse selector) [.document] s = .ok found s₁ ∧
      ∀ combinator ∈ ["* + ", "* ~ "], ∃ beside s₂,
        find settings (Selector.parse (combinator ++ selector)) [.document] s = .ok beside s₂ ∧
        ((∀ qualifier localName, ¬ Cut (normalize selector.toList) qualifier localName) →
          ∀ e, e ∈ beside ↔ e ∈ found ∧ t.HasEarlier e) ∧
        ∀ qualifier localName, Cut (normalize selector.toList) qualifier localName →
          (∀ e ∈ beside, e ∉ found) ∧
          ∀ e, e ∈ beside ↔ t.HasEarlier e ∧ settings.namespaceAware = true ∧
            (∃ element, t.element? e = some element ∧ element.tagName = ":" ++ localName ∧
              t.sameName localName qualifier = true) ∧
            ∀ test ∈ tests.tail, test.Holds t settings e := by
  have h : t.Loaded := Tree.loaded_build? hbuild
  obtain ⟨found, s₁, hok₁, -, hfound⟩ := (meets_find_compound h settings hparse).exists_ok hs
  refine ⟨found, s₁, hok₁, fun combinator hcombinator => ?_⟩
  by_cases hcut : ∃ qualifier localName, Cut (normalize selector.toList) qualifier localName
  · obtain ⟨qualifier, localName, hcut⟩ := hcut
    obtain ⟨beside, s₂, hok₂, -, hbeside⟩ :=
      (meets_find_star_of_cut h settings hparse hcut combinator hcombinator).exists_ok hs
    refine ⟨beside, s₂, hok₂, fun hnone => absurd hcut (hnone _ _),
      fun qualifier' localName' hcut' => ?_⟩
    -- A text is cut in one way.
    obtain ⟨rfl, rfl⟩ := Prod.mk.inj (Option.some.inj (hcut.1.symm.trans hcut'.1))
    refine ⟨fun e he hin => ?_, hbeside⟩
    -- The name has nothing in front of its colon, and the whole selector asks for the qualifier.
    obtain ⟨-, haware, ⟨element, helement, hname, -⟩, -⟩ := (hbeside e).mp he
    obtain ⟨-, whole, others, rfl, -, -⟩ :=
      Selector.exists_sub_of_cut (Selector.split_of_parse hparse).1 hcut
    have hholds := ((hfound e).mp hin).2.2 _ List.mem_cons_self
    rw [SimpleTest.holds_tag_iff whole (Selector.star_not_mem whole (by simp)) helement] at hholds
    exact SimpleTest.not_hasName_of_cut haware hcut.2 hcut.takeWhile_eq.2 hname hholds
  · have hnone := fun qualifier localName hone => hcut ⟨qualifier, localName, hone⟩
    have hsearch := meets_find_star_of_not_cut h settings hparse hfirst hnone
    obtain ⟨beside, s₂, hok₂, -, hbeside⟩ := (hsearch combinator hcombinator).exists_ok hs
    refine ⟨beside, s₂, hok₂, fun _ e => ?_, fun _ _ hone => absurd hone (hnone _ _)⟩
    rw [hbeside e, hfound e]
    constructor
    · rintro ⟨he, ⟨n, between, hn, hlater⟩, hholds⟩
      exact ⟨⟨he, (h.above_of_later hlater).2, hholds⟩, n, between, hn, hlater⟩
    · rintro ⟨⟨he, -, hholds⟩, hearlier⟩
      exact ⟨he, hearlier, hholds⟩

/-- Two shapes under a root, the second one with a qualifier. -/
def shapes : Tree :=
  Edit.run (.empty .xml) [.createElement "r" [], .append .document 1, .createElement "g" [],
    .append 1 2, .createElement "svg:rect" [("class", "a")], .append 1 3]

/-- The document with the two shapes is built from its markup. -/
theorem build?_shapes :
    Markup.build? .xml (.element "r" .empty
        [.element "g" .empty [], .element "svg:rect" (.ofList [("class", "a")]) []]) =
      .ok shapes := by
  decide +kernel

/-- The second shape has the first one before it. -/
theorem hasEarlier_shapes : shapes.HasEarlier 3 :=
  ⟨2, [], by decide +kernel, 1, [], [], by decide +kernel⟩

/-- For one, `rect.a` behind a star and a sibling combinator finds of what it finds by itself the
elements with an element before them. -/
theorem find_sibling_compound_rect :
    Markup.build? .xml (.element "r" .empty
        [.element "g" .empty [], .element "svg:rect" (.ofList [("class", "a")]) []]) =
          .ok shapes ∧
      Selector.parse "rect.a" = ⟨[[.descendant, .tag "rect", .classes "a"]]⟩ ∧
      TagFirst [.tag "rect" (by decide +kernel), .classes "a"] ∧
      ∃ found s₁, find (.ofFlavour .xml) (Selector.parse "rect.a") [.document]
          { tree := shapes } = .ok found s₁ ∧
        ∀ combinator ∈ ["* + ", "* ~ "], ∃ beside s₂,
          find (.ofFlavour .xml) (Selector.parse (combinator ++ "rect.a")) [.document]
            { tree := shapes } = .ok beside s₂ ∧
          ∀ e, e ∈ beside ↔ e ∈ found ∧ shapes.HasEarlier e := by
  have hvalid : isTypeSelector "rect" = true := by decide +kernel
  have hread : Selector.parse "rect.a" = ⟨[[.descendant, .tag "rect", .classes "a"]]⟩ := by
    decide +kernel
  have hparse : Selector.parse "rect.a" = ⟨[.descendant ::
      [SimpleTest.tag "rect" hvalid, .classes "a"].map (·.token)]⟩ := hread
  have hfirst : TagFirst [.tag "rect" hvalid, .classes "a"] := fun test htest =>
    List.mem_singleton.mp htest ▸ rfl
  -- Without a bar there is nothing to cut.
  have hcut : ∀ qualifier localName,
      ¬ Cut (normalize "rect.a".toList) qualifier localName := by
    have hparts : barParts? (String.ofList
        ((normalize "rect.a".toList).takeWhile Selector.isTagChar)) = none := by
      decide +kernel
    rintro qualifier localName ⟨hsome, -⟩
    rw [hparts] at hsome
    cases hsome
  obtain ⟨found, s₁, hok, hbeside⟩ := find_sibling_compound build?_shapes (.ofFlavour .xml)
    hparse hfirst { tree := shapes } rfl
  refine ⟨build?_shapes, hread, hfirst, found, s₁, hok, fun combinator hcombinator => ?_⟩
  obtain ⟨beside, s₂, hok₂, hmem, -⟩ := hbeside combinator hcombinator
  exact ⟨beside, s₂, hok₂, hmem hcut⟩

/-- The selector `svg|rect` finds the second shape, which has an element before it, and finds
nothing behind a star and a sibling combinator. -/
theorem sibling_compound_missed :
    shapes.HasEarlier 3 ∧
      ∃ found s₁, find (.ofFlavour .xml) (Selector.parse "svg|rect") [.document]
          { tree := shapes } = .ok found s₁ ∧ 3 ∈ found ∧
        ∀ combinator ∈ ["* + ", "* ~ "], ∃ s₂,
          find (.ofFlavour .xml) (Selector.parse (combinator ++ "svg|rect")) [.document]
            { tree := shapes } = .ok [] s₂ := by
  have hvalid : isTypeSelector "svg|rect" = true := by decide +kernel
  have hread : Selector.parse "svg|rect" = ⟨[[.descendant, .tag "svg|rect"]]⟩ := by
    decide +kernel
  have hparse : Selector.parse "svg|rect" =
      ⟨[.descendant :: [SimpleTest.tag "svg|rect" hvalid].map (·.token)]⟩ := hread
  have hcut : Cut (normalize "svg|rect".toList) "svg" "rect" :=
    ⟨by decide +kernel, by decide⟩
  have h : shapes.Loaded := Tree.loaded_build? build?_shapes
  obtain ⟨found, s₁, hok, -, hfound⟩ :=
    (meets_find_compound h (.ofFlavour .xml) hparse).exists_ok
      (rfl : ({ tree := shapes } : Session).tree = shapes)
  refine ⟨hasEarlier_shapes, found, s₁, hok, ?_, fun combinator hcombinator => ?_⟩
  -- The second shape passes the selector, and it hangs from the document node.
  · obtain ⟨n, between, -, hlater⟩ := hasEarlier_shapes
    have hname : shapes.passes true (.ofTag (.ofFlavour .xml) "svg|rect") 3 = true := by
      decide +kernel
    refine (hfound 3).mpr ⟨by decide +kernel, (h.above_of_later hlater).2, fun test htest => ?_⟩
    rw [List.mem_singleton.mp htest]
    exact (SimpleTest.passes_ofTag ..).mp hname
  -- Behind the star the selector is cut, and no element has the same local name and qualifier.
  · have hsearch := meets_find_star_of_cut h (.ofFlavour .xml) hparse hcut
    obtain ⟨beside, s₂, hok₂, -, hbeside⟩ := (hsearch combinator hcombinator).exists_ok
      (rfl : ({ tree := shapes } : Session).tree = shapes)
    have hnone : beside = [] := List.eq_nil_iff_forall_not_mem.mpr fun e he => by
      obtain ⟨-, -, ⟨element, -, -, hsame⟩, -⟩ := (hbeside e).mp he
      revert hsame
      decide +kernel
    exact ⟨s₂, hnone ▸ hok₂⟩

end Query

end TreeQuery
