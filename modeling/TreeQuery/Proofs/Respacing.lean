import TreeQuery.Proofs.Commas

/-!
# White space that may be changed

What a text is read as depends on where its blanks stand, not on which blanks they are or on how
many stand in a row. Around a tight combinator and at the ends of a text they say nothing at all.
The main statement, `parse_respaced`, is about the text of a whole selector, so the blanks may also
stand inside brackets, parentheses or quotes.

All of it follows from what the squeezing of a text keeps of the blanks that it has read: whether
there were any (`squeeze_blanks_append`), and behind a tight combinator not even that
(`squeeze_tight`).
-/

namespace TreeQuery

/-- All characters of a text are blank. -/
def Text.Blanks (text : String) : Prop :=
  ∀ c ∈ text.toList, isBlank c = true

namespace Selector

variable {c : Char} {w w' cs ds : List Char}

/-! ## Blanks in front of a text -/

/-- Of blanks in front of a text it is only known later whether there were any. -/
theorem squeeze_blanks_append (h : ∀ c ∈ w, Text.isBlank c = true) (tight pending : Bool)
    (cs : List Char) :
    squeeze tight pending (w ++ cs) = squeeze tight (pending || !w.isEmpty) cs := by
  induction w generalizing pending with
  | nil => rw [List.nil_append, List.isEmpty_nil, Bool.not_true, Bool.or_false]
  | cons c w ih =>
    obtain ⟨hc, hw⟩ := List.forall_mem_cons.mp h
    rw [List.cons_append, squeeze_blank hc, ih hw, Bool.true_or, List.isEmpty_cons, Bool.not_false,
      Bool.or_true]

/-- Behind a tight combinator it does not matter whether blanks have been read. -/
theorem squeeze_tight (pending pending' : Bool) (cs : List Char) :
    squeeze true pending cs = squeeze true pending' cs :=
  (trimStart_squeeze false pending cs).symm.trans (trimStart_squeeze false pending' cs)

/-- In front of a tight combinator it does not matter whether blanks have been read. -/
theorem squeeze_cons_tight (hc : isTight c = true) (tight pending : Bool) (cs : List Char) :
    squeeze tight pending (c :: cs) = c :: squeeze true false cs := by
  rw [squeeze_cons (isBlank_eq_false_of_isTight hc), hc, Bool.not_true, Bool.and_false,
    if_neg Bool.false_ne_true, List.nil_append]

/-- Blanks on both sides of a tight combinator say nothing. -/
theorem squeeze_around_tight (hc : isTight c = true) (hw : ∀ c ∈ w, Text.isBlank c = true)
    (hw' : ∀ c ∈ w', Text.isBlank c = true) (tight pending : Bool) (cs : List Char) :
    squeeze tight pending (w ++ c :: (w' ++ cs)) = squeeze tight pending (c :: cs) := by
  calc squeeze tight pending (w ++ c :: (w' ++ cs))
      = c :: squeeze true false (w' ++ cs) := by
        rw [squeeze_blanks_append hw, squeeze_cons_tight hc]
    _ = c :: squeeze true false cs := by rw [squeeze_blanks_append hw', squeeze_tight _ false]
    _ = squeeze tight pending (c :: cs) := (squeeze_cons_tight hc tight pending cs).symm

/-! ## Blanks behind a text -/

/-- Blanks at the end of a text are trimmed with the space that is left of them. -/
theorem trimEnd_squeeze_append (h : ∀ c ∈ w, Text.isBlank c = true) (tight pending : Bool)
    (cs : List Char) :
    Text.trimEnd (squeeze tight pending (cs ++ w)) = Text.trimEnd (squeeze tight pending cs) := by
  induction cs generalizing tight pending with
  -- What is left of blanks alone is one space or nothing, and it is trimmed.
  | nil =>
    have hempty : ∀ space : Bool, Text.trimEnd (if space then [' '] else []) = [] := by
      intro space
      cases space with
      | false => rfl
      | true => rfl
    rw [List.nil_append, squeeze_blanks h, hempty, squeeze, hempty]
  | cons c cs ih =>
    rw [List.cons_append]
    -- A blank is pending with the others, and a character that is not blank keeps what comes behind
    -- it.
    cases hc : Text.isBlank c with
    | true => rw [squeeze_blank hc, squeeze_blank hc, ih]
    | false =>
      rw [squeeze_cons hc, squeeze_cons hc, Text.trimEnd_append_cons hc,
        Text.trimEnd_append_cons hc, ih]

/-! ## The normal form -/

/-- Texts are left alike if they differ in a part that is squeezed alike. -/
theorem normalize_append_congr
    (h : ∀ tight pending, squeeze tight pending ds = squeeze tight pending cs)
    (front : List Char) : normalize (front ++ ds) = normalize (front ++ cs) := by
  unfold normalize
  rw [squeeze_append_congr h]

/-- Blanks at both ends of a text say nothing. -/
theorem normalize_inside (hw : ∀ c ∈ w, Text.isBlank c = true)
    (hw' : ∀ c ∈ w', Text.isBlank c = true) (cs : List Char) :
    normalize (w ++ cs ++ w') = normalize cs := by
  -- At the start of a text blanks are dropped as they are behind a tight combinator.
  have hstart : ∀ ds, normalize ds = Text.trimEnd (squeeze true false ds) := fun ds =>
    congrArg Text.trimEnd (trimStart_squeeze false false ds)
  calc normalize (w ++ cs ++ w')
      = Text.trimEnd (squeeze true false (w ++ cs ++ w')) := hstart _
    _ = Text.trimEnd (squeeze true false (w ++ cs)) := trimEnd_squeeze_append hw' _ _ _
    _ = Text.trimEnd (squeeze true false cs) := by
      rw [squeeze_blanks_append hw, squeeze_tight _ false]
    _ = normalize cs := (hstart cs).symm

/-- Texts that have one normal form are read alike. -/
theorem parse_congr {text other : String} (h : normalize text.toList = normalize other.toList) :
    parse text = parse other := by
  unfold parse
  rw [h]

/-- **White space that may be changed.** A selector is read alike with and without blanks on both
sides of a tight combinator, with any blanks in the place of others wherever there are some, and
with and without blanks at its ends. The text that is left once the white space that says nothing
has been removed has no such white space. -/
theorem parse_respaced :
    (∀ (u v w w' : String) (c : Char), c ∈ ['>', '+', '~'] → Text.Blanks w → Text.Blanks w' →
        parse (u ++ w ++ String.singleton c ++ w' ++ v) = parse (u ++ String.singleton c ++ v)) ∧
      (∀ u v w w' : String, Text.Blanks w → w ≠ "" → Text.Blanks w' → w' ≠ "" →
        parse (u ++ w ++ v) = parse (u ++ w' ++ v)) ∧
      (∀ u w w' : String, Text.Blanks w → Text.Blanks w' → parse (w ++ u ++ w') = parse u) ∧
      ∀ cs, normalize (normalize cs) = normalize cs := by
  refine ⟨fun u v w w' c hc hw hw' => ?_, fun u v w w' hw hne hw' hne' => ?_,
    fun u w w' hw hw' => ?_, normalize_normalize⟩
  -- Blanks on either side of a tight combinator leave no space there.
  · have htight : isTight c = true :=
      forall_mem_of_all (p := fun c => isTight c = true) (by decide) c hc
    have haround : ∀ tight pending,
        squeeze tight pending (w.toList ++ c :: (w'.toList ++ v.toList)) =
          squeeze tight pending (c :: v.toList) := fun tight pending =>
      squeeze_around_tight htight hw hw' tight pending v.toList
    refine parse_congr ?_
    simpa using normalize_append_congr haround u.toList
  · -- Both runs of blanks leave one space pending.
    have hsome : ∀ {text : String}, text ≠ "" → (!text.toList.isEmpty) = true := by
      intro text htext
      rw [Bool.not_eq_true', Bool.eq_false_iff]
      exact fun hempty => htext (String.toList_inj.mp (List.isEmpty_iff.mp hempty))
    have hrun : ∀ tight pending, squeeze tight pending (w.toList ++ v.toList) =
        squeeze tight pending (w'.toList ++ v.toList) := by
      intro tight pending
      rw [squeeze_blanks_append hw, squeeze_blanks_append hw', hsome hne, hsome hne']
    refine parse_congr ?_
    simpa using normalize_append_congr hrun u.toList
  -- Blanks at the ends are trimmed.
  · refine parse_congr ?_
    simpa using normalize_inside hw hw' u.toList

/-- For one, a list item under a list, with an ideographic space, a line feed and tabs between its
parts, inside its parenthesis and at its ends. -/
theorem parse_respaced_items :
    (Text.Blanks "\u3000" ∧ Text.Blanks "\n\t" ∧ Text.Blanks "\t") ∧
      parse "ul\u3000>\n\tli:contains('a  b')" = parse "ul>li:contains('a  b')" ∧
      parse "ul>li:contains('a\u3000b')" = parse "ul>li:contains('a\n\tb')" ∧
      parse "\u3000ul>li\t" = parse "ul>li" := by
  have hwide : Text.Blanks "\u3000" := forall_mem_of_all (by decide)
  have hline : Text.Blanks "\n\t" := forall_mem_of_all (by decide)
  have htab : Text.Blanks "\t" := forall_mem_of_all (by decide)
  obtain ⟨haround, hrun, hends, -⟩ := parse_respaced
  exact ⟨⟨hwide, hline, htab⟩,
    haround "ul" "li:contains('a  b')" "\u3000" "\n\t" '>' (by decide) hwide hline,
    hrun "ul>li:contains('a" "b')" "\u3000" "\n\t" hwide (by decide) hline (by decide),
    hends "ul>li" "\u3000" "\t" hwide htab⟩

end Selector

end TreeQuery
