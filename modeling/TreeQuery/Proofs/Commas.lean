import TreeQuery.Proofs.RoundTrip

/-!
# Selectors with a comma between them

Two selectors may be joined by a comma and read in one go. White space is removed from the joined
text as from the two by themselves (`normalize_append_plain`), apart from one space in front of the
comma, which is kept where another character than a tight combinator stands before it. If every
bracket of the first text is closed in it, the comma ends a group (`lexemes_append`), so the groups
of the joined text are those of the two, except that the last group of the first may have got a
descendant combinator at its end (`groups_parse_join`).
-/

namespace TreeQuery

namespace Text

variable {cs : List Char} {c : Char}

/-- A character that is not blank stops the trimming at the start. -/
theorem trimStart_append_cons (hc : isBlank c = false) (front rest : List Char) :
    trimStart (front ++ c :: rest) = trimStart front ++ c :: rest := by
  induction front with
  | nil => exact List.dropWhile_cons_of_neg (by simp [hc])
  | cons d front ih =>
    unfold trimStart at ih ⊢
    rw [List.cons_append, List.dropWhile_cons, List.dropWhile_cons]
    split_ifs
    · exact ih
    · rfl

/-- A character that is not blank stops the trimming at the end. -/
theorem trimEnd_append_cons (hc : isBlank c = false) (front rest : List Char) :
    trimEnd (front ++ c :: rest) = front ++ c :: trimEnd rest := by
  have hreverse : (front ++ c :: rest).reverse = rest.reverse ++ c :: front.reverse := by simp
  have hstart := trimStart_append_cons hc rest.reverse front.reverse
  unfold trimStart at hstart
  unfold trimEnd
  rw [hreverse, hstart]
  simp

/-- The two ends of a text may be trimmed in either order. -/
theorem trimStart_trimEnd (cs : List Char) : trimStart (trimEnd cs) = trimEnd (trimStart cs) := by
  have hcs : cs.takeWhile isBlank ++ trimStart cs = cs := List.takeWhile_append_dropWhile
  have hfront : trimStart (cs.takeWhile isBlank) = [] :=
    List.dropWhile_eq_nil_iff.mpr fun c => List.mem_takeWhile_imp
  cases hrest : trimStart cs with
  | nil =>
    -- All characters are blank.
    have hblank : ∀ c ∈ cs.reverse, isBlank c = true := fun c hc =>
      List.dropWhile_eq_nil_iff.mp hrest c (List.mem_reverse.mp hc)
    have hnil : trimEnd cs = [] := by
      unfold trimEnd
      rw [List.dropWhile_eq_nil_iff.mpr hblank]
      rfl
    rw [hnil]
    rfl
  | cons c rest =>
    have hc : isBlank c = false := head?_trimStart cs c (by rw [hrest]; rfl)
    rw [hrest] at hcs
    calc trimStart (trimEnd cs)
        = trimStart (cs.takeWhile isBlank ++ c :: trimEnd rest) := by
          rw [← trimEnd_append_cons hc, hcs]
      _ = c :: trimEnd rest := by rw [trimStart_append_cons hc, hfront, List.nil_append]
      _ = trimEnd (c :: rest) := (trimEnd_cons hc rest).symm

end Text

namespace Selector

variable {c : Char} {cs rest : List Char}

/-! ## White space around a comma -/

/-- A plain character has the same text in front of it and behind it as if it were alone. -/
theorem squeeze_append_plain (hc : Plain c) (front rest : List Char) (tight pending : Bool) :
    squeeze tight pending (front ++ c :: rest) =
      squeeze tight pending front ++ c :: squeeze false false rest := by
  induction front generalizing tight pending with
  | nil =>
    rw [List.nil_append, squeeze_cons hc.1, hc.2, squeeze, Bool.not_false, Bool.and_true]
  | cons d front ih =>
    cases hd : Text.isBlank d with
    | true => rw [List.cons_append, squeeze_blank hd, squeeze_blank hd, ih]
    | false =>
      rw [List.cons_append, squeeze_cons hd, squeeze_cons hd, ih, List.append_assoc,
        List.cons_append]

/-- What is left of a text in front of a plain character: a space may stand at its end. -/
def inFront (cs : List Char) : List Char :=
  Text.trimStart (squeeze false false cs)

/-- White space is removed on both sides of a plain character by itself. -/
theorem normalize_append_plain (hc : Plain c) (cs rest : List Char) :
    normalize (cs ++ c :: rest) = inFront cs ++ c :: Text.trimEnd (squeeze false false rest) := by
  unfold normalize
  rw [squeeze_append_plain hc, Text.trim, Text.trimStart_append_cons hc.1,
    Text.trimEnd_append_cons hc.1]
  rfl

/-- Without the spaces at its start, what is left behind a comma is what is left of the text. -/
theorem dropWhile_behind (cs : List Char) :
    (Text.trimEnd (squeeze false false cs)).dropWhile (· == ' ') = normalize cs := by
  have hneat : Neat (Text.trimEnd (squeeze false false cs)) :=
    (neat_squeeze false false cs).of_isInfix (Text.trimEnd_isPrefix _).isInfix
  rw [← trimStart_of_neat hneat, Text.trimStart_trimEnd]
  rfl

/-- What is left in front of a comma is neat. -/
theorem neat_inFront (cs : List Char) : Neat (inFront cs) :=
  (neat_squeeze false false cs).of_isInfix (List.dropWhile_suffix _).isInfix

/-- Up to a character that is not blank, a text does not depend on what stands behind it. -/
theorem squeeze_append_cons (hc : Text.isBlank c = false) (front : List Char)
    (tight pending : Bool) :
    ∃ start, ∀ rest, squeeze tight pending (front ++ c :: rest) =
      start ++ c :: squeeze (isTight c) false rest := by
  induction front generalizing tight pending with
  | nil => exact ⟨_, fun rest => squeeze_cons hc tight pending rest⟩
  | cons d front ih =>
    -- A blank is written later or never, and any other character is written at once.
    cases hd : Text.isBlank d with
    | true =>
      obtain ⟨start, hstart⟩ := ih tight true
      exact ⟨start, fun rest => by rw [List.cons_append, squeeze_blank hd, hstart]⟩
    | false =>
      obtain ⟨start, hstart⟩ := ih (isTight d) false
      refine ⟨(if pending && !tight && !isTight d then [' '] else []) ++ d :: start,
        fun rest => ?_⟩
      rw [List.cons_append, squeeze_cons hd, hstart, List.append_assoc, List.cons_append]

/-- Of blanks at the end of a text one space is left, unless a tight combinator stands before. -/
theorem squeeze_blanks (h : ∀ c ∈ cs, Text.isBlank c = true) (tight pending : Bool) :
    squeeze tight pending cs = if (pending || !cs.isEmpty) && !tight then [' '] else [] := by
  induction cs generalizing pending with
  | nil => rw [squeeze, List.isEmpty_nil, Bool.not_true, Bool.or_false]
  | cons c cs ih =>
    obtain ⟨hc, hcs⟩ := List.forall_mem_cons.mp h
    rw [squeeze_blank hc, ih hcs]
    simp

/-- A text ends with a blank, and a character that is no tight combinator stands before its last
blanks. -/
def endsInSpace (cs : List Char) : Bool :=
  cs.getLast?.any Text.isBlank && (Text.trimEnd cs).getLast?.any fun c => !isTight c

/-- In front of a comma, a text is what it is by itself, with one space if it ends in one. -/
theorem inFront_eq (cs : List Char) :
    inFront cs = normalize cs ++ if endsInSpace cs then [' '] else [] := by
  -- The text is what is left without the blanks at its end, and then these blanks.
  obtain ⟨blanks, hblank, hcs⟩ : ∃ blanks, (∀ c ∈ blanks, Text.isBlank c = true) ∧
      Text.trimEnd cs ++ blanks = cs := by
    refine ⟨(cs.reverse.takeWhile Text.isBlank).reverse, fun c hc => ?_, ?_⟩
    · exact List.mem_takeWhile_imp (List.mem_reverse.mp hc)
    · unfold Text.trimEnd
      rw [← List.reverse_append, List.takeWhile_append_dropWhile, List.reverse_reverse]
  rcases List.eq_nil_or_concat (Text.trimEnd cs) with hnil | ⟨front, c, hfront⟩
  · rw [hnil, List.nil_append] at hcs
    have hempty : inFront cs = [] := by
      unfold inFront
      rw [← hcs, squeeze_blanks hblank]
      split_ifs
      · rfl
      · rfl
    have hnormal : normalize cs = [] := congrArg Text.trimEnd hempty
    have hspace : endsInSpace cs = false := by
      unfold endsInSpace
      rw [hnil]
      exact Bool.and_false _
    rw [hempty, hnormal, hspace]
    rfl
  · rw [List.concat_eq_append] at hfront
    have hc : Text.isBlank c = false :=
      Text.getLast?_trimEnd cs c (by rw [hfront, List.getLast?_concat]; rfl)
    obtain ⟨start, hstart⟩ := squeeze_append_cons hc front false false
    have hinFront : inFront cs = Text.trimStart start ++
        c :: if !blanks.isEmpty && !isTight c then [' '] else [] := by
      unfold inFront
      rw [← hcs, hfront, List.append_assoc, List.singleton_append, hstart,
        Text.trimStart_append_cons hc, squeeze_blanks hblank, Bool.false_or]
    have hspace : endsInSpace cs = (!blanks.isEmpty && !isTight c) := by
      unfold endsInSpace
      rw [hfront, List.getLast?_concat, Option.any_some, ← hcs, hfront]
      rcases List.eq_nil_or_concat blanks with rfl | ⟨others, d, rfl⟩
      · simp [hc]
      · have hd : Text.isBlank d = true := hblank d (by simp)
        rw [List.concat_eq_append, ← List.append_assoc, List.getLast?_concat, Option.any_some, hd]
        simp
    have hnormal : normalize cs = Text.trimStart start ++ [c] := by
      show Text.trimEnd (inFront cs) = _
      rw [hinFront, Text.trimEnd_append_cons hc]
      split_ifs
      · rfl
      · rfl
    rw [hinFront, hnormal, hspace, List.append_assoc, List.singleton_append]

/-! ## Reading in front of a comma -/

/-- Every bracket that opens a test or an argument is closed. -/
inductive Enclosed : List Char → Prop
  /-- There is nothing to read. -/
  | nil : Enclosed []
  /-- The bracket of the first part is closed, and so are those behind it. -/
  | cons {c : Char} {cs : List Char} (hclosed : Closed c cs) (hrest : Enclosed (lexeme c cs).2) :
    Enclosed (c :: cs)

/-- A text starts with a comma, a combinator or a colon. -/
def Separates (rest : List Char) : Prop :=
  ∀ d ∈ rest.head?, d ∈ [',', ' ', '>', '+', '~', ':']

/-- No run goes on over a character that starts such a text and is not part of the run. -/
theorem Separates.head? (h : Separates rest) (p : Char → Bool)
    (hp : [',', ' ', '>', '+', '~', ':'].any p = false) : ∀ d ∈ rest.head?, p d = false :=
  fun d hd => Bool.eq_false_iff.mpr (List.any_eq_false.mp hp d (h d hd))

/-- A run ends in front of what does not continue it. -/
theorem run_append {p : Char → Bool} (hstop : ∀ d ∈ rest.head?, p d = false) (cs : List Char) :
    (cs ++ rest).takeWhile p = cs.takeWhile p ∧
      (cs ++ rest).dropWhile p = cs.dropWhile p ++ rest := by
  induction cs with
  | nil => exact ⟨takeWhile_run (fun _ hc => nomatch hc) hstop,
      dropWhile_run (fun _ hc => nomatch hc) hstop⟩
  | cons c cs ih =>
    rw [List.cons_append, List.takeWhile_cons, List.takeWhile_cons, List.dropWhile_cons,
      List.dropWhile_cons, ih.1, ih.2]
    split_ifs
    · exact ⟨rfl, rfl⟩
    · exact ⟨rfl, rfl⟩

/-- A closed span ends where it ended, whatever stands behind the text. -/
theorem balanced_append_of_closes {opening closing : Char} (hne : opening ≠ closing)
    (h : Closes opening closing 0 cs) (rest : List Char) :
    balanced opening closing 0 (cs ++ rest) =
      ((balanced opening closing 0 cs).1, (balanced opening closing 0 cs).2 ++ rest) := by
  obtain ⟨inner, back, rfl, hinner⟩ := exists_nested hne 0 h
  rw [List.append_assoc, List.cons_append, balanced_append hne hinner, balanced_append hne hinner]

/-- A pseudo-class ends where it ended if its parenthesis is closed. -/
theorem pseudoClass_append_of_closes (hstop : Separates rest)
    (h : ∀ tail, cs.dropWhile isIdChar = '(' :: tail → Closes '(' ')' 0 tail) :
    pseudoClass (cs ++ rest) = ((pseudoClass cs).1, (pseudoClass cs).2 ++ rest) := by
  have hid := run_append (hstop.head? isIdChar rfl) cs
  unfold pseudoClass
  rw [hid.1, hid.2]
  cases hdrop : cs.dropWhile isIdChar with
  | nil =>
    -- The name goes on to the end of the text, and what stands behind does not open a parenthesis.
    rw [List.nil_append]
    split
    · next tail => exact absurd (hstop '(' rfl) (by decide)
    · rfl
  -- The name has ended in the text, and so has the parenthesis, if there is one.
  | cons d tail =>
    rw [List.cons_append]
    by_cases hd : d = '('
    · subst hd
      simp only [balanced_append_of_closes (by decide) (h tail hdrop) rest]
    · split
      · next heq => exact absurd (List.cons.inj heq).1 hd
      · split
        · next heq => exact absurd (List.cons.inj heq).1 hd
        · rfl

/-- Spaces are taken off a text that stands in front of another, unless the other starts with one
and nothing stands between the two. -/
theorem dropWhile_space_append
    (hspace : cs.dropWhile (· == ' ') = [] → rest.head? ≠ some ' ') :
    (cs ++ rest).dropWhile (· == ' ') = cs.dropWhile (· == ' ') ++ rest := by
  rw [List.dropWhile_append]
  split_ifs with hnil
  · have hcs := List.isEmpty_iff.mp hnil
    have hstop : ∀ d ∈ rest.head?, (d == ' ') = false := fun d hd =>
      beq_eq_false_iff_ne.mpr fun heq => hspace hcs (heq ▸ hd)
    rw [hcs]
    exact (run_append hstop []).2
  · rfl

/-- A part ends where it ended if its bracket is closed, in front of a character that separates.
Only a comma and the sibling combinators take spaces, which must not be there then. -/
theorem lexeme_append (hclosed : Closed c cs) (hstop : Separates rest)
    (hspace : c = ',' ∨ isTight c = true → cs.dropWhile (· == ' ') = [] →
      rest.head? ≠ some ' ') :
    lexeme c (cs ++ rest) = ((lexeme c cs).1, (lexeme c cs).2 ++ rest) := by
  -- None of the runs that a part takes goes on behind the text.
  have htag := run_append (hstop.head? isTagChar rfl) cs
  have hid := run_append (hstop.head? isIdChar rfl) cs
  have hclass := run_append (hstop.head? isClassChar rfl) cs
  have hsibling : isTight c = true →
      siblingTest (cs ++ rest) = ((siblingTest cs).1, (siblingTest cs).2 ++ rest) := by
    intro htight
    have hsub := run_append (hstop.head? isSiblingChar rfl)
      (cs.dropWhile (· == ' '))
    unfold siblingTest
    simp only [dropWhile_space_append (hspace (.inr htight)), hsub.1, hsub.2]
  unfold lexeme
  -- The kinds of parts: a tag, then an id, classes, an attribute, a pseudo-class, the two sibling
  -- combinators, `>`, a space, a comma and a character that is skipped.
  split
  · rw [htag.1, htag.2]
  · split
    · rw [hid.1, hid.2]
    · rw [hclass.1, hclass.2]
    · rw [balanced_append_of_closes (by decide) (hclosed.1 rfl)]
    · rw [pseudoClass_append_of_closes hstop (hclosed.2 rfl)]
    · rw [hsibling rfl]
    · rw [hsibling rfl]
    · rfl
    · rfl
    · rw [dropWhile_space_append (hspace (.inl rfl))]
    · rfl

/-- What stands behind a text that has been read: without the spaces at its start, if the text ended
with a comma. -/
def behind (parts : List Lexeme) (rest : List Char) : List Char :=
  if parts.getLast? = some .comma then rest.dropWhile (· == ' ') else rest

/-- Every character of a text is read. -/
theorem eq_nil_of_lexemes (h : lexemes cs = []) : cs = [] := by
  cases cs with
  | nil => rfl
  | cons c cs =>
    rw [lexemes] at h
    cases h

/-- A text whose brackets are closed is read as it is by itself in front of a character that
separates, and then what stands behind it is read. -/
theorem lexemes_append (henclosed : Enclosed cs) (hstop : Separates rest)
    (hlast : ∀ d ∈ cs.getLast?, Text.isBlank d = false ∧
      (isTight d = true → rest.head? ≠ some ' ')) :
    lexemes (cs ++ rest) = lexemes cs ++ lexemes (behind (lexemes cs) rest) := by
  induction henclosed with
  | nil =>
    rw [lexemes.eq_1]
    rfl
  | @cons c cs hclosed _ ih =>
    have hsuffix := lexeme_isSuffix c cs
    have hback : ∀ d ∈ (lexeme c cs).2.getLast?, d ∈ (c :: cs).getLast? := fun d hd =>
      mem_getLast?_of_suffix (hsuffix.trans (List.suffix_cons c cs)) hd
    have hih := ih fun d hd => hlast d (hback d hd)
    by_cases hcomma : c = ',' ∧ cs.dropWhile (· == ' ') = []
    · -- The comma is the last part, and takes the spaces behind it.
      obtain ⟨rfl, hnil⟩ := hcomma
      have hspaces : (cs ++ rest).dropWhile (· == ' ') = rest.dropWhile (· == ' ') := by
        rw [List.dropWhile_append, hnil]
        rfl
      rw [List.cons_append, lexemes_of_lexeme (lexeme_comma _), hspaces,
        lexemes_of_lexeme (lexeme_comma _), hnil, lexemes.eq_1]
      rfl
    · have hspace : c = ',' ∨ isTight c = true → cs.dropWhile (· == ' ') = [] →
          rest.head? ≠ some ' ' := by
        rintro (rfl | htight) hnil
        · exact absurd ⟨rfl, hnil⟩ hcomma
        -- The text does not end with a space, so nothing stands behind the combinator.
        have hcs : cs = [] := by
          by_contra hne
          obtain ⟨d, hd⟩ := Option.isSome_iff_exists.mp (List.getLast?_isSome.mpr hne)
          have hspace := List.dropWhile_eq_nil_iff.mp hnil d (List.mem_of_getLast? hd)
          have hblank := (hlast d (mem_getLast?_of_suffix (List.suffix_cons c cs) hd)).1
          rw [beq_iff_eq.mp hspace] at hblank
          cases hblank
        rw [hcs] at hlast
        exact (hlast c rfl).2 htight
      have hread := lexeme_append hclosed hstop hspace
      have hbehind : behind ((lexeme c cs).1 :: lexemes (lexeme c cs).2) rest =
          behind (lexemes (lexeme c cs).2) rest := by
        unfold behind
        cases hparts : lexemes (lexeme c cs).2 with
        | cons part parts => rw [List.getLast?_cons_cons]
        | nil =>
          have hnot : (lexeme c cs).1 ≠ .comma := by
            intro hpart
            obtain ⟨rfl, hdrop⟩ := eq_comma_of_lexeme hpart
            refine hcomma ⟨rfl, ?_⟩
            rw [← hdrop]
            exact eq_nil_of_lexemes hparts
          rw [List.getLast?_singleton, if_neg fun heq => hnot (Option.some.inj heq)]
          rfl
      have hself : lexemes (c :: cs) = (lexeme c cs).1 :: lexemes (lexeme c cs).2 := by
        rw [lexemes]
      rw [List.cons_append, lexemes_of_lexeme hread, hih, hself, hbehind, List.cons_append]

/-! ## Groups on both sides of a comma -/

/-- What is read of a space at the end of a text in front of a comma: nothing if a comma stands in
front of the space as well. -/
def gap (cs : List Char) : List Lexeme :=
  if endsInSpace cs ∧ (lexemes (normalize cs)).getLast? ≠ some .comma then [.token .descendant]
  else []

/-- The last character of a text is not blank, and no tight combinator if a space is left behind
it. -/
theorem getLast?_normalize (cs : List Char) :
    ∀ d ∈ (normalize cs).getLast?,
      Text.isBlank d = false ∧ (isTight d = true → endsInSpace cs = false) := by
  intro d hd
  refine ⟨Text.getLast?_trimEnd (inFront cs) d hd, fun htight => ?_⟩
  have hneat := neat_inFront cs
  rw [inFront_eq] at hneat
  cases hspace : endsInSpace cs with
  | false => rfl
  | true =>
    rw [hspace, if_pos rfl] at hneat
    have hblank := ((neat_append.mp hneat).2.2 d hd ' ' rfl).2 htight
    cases hblank

/-- Texts with a comma between them are read one after the other. -/
theorem lexemes_join (h : Enclosed (normalize cs)) (ds : List Char) :
    lexemes (normalize (cs ++ ',' :: ds)) =
      lexemes (normalize cs) ++ (gap cs ++ .comma :: lexemes (normalize ds)) := by
  -- From the comma on, the second text is read as it would be alone.
  have hcomma : lexemes (',' :: Text.trimEnd (squeeze false false ds)) =
      .comma :: lexemes (normalize ds) := by
    rw [lexemes_of_lexeme (lexeme_comma _), dropWhile_behind]
  have hlast := getLast?_normalize cs
  rw [normalize_append_plain (by decide : Plain ','), inFront_eq, gap]
  generalize hrest : Text.trimEnd (squeeze false false ds) = rest at hcomma ⊢
  cases hspace : endsInSpace cs with
  -- Nothing stands between the last part of the first text and the comma.
  | false =>
    have hbehind : behind (lexemes (normalize cs)) (',' :: rest) = ',' :: rest := by
      unfold behind
      split_ifs
      · rfl
      · rfl
    have hstop : Separates (',' :: rest) := fun d hd => Option.some.inj hd ▸ by decide
    have hread := lexemes_append h hstop fun d hd => ⟨(hlast d hd).1, fun _ => nofun⟩
    rw [if_neg Bool.false_ne_true, List.append_nil, hread, hbehind, hcomma]
    rfl
  | true =>
    -- A space does. It is a descendant combinator of its own, unless it is taken along by a comma
    -- in front of it.
    have hstop : Separates (' ' :: ',' :: rest) := fun d hd => Option.some.inj hd ▸ by decide
    have hread := lexemes_append h hstop fun d hd =>
      ⟨(hlast d hd).1, fun htight => absurd ((hlast d hd).2 htight) (by simp [hspace])⟩
    rw [if_pos rfl, List.append_assoc, List.singleton_append, hread]
    congr 1
    have hdescendant : lexemes (' ' :: ',' :: rest) = .token .descendant :: lexemes (',' :: rest) :=
      lexemes_of_lexeme rfl
    by_cases hend : (lexemes (normalize cs)).getLast? = some .comma
    · rw [behind, if_pos hend, if_neg fun hgap => hgap.2 hend]
      exact hcomma
    · rw [behind, if_neg hend, if_pos ⟨rfl, hend⟩, hdescendant, hcomma]
      rfl

/-- A comma ends a group. -/
theorem split_append_comma (parts more : List Lexeme) :
    split (parts ++ .comma :: more) = split parts ++ split more := by
  induction parts with
  | nil => rfl
  | cons part parts ih =>
    cases part with
    | comma => exact congrArg ([] :: ·) ih
    | skipped c => exact ih
    | token token =>
      obtain ⟨group, groups, hsplit⟩ := exists_split parts
      rw [hsplit] at ih
      rw [List.cons_append, split_token ih, split_token hsplit]
      rfl

/-- A token behind a text continues the last group, and what is read behind it follows. -/
theorem split_append_token (parts : List Lexeme) :
    ∃ front last, split parts = front ++ [last] ∧
      ∀ (token : Token) {more : List Lexeme} {group : Group} {groups : List Group},
        split more = group :: groups →
          split (parts ++ .token token :: more) = front ++ (last ++ token :: group) :: groups := by
  -- Going through the parts from the end, the last group stays the last one, and only where it is
  -- the first one too a token in front of the parts comes into it.
  induction parts with
  | nil => exact ⟨[], [], rfl, fun token more group groups hmore => split_token hmore⟩
  | cons part parts ih =>
    obtain ⟨front, last, hparts, hjoin⟩ := ih
    cases part with
    | comma =>
      refine ⟨[] :: front, last, ?_, fun token more group groups hmore => ?_⟩
      · rw [split, hparts, List.cons_append]
      · rw [List.cons_append, split, hjoin token hmore, List.cons_append]
    | skipped c => exact ⟨front, last, hparts, hjoin⟩
    | token first =>
      cases front with
      | nil =>
        exact ⟨[], first :: last, split_token hparts,
          fun token more group groups hmore => split_token (hjoin token hmore)⟩
      | cons other front =>
        exact ⟨(first :: other) :: front, last, split_token hparts,
          fun token more group groups hmore => split_token (hjoin token hmore)⟩

/-- How the last group of a text is read in front of a comma, where `spaced` says whether a space is
left there. -/
inductive Dangles : Bool → Group → Group → Prop
  /-- Without a space it is read as it is. -/
  | tight (group : Group) : Dangles false group group
  /-- A space between two commas is taken with the first. -/
  | comma : Dangles true [] []
  /-- Elsewhere a descendant combinator is left at the end of the group. -/
  | space {group : Group} (hne : group ≠ []) : Dangles true group (group ++ [.descendant])
  /-- At the start of the group, it is a token like others that has a combinator in front of it. -/
  | alone : Dangles true [] [.descendant, .descendant]

/-- A group is completed at its start. -/
theorem complete_append {group : Group} (hne : group ≠ []) (more : Group) :
    (group ++ more).complete = group.complete ++ more := by
  cases group with
  | nil => exact absurd rfl hne
  | cons token tokens =>
    cases token with
    | _ => rfl

/-- A group with tokens has tokens once it is complete. -/
theorem complete_ne_nil {group : Group} (hne : group ≠ []) : group.complete ≠ [] := by
  cases group with
  | nil => exact absurd rfl hne
  | cons token tokens =>
    cases token with
    | _ => exact List.cons_ne_nil _ _

/-- The groups of two texts with a comma between them are those of the first, of which the last may
end with one combinator more, and then those of the second. -/
theorem groups_parse_join (text other : String) (h : Enclosed (normalize text.toList)) :
    ∃ front last joined, (parse text).groups = front ++ [last] ∧
      (parse (text ++ "," ++ other)).groups = front ++ joined :: (parse other).groups ∧
      Dangles (endsInSpace text.toList) last joined := by
  have htext : (text ++ "," ++ other).toList = text.toList ++ ',' :: other.toList := by simp
  obtain ⟨front, last, hsplit, hjoin⟩ := split_append_token (lexemes (normalize text.toList))
  have hconcat := hjoin .descendant (rfl : split [] = [[]])
  have hgroups : ∀ joined : Group,
      split (lexemes (normalize text.toList) ++ gap text.toList) = front ++ [joined] →
      (parse (text ++ "," ++ other)).groups =
        front.map Group.complete ++ joined.complete :: (parse other).groups := by
    intro joined hjoined
    unfold parse
    dsimp only
    rw [htext, lexemes_join h, ← List.append_assoc, split_append_comma, hjoined, List.map_append,
      List.map_append, List.append_assoc]
    rfl
  have htextGroups : (parse text).groups = front.map Group.complete ++ [Group.complete last] := by
    unfold parse
    dsimp only
    rw [hsplit, List.map_append]
    rfl
  refine ⟨front.map Group.complete, Group.complete last, ?_⟩
  by_cases hgap : endsInSpace text.toList = true ∧
      (lexemes (normalize text.toList)).getLast? ≠ some .comma
  · -- The space is the last token of the last group.
    have hjoined := hgroups (last ++ [.descendant]) (by rw [gap, if_pos hgap, hconcat])
    refine ⟨_, htextGroups, hjoined, ?_⟩
    rw [hgap.1]
    by_cases hlast : last = []
    · rw [hlast]
      exact .alone
    · rw [complete_append hlast]
      exact .space (complete_ne_nil hlast)
  · have hjoined := hgroups last (by rw [gap, if_neg hgap, List.append_nil, hsplit])
    refine ⟨_, htextGroups, hjoined, ?_⟩
    cases hspace : endsInSpace text.toList with
    | false => exact .tight _
    | true =>
      -- A comma ends the text, so its last group is empty.
      have hcomma : (lexemes (normalize text.toList)).getLast? = some .comma := by
        by_contra hne
        exact hgap ⟨hspace, hne⟩
      obtain ⟨parts, hparts⟩ := List.getLast?_eq_some_iff.mp hcomma
      have hend : front ++ [last] = split parts ++ [[]] := by
        rw [← hsplit, hparts, split_append_comma]
        rfl
      have hlast : last = [] := (List.cons.inj (List.append_inj' hend rfl).2).1
      rw [hlast]
      exact .comma

end Selector

end TreeQuery
