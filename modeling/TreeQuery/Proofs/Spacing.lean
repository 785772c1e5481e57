import Mathlib.Data.List.Chain
import Mathlib.Data.List.TakeWhile
import TreeQuery.Proofs.Characters

/-!
# White space that says something

White space is removed until each run of blanks is one space with no tight combinator beside it.
Such a text is `Neat`: a text is neat once it has been squeezed (`neat_squeeze`), and squeezing a
neat text changes nothing (`squeeze_of_neat`). Neatness is about neighbours, so a part of a neat
text is neat, and texts around a plain character are neat together if each of them is
(`neat_append_plain`).
-/

namespace TreeQuery

/-! ## Ends of a text -/

namespace Text

variable {cs : List Char} {c : Char}

/-- A text that does not start with a blank has nothing to trim at its start. -/
theorem trimStart_eq_self (h : ∀ c ∈ cs.head?, isBlank c = false) : trimStart cs = cs := by
  cases cs with
  | nil => rfl
  | cons c cs => exact List.dropWhile_cons_of_neg (by simp [h c rfl])

/-- A text that does not end with a blank has nothing to trim at its end. -/
theorem trimEnd_eq_self (h : ∀ c ∈ cs.getLast?, isBlank c = false) : trimEnd cs = cs := by
  have hreverse : trimStart cs.reverse = cs.reverse :=
    trimStart_eq_self fun c hc => h c (List.head?_reverse ▸ hc)
  unfold trimStart at hreverse
  unfold trimEnd
  rw [hreverse, List.reverse_reverse]

/-- A trimmed text does not start with a blank. -/
theorem head?_trimStart (cs : List Char) : ∀ c ∈ (trimStart cs).head?, isBlank c = false :=
  head?_dropWhile cs

/-- A trimmed text does not end with a blank. -/
theorem getLast?_trimEnd (cs : List Char) : ∀ c ∈ (trimEnd cs).getLast?, isBlank c = false := by
  intro c hc
  unfold trimEnd at hc
  rw [List.getLast?_reverse] at hc
  exact head?_trimStart cs.reverse c hc

/-- Trimming leaves a part from the start of the text. -/
theorem trimEnd_isPrefix (cs : List Char) : trimEnd cs <+: cs := by
  have hsuffix := List.dropWhile_suffix (l := cs.reverse) isBlank
  have hprefix := List.reverse_prefix.mpr hsuffix
  rwa [List.reverse_reverse] at hprefix

/-- Trimming leaves a part of the text. -/
theorem trim_isInfix (cs : List Char) : trim cs <:+: cs :=
  (trimEnd_isPrefix _).isInfix.trans (List.dropWhile_suffix isBlank).isInfix

/-- A part from the start of a text starts like the text. -/
theorem head?_of_isPrefix {front : List Char} (h : front <+: cs) {c : Char}
    (hc : c ∈ front.head?) : c ∈ cs.head? := by
  obtain ⟨back, rfl⟩ := h
  cases front with
  | nil => cases hc
  | cons d front => exact hc

/-- A trimmed text does not start with a blank at either end. -/
theorem head?_trim (cs : List Char) : ∀ c ∈ (trim cs).head?, isBlank c = false := fun c hc =>
  head?_trimStart cs c (head?_of_isPrefix (trimEnd_isPrefix _) hc)

/-- A text with no blank at either end has nothing to trim. -/
theorem trim_eq_self (hhead : ∀ c ∈ cs.head?, isBlank c = false)
    (hlast : ∀ c ∈ cs.getLast?, isBlank c = false) : trim cs = cs := by
  rw [trim, trimStart_eq_self hhead, trimEnd_eq_self hlast]

/-- Trimming a text again changes nothing. -/
theorem trim_trim (cs : List Char) : trim (trim cs) = trim cs :=
  trim_eq_self (head?_trim cs) (getLast?_trimEnd _)

/-- In front of a text that is trimmed at its end stands what stood there. -/
theorem trimEnd_cons (hc : isBlank c = false) (cs : List Char) :
    trimEnd (c :: cs) = c :: trimEnd cs := by
  unfold trimEnd
  rw [List.reverse_cons, List.dropWhile_append]
  split_ifs with hnil
  · rw [List.dropWhile_cons_of_neg (by simp [hc]), List.isEmpty_iff.mp hnil]
    rfl
  · rw [List.reverse_append]
    rfl

end Text

namespace Selector

variable {cs : List Char} {c : Char}

/-! ## Squeezing -/

/-- A blank is not written at once. -/
theorem squeeze_blank (hc : Text.isBlank c = true) (tight pending : Bool) (cs : List Char) :
    squeeze tight pending (c :: cs) = squeeze tight true cs := by
  rw [squeeze, if_pos hc]

/-- Another character is written, behind the space that is pending if neither neighbour of that is
tight. -/
theorem squeeze_cons (hc : Text.isBlank c = false) (tight pending : Bool) (cs : List Char) :
    squeeze tight pending (c :: cs) =
      (if pending && !tight && !isTight c then [' '] else []) ++
        c :: squeeze (isTight c) false cs := by
  rw [squeeze, if_neg (Bool.eq_false_iff.mp hc)]
  split_ifs
  · rfl
  · rfl

/-- What is written behind a tight combinator is what is written elsewhere, without the space at the
start. -/
theorem trimStart_squeeze (pending pending' : Bool) (cs : List Char) :
    Text.trimStart (squeeze false pending cs) = squeeze true pending' cs := by
  induction cs generalizing pending pending' with
  | nil =>
    have hnil : squeeze true pending' [] = [] := by simp [squeeze]
    rw [hnil, squeeze]
    split_ifs
    · rfl
    · rfl
  | cons c cs ih =>
    -- Whether blanks wait makes no difference behind a tight combinator, hence two flags.
    cases hblank : Text.isBlank c with
    | true =>
      rw [squeeze_blank hblank, squeeze_blank hblank]
      exact ih true true
    | false =>
      have hstart : Text.trimStart (c :: squeeze (isTight c) false cs) =
          c :: squeeze (isTight c) false cs :=
        Text.trimStart_eq_self fun d hd => Option.some.inj hd ▸ hblank
      rw [squeeze_cons hblank, squeeze_cons hblank, Bool.not_true, Bool.and_false, Bool.false_and,
        if_neg Bool.false_ne_true]
      split_ifs
      · exact hstart
      · exact hstart

/-- Behind a tight combinator no blank is written. -/
theorem head?_squeeze_tight (pending : Bool) (cs : List Char) :
    ∀ c ∈ (squeeze true pending cs).head?, Text.isBlank c = false := by
  rw [← trimStart_squeeze false pending cs]
  exact Text.head?_trimStart _

/-- No tight combinator is blank. -/
theorem isBlank_eq_false_of_isTight (hc : isTight c = true) : Text.isBlank c = false := by
  unfold isTight at hc
  simp only [Bool.or_eq_true, beq_iff_eq] at hc
  rcases hc with (rfl | rfl) | rfl
  · rfl
  · rfl
  · rfl

/-- The first character of a text is left if it is no blank. -/
theorem normalize_cons (hc : Text.isBlank c = false) (cs : List Char) :
    normalize (c :: cs) = c :: Text.trimEnd (squeeze (isTight c) false cs) := by
  have hstart : Text.trimStart (c :: squeeze (isTight c) false cs) =
      c :: squeeze (isTight c) false cs :=
    Text.trimStart_eq_self fun d hd => Option.some.inj hd ▸ hc
  unfold normalize
  rw [squeeze_cons hc, Bool.false_and, Bool.false_and, if_neg Bool.false_ne_true, List.nil_append,
    Text.trim, hstart, Text.trimEnd_cons hc]

/-- White space behind a tight combinator at the start says nothing. -/
theorem normalize_cons_space (hc : isTight c = true) (cs : List Char) :
    normalize (c :: ' ' :: cs) = c :: normalize cs := by
  rw [normalize_cons (isBlank_eq_false_of_isTight hc), hc, squeeze_blank rfl, normalize, Text.trim,
    trimStart_squeeze false true]

/-- Of a text with nothing but blanks, nothing is left. -/
theorem normalize_eq_nil (h : Text.trim cs = []) : normalize cs = [] := by
  have hstart : Text.trimStart cs = [] := by
    cases hcs : Text.trimStart cs with
    | nil => rfl
    | cons d ds =>
      have hd : Text.isBlank d = false := Text.head?_trimStart cs d (by rw [hcs]; rfl)
      rw [Text.trim, hcs, Text.trimEnd_cons hd] at h
      cases h
  have hblank : ∀ d ∈ cs, Text.isBlank d = true := List.dropWhile_eq_nil_iff.mp hstart
  -- Nothing is written for blanks behind a tight combinator, which is where the trimmed text
  -- starts.
  have hsqueeze : ∀ pending, squeeze true pending cs = [] := by
    clear h hstart
    induction cs with
    | nil => exact fun pending => by simp [squeeze]
    | cons d ds ih =>
      obtain ⟨hd, hds⟩ := List.forall_mem_cons.mp hblank
      exact fun pending => by rw [squeeze_blank hd, ih hds]
  unfold normalize
  rw [Text.trim, trimStart_squeeze false false, hsqueeze]
  rfl

/-! ## Neat texts -/

/-- Two characters may stand side by side: no blank has a blank or a tight combinator beside it. -/
def Fits (c d : Char) : Prop :=
  (Text.isBlank c = true → Text.isBlank d = false ∧ isTight d = false) ∧
    (isTight c = true → Text.isBlank d = false)

/-- All blanks of a text are spaces that say something. -/
structure Neat (cs : List Char) : Prop where
  /-- All blanks are spaces. -/
  spaces : ∀ c ∈ cs, Text.isBlank c = true → c = ' '
  /-- Neighbours fit. -/
  chain : cs.IsChain Fits

/-- A character that fits beside every other one: no blank and no tight combinator. -/
def Plain (c : Char) : Prop :=
  Text.isBlank c = false ∧ isTight c = false

/-- Being no blank and not tight is decidable, as both are tests of the character. -/
instance (c : Char) : Decidable (Plain c) :=
  inferInstanceAs (Decidable (_ ∧ _))

/-- What holds of all characters of a text is found out by going through the text. -/
theorem forall_mem_of_all {p : Char → Prop} [DecidablePred p]
    (h : cs.all (fun c => decide (p c)) = true) : ∀ c ∈ cs, p c :=
  fun c hc => of_decide_eq_true (List.all_eq_true.mp h c hc)

/-- A character of a word is plain. -/
theorem plain_of_isWordChar {c : Char} (h : isWordChar c = true) : Plain c := by
  refine ⟨isBlank_eq_false_of_isWordChar h, Bool.eq_false_iff.mpr fun htight => ?_⟩
  unfold isTight at htight
  simp only [Bool.or_eq_true, beq_iff_eq] at htight
  rcases htight with (rfl | rfl) | rfl
  · exact absurd h (by decide)
  · exact absurd h (by decide)
  · exact absurd h (by decide)

/-- The characters of all names are plain. -/
theorem plain_of_isTagChar {c : Char} (h : isTagChar c = true) : Plain c := by
  unfold isTagChar at h
  simp only [Bool.or_eq_true, beq_iff_eq] at h
  rcases h with ((h | rfl) | rfl) | rfl
  · exact plain_of_isWordChar h
  all_goals exact ⟨rfl, rfl⟩

/-- Characters of ids are written as they are. -/
theorem plain_of_isIdChar {c : Char} (h : isIdChar c = true) : Plain c := by
  unfold isIdChar at h
  simp only [Bool.or_eq_true, beq_iff_eq] at h
  rcases h with h | rfl
  · exact plain_of_isWordChar h
  · exact ⟨rfl, rfl⟩

/-- Characters of classes are written as they are. -/
theorem plain_of_isClassChar {c : Char} (h : isClassChar c = true) : Plain c := by
  unfold isClassChar at h
  simp only [Bool.or_eq_true, beq_iff_eq] at h
  rcases h with (h | rfl) | rfl
  · exact plain_of_isWordChar h
  all_goals exact ⟨rfl, rfl⟩

/-- Characters of sibling tests are written as they are. -/
theorem plain_of_isSiblingChar {c : Char} (h : isSiblingChar c = true) : Plain c := by
  unfold isSiblingChar at h
  simp only [Bool.or_eq_true, beq_iff_eq] at h
  rcases h with h | rfl
  · exact plain_of_isClassChar h
  · exact ⟨rfl, rfl⟩

/-- A plain character fits behind every other one. -/
theorem fits_plain (c : Char) {d : Char} (hd : Plain d) : Fits c d :=
  ⟨fun _ => hd, fun _ => hd.1⟩

/-- A plain character fits in front of every other one. -/
theorem Plain.fits (hc : Plain c) (d : Char) : Fits c d :=
  ⟨fun hblank => absurd hblank (Bool.eq_false_iff.mp hc.1),
    fun htight => absurd htight (Bool.eq_false_iff.mp hc.2)⟩

/-- The empty text is neat. -/
theorem neat_nil : Neat [] :=
  ⟨fun _ hc => absurd hc List.not_mem_nil, .nil⟩

/-- One character that is a space, if it is blank, is neat. -/
theorem neat_singleton (hc : Text.isBlank c = true → c = ' ') : Neat [c] :=
  ⟨fun _ hd => List.mem_singleton.mp hd ▸ hc, .singleton c⟩

/-- A part of a neat text is neat. -/
theorem Neat.of_isInfix {part : List Char} (h : Neat cs) (hpart : part <:+: cs) : Neat part :=
  ⟨fun c hc => h.spaces c (hpart.subset hc), List.IsChain.infix h.chain hpart⟩

/-- Two neat texts are neat together if the characters where they meet fit. -/
theorem neat_append {ds : List Char} :
    Neat (cs ++ ds) ↔
      Neat cs ∧ Neat ds ∧ ∀ c ∈ cs.getLast?, ∀ d ∈ ds.head?, Fits c d := by
  constructor
  · intro h
    exact ⟨h.of_isInfix (List.prefix_append cs ds).isInfix,
      h.of_isInfix (List.suffix_append cs ds).isInfix,
      (List.isChain_append.mp h.chain).2.2⟩
  · rintro ⟨hcs, hds, hmeet⟩
    refine ⟨fun c hc => ?_, List.isChain_append.mpr ⟨hcs.chain, hds.chain, hmeet⟩⟩
    exact (List.mem_append.mp hc).elim (hcs.spaces c) (hds.spaces c)

/-- Texts on both sides of a plain character are neat together. -/
theorem neat_append_plain {ds : List Char} (hcs : Neat cs) (hc : Plain c) (hds : Neat ds) :
    Neat (cs ++ c :: ds) := by
  have hback : Neat ([c] ++ ds) :=
    neat_append.mpr ⟨neat_singleton fun hblank => absurd hblank (Bool.eq_false_iff.mp hc.1), hds,
      fun d hd e _ => Option.some.inj hd ▸ hc.fits e⟩
  exact neat_append.mpr ⟨hcs, hback, fun d _ e he => Option.some.inj he ▸ fits_plain d hc⟩

/-- One character more in front is neat if it fits. -/
theorem neat_cons :
    Neat (c :: cs) ↔ (Text.isBlank c = true → c = ' ') ∧ Neat cs ∧ ∀ d ∈ cs.head?, Fits c d := by
  rw [← List.singleton_append, neat_append]
  constructor
  · rintro ⟨hc, hcs, hfits⟩
    exact ⟨hc.spaces c List.mem_cons_self, hcs, hfits c rfl⟩
  · rintro ⟨hc, hcs, hfits⟩
    exact ⟨neat_singleton hc, hcs, fun d hd => Option.some.inj hd ▸ hfits⟩

/-- A text without blanks is neat. -/
theorem neat_of_not_blank (h : ∀ c ∈ cs, Text.isBlank c = false) : Neat cs := by
  induction cs with
  | nil => exact neat_nil
  | cons c cs ih =>
    obtain ⟨hc, hcs⟩ := List.forall_mem_cons.mp h
    refine neat_cons.mpr ⟨fun hblank => ?_, ih hcs, fun d hd => ⟨fun hblank => ?_, fun _ => ?_⟩⟩
    · exact absurd hblank (Bool.eq_false_iff.mp hc)
    · exact absurd hblank (Bool.eq_false_iff.mp hc)
    · exact hcs d (List.mem_of_head? hd)

/-- What has been squeezed is neat. -/
theorem neat_squeeze (tight pending : Bool) (cs : List Char) : Neat (squeeze tight pending cs) := by
  induction cs generalizing tight pending with
  | nil =>
    rw [squeeze]
    split_ifs
    · exact neat_singleton fun _ => rfl
    · exact neat_nil
  | cons c cs ih =>
    cases hblank : Text.isBlank c with
    | true =>
      rw [squeeze_blank hblank]
      exact ih tight true
    | false =>
      -- The character that is written, with what is written behind it.
      have hrest : Neat (c :: squeeze (isTight c) false cs) := by
        refine neat_cons.mpr ⟨fun h => absurd h (Bool.eq_false_iff.mp hblank), ih _ _, ?_⟩
        refine fun d hd => ⟨fun h => absurd h (Bool.eq_false_iff.mp hblank), fun htight => ?_⟩
        rw [htight] at hd
        exact head?_squeeze_tight false cs d hd
      rw [squeeze_cons hblank]
      split_ifs with hspace
      -- The space that waited goes in front of a character that is no tight combinator.
      · simp only [Bool.and_eq_true, Bool.not_eq_true'] at hspace
        refine neat_cons.mpr ⟨fun _ => rfl, hrest, fun d hd => ?_⟩
        obtain rfl := Option.some.inj hd
        exact ⟨fun _ => ⟨hblank, hspace.2⟩, fun htight => absurd htight Bool.false_ne_true⟩
      · exact hrest

/-- Squeezing a neat text changes nothing. -/
theorem squeeze_of_neat (h : Neat cs) : squeeze false false cs = cs := by
  -- Behind a tight combinator this holds of a text that does not start with a blank.
  have hsqueeze : ∀ tight, (tight = true → ∀ c ∈ cs.head?, Text.isBlank c = false) →
      squeeze tight false cs = cs := by
    induction cs with
    | nil =>
      intro tight _
      simp [squeeze]
    | cons c cs ih =>
      intro tight hhead
      obtain ⟨hspace, hcs, hfits⟩ := neat_cons.mp h
      cases hblank : Text.isBlank c with
      | true =>
        obtain rfl := hspace hblank
        have htight : tight = false := by
          by_contra htight
          have := hhead (Bool.not_eq_false _ ▸ htight) ' ' rfl
          cases this
        rw [htight, squeeze_blank hblank]
        cases cs with
        | nil => rfl
        | cons d ds =>
          obtain ⟨hd, htight⟩ := (hfits d rfl).1 hblank
          have hrest := ih hcs false fun htight => absurd htight Bool.false_ne_true
          rw [squeeze_cons hd, Bool.false_and, Bool.false_and, if_neg Bool.false_ne_true] at hrest
          rw [htight] at hrest
          rw [squeeze_cons hd, htight]
          exact congrArg (' ' :: ·) hrest
      | false =>
        rw [squeeze_cons hblank, Bool.false_and, Bool.false_and, if_neg Bool.false_ne_true,
          List.nil_append, ih hcs (isTight c) fun htight d hd => (hfits d hd).2 htight]
  exact hsqueeze false fun htight => absurd htight Bool.false_ne_true

/-! ## The normal form of a text -/

/-- A normal text is neat. -/
theorem neat_normalize (cs : List Char) : Neat (normalize cs) :=
  (neat_squeeze false false cs).of_isInfix (Text.trim_isInfix _)

/-- Removing white space again changes nothing. -/
theorem normalize_normalize (cs : List Char) : normalize (normalize cs) = normalize cs := by
  have hsqueeze := squeeze_of_neat (neat_normalize cs)
  conv_lhs => rw [normalize, hsqueeze]
  exact Text.trim_trim _

/-- A text without blanks is normal. -/
theorem normalize_eq (h : ∀ c ∈ cs, Text.isBlank c = false) : normalize cs = cs := by
  unfold normalize
  rw [squeeze_of_neat (neat_of_not_blank h)]
  exact Text.trim_eq_self (fun c hc => h c (List.mem_of_head? hc))
    fun c hc => h c (List.mem_of_getLast? hc)

/-- A space in front of a tight combinator is not written. -/
theorem squeeze_space_tight (hc : isTight c = true) (tight pending : Bool) (cs : List Char) :
    squeeze tight pending (' ' :: c :: cs) = squeeze tight pending (c :: cs) := by
  have hblank := isBlank_eq_false_of_isTight hc
  rw [squeeze_blank rfl, squeeze_cons hblank, squeeze_cons hblank, hc, Bool.not_true,
    Bool.and_false, Bool.and_false]

/-- Two texts in front of which the same text stands are squeezed alike if they are so by
themselves. -/
theorem squeeze_append_congr {ds es : List Char}
    (h : ∀ tight pending, squeeze tight pending ds = squeeze tight pending es)
    (cs : List Char) (tight pending : Bool) :
    squeeze tight pending (cs ++ ds) = squeeze tight pending (cs ++ es) := by
  induction cs generalizing tight pending with
  | nil => exact h tight pending
  | cons c cs ih =>
    rw [List.cons_append, List.cons_append]
    cases hblank : Text.isBlank c with
    | true => rw [squeeze_blank hblank, squeeze_blank hblank, ih]
    | false => rw [squeeze_cons hblank, squeeze_cons hblank, ih]

end Selector

end TreeQuery
