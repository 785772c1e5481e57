import TreeQuery.Proofs.Spans
import TreeQuery.Selector.Parse

/-!
# Tokens and their text

A token is read back from its text if its characters are of its kind and what follows does not
continue it (`lexemes_chars`). Every token that a scan takes off the front of a neat text with
closed brackets is of that kind, and it ends where it is written to end (`scanned_lexeme`).
-/

namespace TreeQuery

/-! ## Tokens that can be read back -/

namespace Token

open Selector

/-- The characters of the text of a token. -/
def chars : Token → List Char
  | tag name => name.toList
  | id name => '#' :: name.toList
  | classes names => '.' :: names.toList
  | attr test => '[' :: (test.inner ++ [']'])
  | pseudoClass name none => ':' :: name.toList
  | pseudoClass name (some argument) => ':' :: (name.toList ++ '(' :: (argument.toList ++ [')']))
  | child => ['>']
  | descendant => [' ']
  | adjacent sub => '+' :: sub.toList
  | general sub => '~' :: sub.toList

/-- These are the characters of the text. -/
theorem toList_render (token : Token) : token.render.toList = token.chars := by
  cases token with
  | attr test => exact test.toList_render
  | pseudoClass name argument =>
    cases argument with
    | none => simp [render, chars]
    | some argument => simp [render, chars]
  | _ => simp [render, chars]

/-- The characters of a token are of its kind, and its brackets belong to each other. -/
def Readable : Token → Prop
  | tag name => name.toList ≠ [] ∧ ∀ c ∈ name.toList, isTagChar c = true
  | id name => ∀ c ∈ name.toList, isIdChar c = true
  | classes names => ∀ c ∈ names.toList, isClassChar c = true
  | attr test => attributeTest test.inner = test ∧ Nested '[' ']' 0 test.inner
  | pseudoClass name argument =>
    (∀ c ∈ name.toList, isIdChar c = true) ∧ ∀ text ∈ argument, Nested '(' ')' 0 text.toList
  | child | descendant => True
  | adjacent sub | general sub => ∀ c ∈ sub.toList, isSiblingChar c = true

/-- A token is not continued by a text that starts with the character `next?`. -/
def StopsAt (next? : Option Char) : Token → Prop
  | tag _ => ∀ c ∈ next?, isTagChar c = false
  | id _ => ∀ c ∈ next?, isIdChar c = false
  | classes _ => ∀ c ∈ next?, isClassChar c = false
  | pseudoClass _ none => ∀ c ∈ next?, isIdChar c = false ∧ c ≠ '('
  | adjacent sub | general sub => ∀ c ∈ next?, isSiblingChar c = false ∧ (sub = "" → c ≠ ' ')
  | attr _ | pseudoClass _ (some _) | child | descendant => True

end Token

namespace Selector

/-! ## Reading a token back -/

/-- A part that starts a text is read first. -/
theorem lexemes_of_lexeme {c : Char} {cs rest : List Char} {part : Lexeme}
    (h : lexeme c cs = (part, rest)) : lexemes (c :: cs) = part :: lexemes rest := by
  rw [lexemes, h]

/-- A pseudo-class without an argument is read up to the end of its name. -/
theorem pseudoClass_append {name rest : List Char} (hname : ∀ c ∈ name, isIdChar c = true)
    (hrest : ∀ c ∈ rest.head?, isIdChar c = false ∧ c ≠ '(') :
    pseudoClass (name ++ rest) = (.pseudoClass (String.ofList name) none, rest) := by
  have hstop : ∀ c ∈ rest.head?, isIdChar c = false := fun c hc => (hrest c hc).1
  unfold pseudoClass
  rw [takeWhile_run hname hstop, dropWhile_run hname hstop]
  split
  · next tail heq => exact absurd rfl (hrest '(' rfl).2
  · rfl

/-- A pseudo-class with an argument is read up to the parenthesis that closes it. -/
theorem pseudoClass_append_argument {name argument : List Char}
    (hname : ∀ c ∈ name, isIdChar c = true) (hargument : Nested '(' ')' 0 argument)
    (rest : List Char) :
    pseudoClass (name ++ '(' :: (argument ++ ')' :: rest)) =
      (.pseudoClass (String.ofList name) (some (String.ofList argument)), rest) := by
  have hstop : ∀ c ∈ ('(' :: (argument ++ ')' :: rest)).head?, isIdChar c = false :=
    fun c hc => Option.some.inj hc ▸ rfl
  unfold pseudoClass
  rw [takeWhile_run hname hstop, dropWhile_run hname hstop]
  simp only [balanced_append (by decide) hargument]

/-- The test behind a sibling combinator is read up to the end of its characters. -/
theorem siblingTest_append {sub : String} {rest : List Char}
    (hsub : ∀ c ∈ sub.toList, isSiblingChar c = true)
    (hrest : ∀ c ∈ rest.head?, isSiblingChar c = false ∧ (sub = "" → c ≠ ' ')) :
    siblingTest (sub.toList ++ rest) = (sub, rest) := by
  have hstop : ∀ c ∈ rest.head?, isSiblingChar c = false := fun c hc => (hrest c hc).1
  -- A test without characters is followed by no space, and one with characters does not start with
  -- one.
  have hspace : (sub.toList ++ rest).dropWhile (· == ' ') = sub.toList ++ rest := by
    cases hchars : sub.toList with
    | nil =>
      have hempty : sub = "" := String.toList_eq_nil_iff.mp hchars
      have hhead : ∀ c ∈ rest.head?, (c == ' ') = false := fun c hc =>
        beq_eq_false_iff_ne.mpr ((hrest c hc).2 hempty)
      exact dropWhile_run (fun c hc => absurd hc List.not_mem_nil) hhead
    | cons c cs =>
      rw [hchars] at hsub
      have hblank := (plain_of_isSiblingChar (hsub c List.mem_cons_self)).1
      refine List.dropWhile_cons_of_neg fun heq => ?_
      rw [beq_iff_eq.mp heq] at hblank
      cases hblank
  unfold siblingTest
  simp only [hspace, takeWhile_run hsub hstop, dropWhile_run hsub hstop, String.ofList_toList]

/-- A token is read back from its text, in front of what does not continue it. -/
theorem lexemes_chars (token : Token) (hread : token.Readable) {rest : List Char}
    (hstop : token.StopsAt rest.head?) :
    lexemes (token.chars ++ rest) = .token token :: lexemes rest := by
  -- The first character says what is read, and the run or the span behind it ends with the token.
  cases token with
  | tag name =>
    obtain ⟨hne, hname⟩ := hread
    obtain ⟨c, cs, hchars⟩ := List.exists_cons_of_ne_nil hne
    have htag : name = String.ofList (c :: cs) := by rw [← hchars, String.ofList_toList]
    rw [hchars] at hname
    obtain ⟨hc, hcs⟩ := List.forall_mem_cons.mp hname
    rw [Token.chars, hchars, List.cons_append]
    refine lexemes_of_lexeme ?_
    unfold lexeme
    rw [if_pos hc, takeWhile_run hcs hstop, dropWhile_run hcs hstop, htag]
  | id name =>
    rw [Token.chars, List.cons_append]
    refine lexemes_of_lexeme ?_
    unfold lexeme
    rw [if_neg (by decide)]
    simp only [takeWhile_run hread hstop, dropWhile_run hread hstop, String.ofList_toList]
  | classes names =>
    rw [Token.chars, List.cons_append]
    refine lexemes_of_lexeme ?_
    unfold lexeme
    rw [if_neg (by decide)]
    simp only [takeWhile_run hread hstop, dropWhile_run hread hstop, String.ofList_toList]
  | attr test =>
    rw [Token.chars, List.cons_append, List.append_assoc, List.singleton_append]
    refine lexemes_of_lexeme ?_
    unfold lexeme
    rw [if_neg (by decide)]
    simp only [balanced_append (by decide) hread.2, hread.1]
  | pseudoClass name argument =>
    obtain ⟨hname, hargument⟩ := hread
    cases argument with
    | none =>
      rw [Token.chars, List.cons_append]
      refine lexemes_of_lexeme ?_
      unfold lexeme
      rw [if_neg (by decide)]
      simp only [pseudoClass_append hname hstop, String.ofList_toList]
    | some argument =>
      rw [Token.chars, List.cons_append, List.append_assoc, List.cons_append, List.append_assoc,
        List.singleton_append]
      refine lexemes_of_lexeme ?_
      unfold lexeme
      rw [if_neg (by decide)]
      simp only [pseudoClass_append_argument hname (hargument argument rfl), String.ofList_toList]
  | child => exact lexemes_of_lexeme rfl
  | descendant => exact lexemes_of_lexeme rfl
  | adjacent sub =>
    rw [Token.chars, List.cons_append]
    refine lexemes_of_lexeme ?_
    unfold lexeme
    rw [if_neg (by decide)]
    simp only [siblingTest_append hread hstop]
  | general sub =>
    rw [Token.chars, List.cons_append]
    refine lexemes_of_lexeme ?_
    unfold lexeme
    rw [if_neg (by decide)]
    simp only [siblingTest_append hread hstop]

/-- The text of a token by itself is read as the token. -/
theorem lexemes_chars_self (token : Token) (hread : token.Readable) (hstop : token.StopsAt none) :
    lexemes token.chars = [.token token] := by
  have hnone : token.StopsAt ([] : List Char).head? := hstop
  have happend := lexemes_chars token hread hnone
  rwa [List.append_nil, lexemes.eq_1] at happend

/-! ## Tokens that have been read -/

/-- What is left behind a span stands at the end of the text. -/
theorem balanced_isSuffix (opening closing : Char) (depth : Nat) (cs : List Char) :
    (balanced opening closing depth cs).2 <:+ cs := by
  induction cs generalizing depth with
  | nil => exact List.suffix_rfl
  | cons c cs ih =>
    rw [balanced]
    split_ifs
    · exact (ih _).trans (List.suffix_cons c cs)
    · exact List.suffix_cons c cs
    · exact (ih _).trans (List.suffix_cons c cs)
    · exact (ih _).trans (List.suffix_cons c cs)

/-- What is left behind a part stands at the end of the text. -/
theorem lexeme_isSuffix (c : Char) (cs : List Char) : (lexeme c cs).2 <:+ cs := by
  -- A pseudo-class leaves what stands behind its name, or behind its argument.
  have hpseudo : (pseudoClass cs).2 <:+ cs := by
    have hdrop := List.dropWhile_suffix (l := cs) isIdChar
    unfold pseudoClass
    split
    · next tail heq =>
      rw [heq] at hdrop
      exact ((balanced_isSuffix _ _ 0 tail).trans (List.suffix_cons _ tail)).trans hdrop
    · exact hdrop
  have hsibling : (siblingTest cs).2 <:+ cs :=
    (List.dropWhile_suffix _).trans (List.dropWhile_suffix _)
  unfold lexeme
  -- The kinds of parts, as they are taken off.
  split
  · exact List.dropWhile_suffix _
  · split
    · exact List.dropWhile_suffix _
    · exact List.dropWhile_suffix _
    · exact balanced_isSuffix _ _ 0 cs
    · exact hpseudo
    · exact hsibling
    · exact hsibling
    · exact List.suffix_rfl
    · exact List.suffix_rfl
    · exact List.dropWhile_suffix _
    · exact List.suffix_rfl

/-- What a token is like that is taken off the front `c :: cs` of a neat text and leaves `rest`. -/
structure Scanned (c : Char) (cs : List Char) (token : Token) (rest : List Char) : Prop where
  /-- The token can be read back. -/
  readable : token.Readable
  /-- The rest does not continue it. -/
  stopsAt : token.StopsAt rest.head?
  /-- Its text starts as the text does. -/
  head? : token.chars.head? = some c
  /-- Its text is neat. -/
  neat : Neat token.chars
  /-- Its text ends with a plain character, or is the first character of the text. -/
  getLast? : ∀ d ∈ token.chars.getLast?, Plain d ∨ d = c ∧ rest = cs

/-- Every bracket that opens at the front `c :: cs` of a text is closed. -/
def Closed (c : Char) (cs : List Char) : Prop :=
  (c = '[' → Closes '[' ']' 0 cs) ∧
    (c = ':' → ∀ tail, cs.dropWhile isIdChar = '(' :: tail → Closes '(' ')' 0 tail)

section Scan

variable {c : Char} {cs rest : List Char} {token : Token}

/-- A name that is read off the front of a text has characters of its kind. -/
theorem mem_ofList_takeWhile {p : Char → Bool} (cs : List Char) :
    ∀ d ∈ (String.ofList (cs.takeWhile p)).toList, p d = true := by
  rw [String.toList_ofList]
  exact fun _ => List.mem_takeWhile_imp

/-- A token that is a plain character and a run of plain characters. -/
theorem scanned_of_run {run : List Char} (hchars : token.chars = c :: run)
    (hread : token.Readable) (hstop : token.StopsAt rest.head?) (hc : Plain c)
    (hrun : ∀ d ∈ run, Plain d) : Scanned c cs token rest := by
  have hplain : ∀ d ∈ token.chars, Plain d := by
    rw [hchars]
    exact List.forall_mem_cons.mpr ⟨hc, hrun⟩
  exact ⟨hread, hstop, by rw [hchars]; rfl, neat_of_not_blank fun d hd => (hplain d hd).1,
    fun d hd => .inl (hplain d (List.mem_of_getLast? hd))⟩

/-- The test that is taken off between brackets. -/
theorem scanned_attr (hneat : Neat ('[' :: cs)) (hclosed : Closes '[' ']' 0 cs) :
    Scanned '[' cs (.attr (attributeTest (balanced '[' ']' 0 cs).1)) (balanced '[' ']' 0 cs).2 := by
  obtain ⟨span, rest, rfl, hspan⟩ := exists_nested (by decide) 0 hclosed
  rw [balanced_append (by decide) hspan]
  -- Tidying the span drops blanks only, so the brackets in it stay where they are.
  have hmarks := filter_inner (p := fun d => d == '[' || d == ']') (fun d hd => ?_) rfl rfl span
  · have hinner : Neat (attributeTest span).inner :=
      neat_inner (hneat.of_isInfix ⟨['['], ']' :: rest, by simp⟩)
    have hbracket : Plain ']' := ⟨rfl, rfl⟩
    refine ⟨⟨attributeTest_inner span, (nested_congr hmarks).mpr hspan⟩, trivial, rfl, ?_,
      fun d hd => .inl ?_⟩
    · exact neat_append_plain neat_nil ⟨rfl, rfl⟩ (neat_append_plain hinner hbracket neat_nil)
    · rw [Token.chars, ← List.cons_append, List.getLast?_concat] at hd
      exact Option.some.inj hd ▸ hbracket
  · rw [Bool.eq_false_iff]
    intro hmark
    simp only [Bool.or_eq_true, beq_iff_eq] at hmark
    rcases hmark with rfl | rfl <;> cases hd

/-- The pseudo-class that is taken off behind a colon. -/
theorem scanned_pseudoClass (hneat : Neat (':' :: cs))
    (hclosed : ∀ tail, cs.dropWhile isIdChar = '(' :: tail → Closes '(' ')' 0 tail) :
    Scanned ':' cs (pseudoClass cs).1 (pseudoClass cs).2 := by
  have hcolon : Plain ':' := ⟨rfl, rfl⟩
  have hname : ∀ d ∈ (String.ofList (cs.takeWhile isIdChar)).toList, isIdChar d = true :=
    mem_ofList_takeWhile cs
  unfold pseudoClass
  split
  -- The name and the argument, with the parenthesis that closes it.
  · next tail heq =>
    obtain ⟨argument, rest, rfl, hargument⟩ := exists_nested (by decide) 0 (hclosed tail heq)
    have hcs : cs = cs.takeWhile isIdChar ++ '(' :: (argument ++ ')' :: rest) := by
      rw [← heq, List.takeWhile_append_dropWhile]
    -- The argument is a part of a neat text, so it is neat.
    have hneatArgument : Neat argument := by
      refine hneat.of_isInfix ⟨':' :: (cs.takeWhile isIdChar ++ ['(']), ')' :: rest, ?_⟩
      conv_rhs => rw [hcs]
      simp
    have hopen : Plain '(' := ⟨rfl, rfl⟩
    have hclose : Plain ')' := ⟨rfl, rfl⟩
    simp only [balanced_append (by decide) hargument]
    refine ⟨⟨hname, ?_⟩, trivial, rfl, ?_, fun d hd => .inl ?_⟩
    · intro text htext
      rw [← Option.some.inj htext, String.toList_ofList]
      exact hargument
    · rw [Token.chars, String.toList_ofList (l := argument)]
      exact neat_append_plain neat_nil hcolon (neat_append_plain
        (neat_of_not_blank fun d hd => (plain_of_isIdChar (hname d hd)).1) hopen
        (neat_append_plain hneatArgument hclose neat_nil))
    · rw [Token.chars, ← List.cons_append, ← List.cons_append, ← List.append_assoc,
        List.getLast?_concat] at hd
      exact Option.some.inj hd ▸ hclose
  -- The name alone, which ends in front of a character that no name has.
  · next hnot =>
    refine scanned_of_run rfl ⟨hname, fun _ htext => nomatch htext⟩ ?_ hcolon fun d hd =>
      plain_of_isIdChar (hname d hd)
    refine fun d hd => ⟨head?_dropWhile cs d hd, ?_⟩
    rintro rfl
    obtain ⟨tail, htail⟩ := List.head?_eq_some_iff.mp hd
    exact hnot tail htail

/-- The test behind a tight combinator is a run of characters. -/
theorem exists_siblingTest (hneat : Neat (c :: cs)) (hc : isTight c = true) :
    ∃ sub rest, siblingTest cs = (sub, rest) ∧ cs = sub.toList ++ rest ∧
      (∀ d ∈ sub.toList, isSiblingChar d = true) ∧
      ∀ d ∈ rest.head?, isSiblingChar d = false ∧ (sub = "" → d ≠ ' ') := by
  -- No space stands between the two.
  have hblank : ∀ d ∈ cs.head?, d ≠ ' ' := by
    rintro d hd rfl
    have hspace := ((neat_cons.mp hneat).2.2 ' ' hd).2 hc
    cases hspace
  have hspace : cs.dropWhile (· == ' ') = cs := by
    cases cs with
    | nil => rfl
    | cons d cs => exact List.dropWhile_cons_of_neg fun heq => hblank d rfl (beq_iff_eq.mp heq)
  have hcs := List.takeWhile_append_dropWhile (p := isSiblingChar) (l := cs)
  refine ⟨String.ofList (cs.takeWhile isSiblingChar), cs.dropWhile isSiblingChar, ?_, ?_,
    mem_ofList_takeWhile cs, fun d hd => ⟨head?_dropWhile cs d hd, fun hempty => hblank d ?_⟩⟩
  · unfold siblingTest
    rw [hspace]
  · rw [String.toList_ofList, hcs]
  · rw [String.ofList_eq_empty_iff.mp hempty, List.nil_append] at hcs
    rwa [hcs] at hd

/-- A sibling combinator that is taken off with its test. -/
theorem scanned_sibling {run : List Char} (hc : isTight c = true)
    (hrun : ∀ d ∈ run, isSiblingChar d = true) (hchars : token.chars = c :: run)
    (hread : token.Readable) (hstop : token.StopsAt rest.head?) :
    Scanned c (run ++ rest) token rest := by
  have hplain : ∀ d ∈ run, Plain d := fun d hd => plain_of_isSiblingChar (hrun d hd)
  refine ⟨hread, hstop, by rw [hchars]; rfl, ?_, fun d hd => ?_⟩
  -- The combinator is tight, and no blank stands behind it.
  · rw [hchars]
    refine neat_cons.mpr ⟨fun h => ?_, neat_of_not_blank fun d hd => (hplain d hd).1,
      fun d hd => fits_plain c (hplain d (List.mem_of_head? hd))⟩
    rw [isBlank_eq_false_of_isTight hc] at h
    cases h
  -- The last character is the combinator itself, or the last one of the run.
  · rw [hchars] at hd
    cases run with
    | nil => exact .inr ⟨(Option.some.inj hd).symm, rfl⟩
    | cons e es =>
      rw [List.getLast?_cons_cons] at hd
      exact .inl (hplain d (List.mem_of_getLast? hd))

/-- The tokens that are taken off the front of a neat text with closed brackets. -/
theorem scanned_lexeme (hneat : Neat (c :: cs)) (hclosed : Closed c cs)
    (h : lexeme c cs = (.token token, rest)) : Scanned c cs token rest := by
  unfold lexeme at h
  split at h
  -- A tag, whose first character is the one at hand.
  · next hc =>
    cases h
    refine scanned_of_run (by rw [Token.chars, String.toList_ofList]) ⟨?_, ?_⟩
      (head?_dropWhile cs) (plain_of_isTagChar hc) fun d hd =>
        plain_of_isTagChar (List.mem_takeWhile_imp hd)
    · rw [String.toList_ofList]
      exact List.cons_ne_nil _ _
    · rw [String.toList_ofList]
      exact List.forall_mem_cons.mpr ⟨hc, fun _ => List.mem_takeWhile_imp⟩
  · split at h
    -- A name behind `#` or a point, with no characters if none follow.
    · cases h
      exact scanned_of_run rfl (mem_ofList_takeWhile cs) (head?_dropWhile cs) ⟨rfl, rfl⟩
        fun d hd => plain_of_isIdChar (mem_ofList_takeWhile cs d hd)
    · cases h
      exact scanned_of_run rfl (mem_ofList_takeWhile cs) (head?_dropWhile cs) ⟨rfl, rfl⟩
        fun d hd => plain_of_isClassChar (mem_ofList_takeWhile cs d hd)
    · cases h
      exact scanned_attr hneat (hclosed.1 rfl)
    · cases h
      exact scanned_pseudoClass hneat (hclosed.2 rfl)
    -- The two sibling combinators with their tests.
    · obtain ⟨sub, left, htest, rfl, hsub, hleft⟩ := exists_siblingTest hneat rfl
      rw [htest] at h
      cases h
      exact scanned_sibling rfl hsub rfl hsub hleft
    · obtain ⟨sub, left, htest, rfl, hsub, hleft⟩ := exists_siblingTest hneat rfl
      rw [htest] at h
      cases h
      exact scanned_sibling rfl hsub rfl hsub hleft
    -- The child and the descendant combinator, which are one character each.
    · cases h
      exact ⟨trivial, trivial, rfl, neat_singleton nofun,
        fun d hd => .inr ⟨(Option.some.inj hd).symm, rfl⟩⟩
    · cases h
      exact ⟨trivial, trivial, rfl, neat_singleton fun _ => rfl,
        fun d hd => .inr ⟨(Option.some.inj hd).symm, rfl⟩⟩
    -- A comma and a character that is skipped give no token.
    · cases h
    · cases h

end Scan

end Selector

end TreeQuery
