import TreeQuery.Proofs.Cursor
import TreeQuery.Proofs.RoundTrip

/-!
# The shape of a selector

Whatever text a selector is read from, its groups start with the combinator that leads to the first
compound, and its tokens are made of the characters of their kind. The tokens of a selector are
those that the text writes and those that a group is completed with, so what holds of both kinds
holds of all of them (`forall_mem_parse`). `parse_shaped` puts together what is known of every
selector, and that the reading of the text never goes wrong on the way (`Cursor.read?_eq`).
-/

namespace TreeQuery

/-- The characters of a token are of its kind, and the name of a test is tidy. -/
def Token.Shaped : Token → Prop
  | tag name =>
    name ≠ "" ∧ ∀ c ∈ name.toList, Selector.isWordChar c = true ∨ c ∈ ['*', '|', '-']
  | id name | pseudoClass name _ => ∀ c ∈ name.toList, Selector.isWordChar c = true ∨ c = '-'
  | classes names => ∀ c ∈ names.toList, Selector.isWordChar c = true ∨ c ∈ ['.', '-']
  | attr test =>
    Text.trim test.name.toList = test.name.toList ∧ '=' ∉ test.name.toList ∧
      (test.comparison = .present → test.value = "")
  | adjacent sub | general sub =>
    ' ' ∉ sub.toList ∧ ∀ c ∈ sub.toList, Selector.isWordChar c = true ∨ c ∈ ['.', '-', '*']
  | child | descendant => True

namespace Selector

variable {c : Char} {cs : List Char} {text : String} {group : Group} {token : Token}

/-! ## Where tokens come from -/

/-- The tokens of a group are read. -/
theorem mem_of_mem_split {parts : List Lexeme} (hgroup : group ∈ split parts)
    (htoken : token ∈ group) : Lexeme.token token ∈ parts := by
  induction parts generalizing group with
  | nil =>
    obtain rfl := List.mem_singleton.mp hgroup
    cases htoken
  -- By induction over the parts: what the first one is decides where a group begins.
  | cons part parts ih =>
    cases part with
    | comma =>
      rcases List.mem_cons.mp hgroup with rfl | hgroup
      · cases htoken
      · exact List.mem_cons_of_mem _ (ih hgroup htoken)
    | skipped c => exact List.mem_cons_of_mem _ (ih hgroup htoken)
    | token first =>
      obtain ⟨rest, groups, hsplit⟩ := exists_split parts
      rw [split_token hsplit] at hgroup
      rw [hsplit] at ih
      rcases List.mem_cons.mp hgroup with rfl | hgroup
      · rcases List.mem_cons.mp htoken with rfl | htoken
        · exact List.mem_cons_self
        · exact List.mem_cons_of_mem _ (ih List.mem_cons_self htoken)
      · exact List.mem_cons_of_mem _ (ih (List.mem_cons_of_mem _ hgroup) htoken)

/-- A group is completed with a combinator and a universal type selector. -/
theorem mem_complete (h : token ∈ group.complete) :
    token = .descendant ∨ token = .tag "*" ∨ token ∈ group := by
  cases group with
  | nil => cases h
  | cons first tokens =>
    cases first with
    | child => exact .inr (.inr h)
    | pseudoClass name argument =>
      rcases List.mem_cons.mp h with rfl | h
      · exact .inl rfl
      · exact .inr (List.mem_cons.mp h)
    | _ =>
      rcases List.mem_cons.mp h with rfl | h
      · exact .inl rfl
      · exact .inr (.inr h)

/-- A text that starts with the character `c`, behind which stands `cs`, starts with a token. -/
inductive Starts (c : Char) (cs : List Char) : Token → Prop
  /-- A run of characters of a type selector. -/
  | tag (hc : isTagChar c = true) : Starts c cs (.tag (String.ofList (c :: cs.takeWhile isTagChar)))
  /-- A run behind `#`. -/
  | id : Starts c cs (.id (String.ofList (cs.takeWhile isIdChar)))
  /-- A run behind a point. -/
  | classes : Starts c cs (.classes (String.ofList (cs.takeWhile isClassChar)))
  /-- A test between brackets. -/
  | attr : Starts c cs (.attr (attributeTest (balanced '[' ']' 0 cs).1))
  /-- A name, and perhaps an argument, behind a colon. -/
  | pseudoClass : Starts c cs (pseudoClass cs).1
  /-- A test behind `+`. -/
  | adjacent : Starts c cs (.adjacent (siblingTest cs).1)
  /-- A test behind `~`. -/
  | general : Starts c cs (.general (siblingTest cs).1)
  /-- The combinator `>`. -/
  | child : Starts c cs .child
  /-- A space. -/
  | descendant : Starts c cs .descendant

/-- A token that is read first is one that the text starts with. -/
theorem starts_of_lexeme (h : (lexeme c cs).1 = .token token) : Starts c cs token := by
  unfold lexeme at h
  split at h
  · next htag => exact Lexeme.token.inj h ▸ .tag htag
  · split at h
    · exact Lexeme.token.inj h ▸ .id
    · exact Lexeme.token.inj h ▸ .classes
    · exact Lexeme.token.inj h ▸ .attr
    · exact Lexeme.token.inj h ▸ .pseudoClass
    · exact Lexeme.token.inj h ▸ .adjacent
    · exact Lexeme.token.inj h ▸ .general
    · exact Lexeme.token.inj h ▸ .child
    · exact Lexeme.token.inj h ▸ .descendant
    · cases h
    · cases h

/-- What holds of every token that starts somewhere in a text holds of all tokens that are read. -/
theorem forall_mem_lexemes {P : Token → Prop}
    (h : ∀ c rest token, c :: rest <:+ cs → Starts c rest token → P token) :
    ∀ token, Lexeme.token token ∈ lexemes cs → P token := by
  induction cs using lexemes.induct with
  | case1 =>
    rw [lexemes]
    exact fun _ htoken => absurd htoken List.not_mem_nil
  | case2 c cs ih =>
    have hbehind : (lexeme c cs).2 <:+ c :: cs :=
      (lexeme_isSuffix c cs).trans (List.suffix_cons c cs)
    rw [lexemes]
    intro token htoken
    rcases List.mem_cons.mp htoken with hfirst | htoken
    · exact h c cs token List.suffix_rfl (starts_of_lexeme hfirst.symm)
    · exact ih (fun d rest token hsuffix => h d rest token (hsuffix.trans hbehind)) token htoken

/-- What holds of the tokens that a group is completed with, and of every token that starts
somewhere in the text, holds of all tokens of a selector. -/
theorem forall_mem_parse {P : Token → Prop} (hdescendant : P .descendant) (hstar : P (.tag "*"))
    (h : ∀ c rest token, c :: rest <:+ normalize text.toList → Starts c rest token → P token) :
    ∀ group ∈ (parse text).groups, ∀ token ∈ group, P token := by
  intro group hgroup token htoken
  obtain ⟨written, hwritten, rfl⟩ := List.mem_map.mp hgroup
  rcases mem_complete htoken with rfl | rfl | htoken
  · exact hdescendant
  · exact hstar
  · exact forall_mem_lexemes h token (mem_of_mem_split hwritten htoken)

/-! ## Characters of tokens -/

/-- The characters of type selectors. -/
theorem isTagChar_cases (h : isTagChar c = true) : isWordChar c = true ∨ c ∈ ['*', '|', '-'] := by
  simpa [isTagChar, or_assoc] using h

/-- The characters of ids and names. -/
theorem isIdChar_cases (h : isIdChar c = true) : isWordChar c = true ∨ c = '-' := by
  simpa [isIdChar] using h

/-- The characters of class names. -/
theorem isClassChar_cases (h : isClassChar c = true) : isWordChar c = true ∨ c ∈ ['.', '-'] := by
  simpa [isClassChar, or_assoc] using h

/-- The characters of the tests of siblings. -/
theorem isSiblingChar_cases (h : isSiblingChar c = true) :
    isWordChar c = true ∨ c ∈ ['.', '-', '*'] := by
  simpa [isSiblingChar, isClassChar, or_assoc] using h

/-- The name of a test is trimmed, holds no equals sign, and stands alone if only the presence of
the attribute is asked for. -/
theorem shaped_attributeTest (span : List Char) : (Token.attr (attributeTest span)).Shaped := by
  -- A part of what has no equals sign has none, also as a text.
  have hnot : ∀ {name front : List Char}, name <:+: front → '=' ∉ front →
      '=' ∉ (String.ofList name).toList := by
    intro name front hname hfront
    rw [String.toList_ofList]
    exact fun hmem => hfront (hname.subset hmem)
  have hself : ∀ {name : List Char}, Text.trim name = name →
      Text.trim (String.ofList name).toList = (String.ofList name).toList := by
    intro name hname
    rw [String.toList_ofList, hname]
  -- A test without a sign has the trimmed span for its name. With a sign, the name is what stands
  -- in front of it, without the marker if the last character is one.
  cases hsplit : Text.splitOnce '=' span with
  | none =>
    have hspan := Text.splitOnce_eq_none_iff.mp hsplit
    rw [attributeTest_present hspan]
    exact ⟨hself (Text.trim_trim span), hnot (Text.trim_isInfix span) hspan, fun _ => rfl⟩
  | some parts =>
    obtain ⟨front, back⟩ := parts
    obtain ⟨rfl, hfront⟩ := Text.eq_of_splitOnce hsplit
    rcases tidyFront_cases front with ⟨hlast, -⟩ | ⟨name, marker, comparison, hname, hmarker, -⟩
    · rw [attributeTest_equal hfront hlast]
      exact ⟨hself (Text.trim_trim front), hnot (Text.trim_isInfix front) hfront, nofun⟩
    -- What is left of the name without the marker starts like what was trimmed.
    · have hstart : Text.trimEnd name <+: Text.trim front :=
        (Text.trimEnd_isPrefix name).trans (hname ▸ List.prefix_append name [marker])
      have htrim : Text.trim (Text.trimEnd name) = Text.trimEnd name :=
        Text.trim_eq_self
          (fun c hc => Text.head?_trim front c (Text.head?_of_isPrefix hstart hc))
          (Text.getLast?_trimEnd name)
      have hpresent := (Comparison.symbol_of_marker hmarker).2.1
      rw [attributeTest_marker hfront hname hmarker]
      exact ⟨hself htrim, hnot (hstart.isInfix.trans (Text.trim_isInfix front)) hfront,
        fun h => absurd h hpresent⟩

/-- The name of a pseudo-class. -/
theorem shaped_pseudoClass (cs : List Char) : (pseudoClass cs).1.Shaped := by
  unfold pseudoClass
  split
  · exact fun d hd => isIdChar_cases (mem_ofList_takeWhile cs d hd)
  · exact fun d hd => isIdChar_cases (mem_ofList_takeWhile cs d hd)

/-- The test behind `+` or `~`. -/
theorem shaped_siblingTest (cs : List Char) : (Token.adjacent (siblingTest cs).1).Shaped := by
  have hchars : ∀ d ∈ (siblingTest cs).1.toList, isSiblingChar d = true :=
    mem_ofList_takeWhile _
  refine ⟨fun hspace => ?_, fun d hd => isSiblingChar_cases (hchars d hd)⟩
  have hnot : isSiblingChar ' ' = false := rfl
  rw [hchars _ hspace] at hnot
  cases hnot

/-- Every token that a text starts with has its shape. -/
theorem Starts.shaped (h : Starts c cs token) : token.Shaped := by
  -- The kinds of tokens, each by the run of characters that it takes.
  cases h with
  | tag hc =>
    refine ⟨fun hempty => ?_, fun d hd => isTagChar_cases ?_⟩
    · have hnil := congrArg String.toList hempty
      rw [String.toList_ofList] at hnil
      cases hnil
    · rw [String.toList_ofList] at hd
      rcases List.mem_cons.mp hd with rfl | hd
      · exact hc
      · exact List.mem_takeWhile_imp hd
  | id => exact fun d hd => isIdChar_cases (mem_ofList_takeWhile cs d hd)
  | classes => exact fun d hd => isClassChar_cases (mem_ofList_takeWhile cs d hd)
  | attr => exact shaped_attributeTest _
  | pseudoClass => exact shaped_pseudoClass cs
  | adjacent => exact shaped_siblingTest cs
  | general => exact shaped_siblingTest cs
  | child => trivial
  | descendant => trivial

/-- Every token of a selector has its shape. -/
theorem shaped_of_mem (hgroup : group ∈ (parse text).groups) (htoken : token ∈ group) :
    token.Shaped :=
  forall_mem_parse trivial ⟨by decide, forall_mem_of_all (by decide)⟩
    (fun _ _ _ _ hstarts => hstarts.shaped) group hgroup token htoken

/-! ## Starts of groups -/

/-- A group with tokens starts with a combinator. It is `>` alone, or something follows, which is no
pseudo-class behind a descendant combinator. -/
theorem complete_start_cases (group : Group) :
    group.complete = [] ∨ (∃ tokens, group.complete = .child :: tokens) ∨
      ∃ second tokens, group.complete = .descendant :: second :: tokens ∧
        ∀ name argument, second ≠ .pseudoClass name argument := by
  cases group with
  | nil => exact .inl rfl
  | cons first tokens =>
    cases first with
    | child => exact .inr (.inl ⟨tokens, rfl⟩)
    | _ => exact .inr (.inr ⟨_, _, rfl, nofun⟩)

/-- **The shape of a selector.** Every text is read as a selector with a group at least. A group
with tokens starts with `>` or with a descendant combinator, something follows unless it is `>`
alone, and no pseudo-class follows a descendant combinator at its start. All tokens are made of the
characters of their kind. A cursor reads the text in this way too: it moves on to the end of it,
and takes no slice out of range or off the boundary of a character. -/
theorem parse_shaped (text : String) :
    (parse text).groups ≠ [] ∧
      (∀ group ∈ (parse text).groups, group ≠ [] →
        (group.head? = some .child ∨ group.head? = some .descendant) ∧
          (group = [.child] ∨ 2 ≤ group.length) ∧
          ∀ second tokens, group = .descendant :: second :: tokens →
            ∀ name argument, second ≠ .pseudoClass name argument) ∧
      (∀ group ∈ (parse text).groups, ∀ token ∈ group, token.Shaped) ∧
      Cursor.read? text = some (parse text) := by
  refine ⟨?_, fun group hgroup hne => ?_, fun group hgroup token htoken => ?_,
    Cursor.read?_eq text⟩
  -- There is a group for the text in front of the first comma at least.
  · obtain ⟨group, groups, hsplit⟩ := exists_split (lexemes (normalize text.toList))
    unfold parse
    rw [hsplit]
    exact List.cons_ne_nil _ _
  -- Completing a group leaves it empty, or it starts with a combinator.
  · obtain ⟨written, -, rfl⟩ := List.mem_map.mp hgroup
    rcases complete_start_cases written with hnil | ⟨tokens, hchild⟩ |
      ⟨second, tokens, hstart, hnot⟩
    · exact absurd hnil hne
    · rw [hchild]
      refine ⟨.inl rfl, ?_, fun _ _ heq => nomatch heq⟩
      cases tokens with
      | nil => exact .inl rfl
      | cons second tokens => exact .inr (by simp)
    · rw [hstart]
      refine ⟨.inr rfl, .inr (by simp), fun other rest heq => ?_⟩
      obtain ⟨-, heq⟩ := List.cons.inj heq
      exact (List.cons.inj heq).1 ▸ hnot
  · exact shaped_of_mem hgroup htoken

/-- For one, a text with a pseudo-class at its start, a lone combinator, letters of more than one
byte and a bracket that is never closed. -/
theorem parse_shaped_open :
    let text := ":not(b), >, é#ü + .a b[ lang |= 'de"
    let lang : AttributeTest := ⟨"lang", .dashed, "'de"⟩
    parse text = ⟨[[.descendant, .tag "*", .pseudoClass "not" (some "b")], [.child],
        [.descendant, .tag "é", .id "ü", .adjacent ".a", .descendant, .tag "b", .attr lang]]⟩ ∧
      Cursor.read? text = some (parse text) ∧
      (Token.attr lang).Shaped ∧ (Token.adjacent ".a").Shaped := by
  intro text lang
  have hparse : parse text = ⟨[[.descendant, .tag "*", .pseudoClass "not" (some "b")], [.child],
      [.descendant, .tag "é", .id "ü", .adjacent ".a", .descendant, .tag "b", .attr lang]]⟩ := by
    decide +kernel
  obtain ⟨-, -, hshaped, hread⟩ := parse_shaped text
  rw [hparse] at hshaped
  have hlast := hshaped _ (List.mem_cons_of_mem _ (List.mem_cons_of_mem _ List.mem_cons_self))
  exact ⟨hparse, hread, hlast _ (by simp), hlast _ (by simp)⟩

end Selector

end TreeQuery
