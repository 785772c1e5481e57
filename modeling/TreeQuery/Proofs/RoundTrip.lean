import TreeQuery.Proofs.Scanning

/-!
# A selector is read back from its text

The text of a selector is not the text that it was read from: white space is gone, values stand
between quotes, and what a group leaves out at its start is written out. Reading it again gives the
same selector all the same, provided that the first reading skipped no character and found every
bracket closed (`parse_render`).
-/

namespace TreeQuery.Selector

variable {c : Char} {cs : List Char} {parts : List Lexeme}

/-! ## Legible texts -/

/-- Every character of a text belongs to a part, and every bracket that opens a test or an argument
is closed. -/
inductive Legible : List Char → Prop
  /-- There is nothing to read. -/
  | nil : Legible []
  /-- The first part is kept, its bracket is closed, and the text behind it is legible. -/
  | cons {c : Char} {cs : List Char} (hkept : ∀ d, (lexeme c cs).1 ≠ .skipped d)
    (hclosed : Closed c cs) (hrest : Legible (lexeme c cs).2) : Legible (c :: cs)

/-! ## The text of what has been read -/

/-- What the text of a group has in front of its first token. -/
def lead : Token → List Char
  | .child => []
  | .pseudoClass _ _ => [' ', '*']
  | _ => [' ']

/-- What is left of that without white space in front of a tight combinator. -/
def tightLead : Token → List Char
  | .child | .adjacent _ | .general _ => []
  | .pseudoClass _ _ => [' ', '*']
  | _ => [' ']

/-- The text of the parts of a selector, where `first` goes in front of the first token of a group.
`start` says whether a group starts here. -/
def spell (first : Token → List Char) (start : Bool) : List Lexeme → List Char
  | [] => []
  | .comma :: parts => ',' :: spell first true parts
  | .skipped _ :: parts => spell first start parts
  | .token token :: parts =>
    (if start then first token else []) ++ (token.chars ++ spell first false parts)

/-- What a group leaves out in front of its first token, apart from the combinator. -/
def star : Token → List Lexeme
  | .pseudoClass _ _ => [.token (.tag "*")]
  | _ => []

/-- The parts of a selector with what each group leaves out at its start, apart from the
combinator. -/
def starred (start : Bool) : List Lexeme → List Lexeme
  | [] => []
  | .comma :: parts => .comma :: starred true parts
  | .skipped c :: parts => .skipped c :: starred start parts
  | .token token :: parts =>
    (if start then star token else []) ++ .token token :: starred false parts

/-- There is a group, if only one without tokens. -/
theorem exists_split (parts : List Lexeme) : ∃ group groups, split parts = group :: groups := by
  fun_induction split parts with
  | case1 => exact ⟨_, _, rfl⟩
  | case2 rest ih => exact ⟨_, _, rfl⟩
  | case3 c rest ih => exact ih
  | case4 token rest hsplit ih => exact ⟨_, _, rfl⟩
  | case5 token rest group groups hsplit ih => exact ⟨_, _, rfl⟩

/-- A token comes first in the first group. -/
theorem split_token {token : Token} {group : Group} {groups : List Group}
    (h : split parts = group :: groups) :
    split (.token token :: parts) = (token :: group) :: groups := by
  rw [split, h]

/-- A group that starts a text is written with what stands in front of its first token. -/
theorem chars_complete (token : Token) (tokens : Group) :
    (Group.complete (token :: tokens)).flatMap Token.chars =
      lead token ++ (token.chars ++ tokens.flatMap Token.chars) := by
  cases token with
  | _ => rfl

/-- What stands in front of the first of several joined texts may be joined to it before. -/
theorem intercalate_append (front first : List Char) (others : List (List Char)) :
    [','].intercalate ((front ++ first) :: others) =
      front ++ [','].intercalate (first :: others) := by
  cases others with
  | nil => rw [List.intercalate_singleton, List.intercalate_singleton]
  | cons second others =>
    rw [List.intercalate_cons_cons, List.intercalate_cons_cons, List.append_assoc,
      List.append_assoc, List.append_assoc]

/-- The texts of the groups, with commas between them, are the text of the parts. -/
theorem spell_lead_eq (parts : List Lexeme) (start : Bool) {group : Group} {groups : List Group}
    (h : split parts = group :: groups) :
    spell lead start parts =
      [','].intercalate ((if start then group.complete else group).flatMap Token.chars ::
        groups.map fun group => group.complete.flatMap Token.chars) := by
  induction parts generalizing start group groups with
  | nil =>
    obtain ⟨rfl, rfl⟩ := List.cons.inj h
    cases start with
    | _ => rfl
  | cons part parts ih =>
    obtain ⟨second, others, hsplit⟩ := exists_split parts
    cases part with
    -- A token belongs to the first group, in front of what is left of it.
    | token token =>
      rw [split_token hsplit] at h
      obtain ⟨rfl, rfl⟩ := List.cons.inj h
      rw [spell, ih false hsplit, if_neg Bool.false_ne_true, ← intercalate_append,
        ← intercalate_append]
      cases start with
      | true => rw [if_pos rfl, if_pos rfl, chars_complete]
      | false => rfl
    -- A comma starts a group of its own, with nothing in front of it.
    | comma =>
      rw [split, hsplit] at h
      obtain ⟨rfl, rfl⟩ := List.cons.inj h
      rw [spell, ih true hsplit, List.map_cons, List.intercalate_cons_cons]
      cases start with
      | _ => rfl
    -- A character that is skipped writes nothing.
    | skipped c =>
      rw [split] at h
      exact ih start h

/-- The text of a selector is the text of its parts. -/
theorem toList_render (parts : List Lexeme) :
    (Selector.mk ((split parts).map Group.complete)).render.toList = spell lead true parts := by
  obtain ⟨group, groups, hsplit⟩ := exists_split parts
  have hgroup : ∀ group : Group, (Group.render group).toList = group.flatMap Token.chars := by
    intro group
    unfold Group.render
    rw [String.toList_join, List.flatMap_map]
    exact List.flatMap_congr fun token _ => token.toList_render
  unfold render
  rw [String.toList_intercalate, spell_lead_eq parts true hsplit, hsplit, List.map_map,
    List.map_map, List.map_cons, if_pos rfl]
  congr 1
  exact congrArg₂ _ (hgroup _) (List.map_congr_left fun group _ => hgroup _)

/-! ## White space in the text -/

/-- White space in front of tight combinators at the start of groups is not written. -/
theorem squeeze_spell (parts : List Lexeme) (start tight pending : Bool) :
    squeeze tight pending (spell lead start parts) =
      squeeze tight pending (spell tightLead start parts) := by
  induction parts generalizing start tight pending with
  | nil => rfl
  | cons part parts ih =>
    cases part with
    | comma => exact squeeze_append_congr (fun tight pending => ih true tight pending) [','] _ _
    | skipped c => exact ih start tight pending
    | token token =>
      -- The texts differ in front of the token alone.
      have hrest : ∀ front : List Char,
          squeeze tight pending (front ++ (token.chars ++ spell lead false parts)) =
            squeeze tight pending (front ++ (token.chars ++ spell tightLead false parts)) := by
        intro front
        rw [← List.append_assoc, ← List.append_assoc]
        exact squeeze_append_congr (fun tight pending => ih false tight pending) _ _ _
      rw [spell, spell, hrest]
      cases start with
      | false => rfl
      | true =>
        cases token with
        | adjacent sub => exact squeeze_space_tight rfl tight pending _
        | general sub => exact squeeze_space_tight rfl tight pending _
        | _ => rfl

/-! ## Reading the text -/

/-- A neat and legible text is read as parts: what is read of it part by part. -/
inductive ReadAs : List Char → List Lexeme → Prop
  /-- There is nothing to read. -/
  | nil : ReadAs [] []
  /-- A comma is read with the spaces behind it. -/
  | comma {cs : List Char} {parts : List Lexeme}
    (hrest : ReadAs (cs.dropWhile (· == ' ')) parts) : ReadAs (',' :: cs) (.comma :: parts)
  /-- A token is read up to where it ends. -/
  | token {c : Char} {cs rest : List Char} {token : Token} {parts : List Lexeme}
    (hneat : Neat (c :: cs)) (hscan : Scanned c cs token rest) (hsuffix : rest <:+ cs)
    (hrest : ReadAs rest parts) : ReadAs (c :: cs) (.token token :: parts)

/-- A comma is read with the spaces behind it. -/
theorem lexeme_comma (cs : List Char) : lexeme ',' cs = (.comma, cs.dropWhile (· == ' ')) := by
  rfl

/-- The scan of a comma takes the spaces behind it. -/
theorem eq_comma_of_lexeme (h : (lexeme c cs).1 = .comma) :
    c = ',' ∧ (lexeme c cs).2 = cs.dropWhile (· == ' ') := by
  unfold lexeme at h ⊢
  split at h
  · cases h
  · next hc =>
    rw [if_neg hc]
    split at h
    all_goals first
      | exact ⟨rfl, rfl⟩
      | cases h

/-- A neat and legible text is read as the parts that a scan finds. -/
theorem readAs_lexemes (h : Legible cs) (hneat : Neat cs) : ReadAs cs (lexemes cs) := by
  induction h with
  -- By induction along the scan: what is left behind a part is a neat text again.
  | nil =>
    rw [lexemes]
    exact .nil
  | @cons c cs hkept hclosed _ ih =>
    have hsuffix := lexeme_isSuffix c cs
    have hrest := ih (hneat.of_isInfix (hsuffix.trans (List.suffix_cons c cs)).isInfix)
    rw [lexemes]
    -- The part is a token with its text, or a comma with the spaces behind it, or it was skipped,
    -- which does not happen in a legible text.
    cases hpart : (lexeme c cs).1 with
    | token token =>
      exact .token hneat (scanned_lexeme hneat hclosed (Prod.ext hpart rfl)) hsuffix hrest
    | comma =>
      obtain ⟨rfl, hskip⟩ := eq_comma_of_lexeme hpart
      rw [hskip] at hrest ⊢
      exact .comma hrest
    | skipped d => exact absurd hpart (hkept d)

/-- The text of the parts starts as the text that they were read from. -/
theorem head?_spell (h : ReadAs cs parts) (first : Token → List Char) :
    (spell first false parts).head? = cs.head? := by
  cases h with
  | nil => rfl
  | comma hrest => rfl
  | token hneat hscan hsuffix hrest =>
    rw [spell, if_neg Bool.false_ne_true, List.nil_append, List.head?_append, hscan.head?]
    rfl

/-- Behind a token its text fits in front of what is written next. -/
theorem neat_chars_append {token : Token} {rest ds : List Char} (hneat : Neat (c :: cs))
    (hscan : Scanned c cs token rest) (hds : Neat ds) (hhead : ds.head? = rest.head?) :
    Neat (token.chars ++ ds) := by
  refine neat_append.mpr ⟨hscan.neat, hds, fun d hd e he => ?_⟩
  rcases hscan.getLast? d hd with hplain | ⟨rfl, rfl⟩
  · exact hplain.fits e
  · exact (neat_cons.mp hneat).2.2 e (hhead ▸ he)

/-- What stands in front of the first token of a group fits there, unless the text of the token
starts with a space. -/
theorem neat_tightLead {token : Token} {text : List Char} (hread : token.Readable)
    (hc : token.chars.head? = some c) (hspace : c ≠ ' ') (htext : Neat (token.chars ++ text)) :
    Neat (tightLead token ++ (token.chars ++ text)) := by
  have hhead : (token.chars ++ text).head? = some c := by
    rw [List.head?_append, hc]
    rfl
  have hmem : c ∈ token.chars ++ text := List.mem_of_head? hhead
  have hblank : Text.isBlank c = false :=
    Bool.eq_false_iff.mpr fun h => hspace (htext.spaces c hmem h)
  -- Where a space is put in front of the token, its text starts with a character that fits behind
  -- it.
  have hone : isTight c = false → Neat (' ' :: (token.chars ++ text)) := by
    refine fun htight => neat_cons.mpr ⟨fun _ => rfl, htext, fun d hd => ?_⟩
    obtain rfl := Option.some.inj (hhead.symm.trans hd)
    exact fits_plain ' ' ⟨hblank, htight⟩
  cases token with
  | child => exact htext
  | adjacent sub => exact htext
  | general sub => exact htext
  -- In front of a pseudo-class stands `*`, which fits everywhere.
  | pseudoClass name argument =>
    have hstar : Plain '*' := ⟨rfl, rfl⟩
    exact neat_append_plain (neat_singleton fun _ => rfl) hstar htext
  -- The other tokens start with a character that is neither blank nor tight.
  | tag name => exact hone (plain_of_isTagChar (hread.2 c (List.mem_of_head? hc))).2
  | id name => exact hone (Option.some.inj hc ▸ rfl)
  | classes names => exact hone (Option.some.inj hc ▸ rfl)
  | attr test => exact hone (Option.some.inj hc ▸ rfl)
  | descendant => exact hone (Option.some.inj hc ▸ rfl)

/-- No white space is left to remove from the text of the parts. -/
theorem neat_spell (h : ReadAs cs parts) {start : Bool}
    (hstart : start = true → cs.head? ≠ some ' ') : Neat (spell tightLead start parts) := by
  induction h generalizing start with
  | nil => exact neat_nil
  | @comma cs parts hrest ih =>
    refine neat_append_plain neat_nil ⟨rfl, rfl⟩ (ih fun _ hspace => ?_)
    exact absurd (head?_dropWhile cs ' ' hspace) (by decide)
  | @token c cs rest token parts hneat hscan hsuffix hrest ih =>
    have htext : Neat (token.chars ++ spell tightLead false parts) :=
      neat_chars_append hneat hscan (ih nofun) (head?_spell hrest tightLead)
    rw [spell]
    split_ifs with htrue
    · have hspace : c ≠ ' ' := fun hc => hstart htrue (congrArg some hc)
      exact neat_tightLead hscan.readable hscan.head? hspace htext
    · exact htext

/-- A text ends as its last part does. -/
theorem mem_getLast?_of_suffix {back : List Char} (h : back <:+ cs) {d : Char}
    (hd : d ∈ back.getLast?) : d ∈ cs.getLast? := by
  obtain ⟨front, rfl⟩ := h
  rw [List.getLast?_append, Option.mem_def.mp hd]
  rfl

/-- The text of the parts does not end with a blank if what they were read from does not. -/
theorem getLast?_spell (h : ReadAs cs parts) (start : Bool)
    (hlast : ∀ d ∈ cs.getLast?, Text.isBlank d = false) :
    ∀ d ∈ (spell tightLead start parts).getLast?, Text.isBlank d = false := by
  induction h generalizing start with
  | nil => exact fun d hd => nomatch hd
  | @comma cs parts hrest ih =>
    intro d hd
    rw [spell, ← List.singleton_append, List.getLast?_append, Option.mem_def,
      Option.or_eq_some_iff] at hd
    rcases hd with hd | ⟨-, hd⟩
    · refine ih true (fun e he => hlast e ?_) d hd
      exact mem_getLast?_of_suffix ((List.dropWhile_suffix _).trans (List.suffix_cons ',' cs)) he
    · exact Option.some.inj hd ▸ rfl
  | @token c cs rest token parts hneat hscan hsuffix hrest ih =>
    -- The text ends with what follows the token or, if nothing does, with the token.
    have hback : ∀ d ∈ (spell tightLead false parts).getLast?, Text.isBlank d = false := by
      refine ih false fun e he => hlast e ?_
      exact mem_getLast?_of_suffix (hsuffix.trans (List.suffix_cons c cs)) he
    have hchars : ∀ d ∈ token.chars.getLast?, spell tightLead false parts = [] →
        Text.isBlank d = false := by
      intro d hd hnil
      rcases hscan.getLast? d hd with hplain | ⟨rfl, rfl⟩
      · exact hplain.1
      · -- The token is a single character, and the last one of the text.
        have hhead := head?_spell hrest tightLead
        rw [hnil, List.head?_nil, eq_comm, List.head?_eq_none_iff] at hhead
        exact hlast d (hhead ▸ rfl)
    have hne : token.chars ≠ [] := fun hnil => nomatch hnil ▸ hscan.head?
    intro d hd
    rw [spell, ← List.append_assoc, List.getLast?_append, Option.mem_def,
      Option.or_eq_some_iff] at hd
    rcases hd with hd | ⟨hnil, hd⟩
    · exact hback d hd
    · rw [List.getLast?_append_of_ne_nil _ hne] at hd
      exact hchars d hd (List.getLast?_eq_none_iff.mp hnil)

/-- What a group leaves out in front of its first token is read like the rest of the group. -/
theorem lexemes_tightLead {token : Token} (hc : token.chars.head? = some c) (hspace : c ≠ ' ')
    (text : List Char) :
    lexemes ((tightLead token ++ (token.chars ++ text)).dropWhile (· == ' ')) =
      star token ++ lexemes (token.chars ++ text) := by
  have hhead : (token.chars ++ text).head? = some c := by
    rw [List.head?_append, hc]
    rfl
  -- The text does not start with a space, so none is dropped.
  have hdrop : (token.chars ++ text).dropWhile (· == ' ') = token.chars ++ text := by
    cases htext : token.chars ++ text with
    | nil => rfl
    | cons d ds =>
      rw [htext] at hhead
      obtain rfl := Option.some.inj hhead
      exact List.dropWhile_cons_of_neg (by simpa using hspace)
  cases token with
  | pseudoClass name argument =>
    -- A pseudo-class is read behind `*`, at whose end its colon stands.
    have hstop : (Token.tag "*").StopsAt
        ((Token.pseudoClass name argument).chars ++ text).head? := by
      cases argument with
      | _ => exact fun d hd => Option.some.inj hd ▸ rfl
    exact lexemes_chars (.tag "*") ⟨nofun, fun d hd => List.mem_singleton.mp hd ▸ rfl⟩ hstop
  | _ => exact congrArg lexemes hdrop

/-- The text of the parts is read as the parts again, inside a group and at the start of one. -/
theorem lexemes_spell (h : ReadAs cs parts) :
    lexemes (spell tightLead false parts) = starred false parts ∧
      (cs.head? ≠ some ' ' →
        lexemes ((spell tightLead true parts).dropWhile (· == ' ')) = starred true parts) := by
  induction h with
  | nil =>
    rw [spell, spell, starred, starred]
    exact ⟨lexemes.eq_1, fun _ => lexemes.eq_1⟩
  | @comma cs parts hrest ih =>
    -- The spaces behind a comma are gone, so no group starts with one.
    have hspace : (cs.dropWhile (· == ' ')).head? ≠ some ' ' := fun hspace =>
      absurd (head?_dropWhile cs ' ' hspace) (by decide)
    have hcomma : lexemes (',' :: spell tightLead true parts) = .comma :: starred true parts := by
      rw [lexemes_of_lexeme (lexeme_comma _), ih.2 hspace]
    exact ⟨hcomma, fun _ => hcomma⟩
  | @token c cs rest token parts hneat hscan hsuffix hrest ih =>
    -- What is written next starts as what was read next, so the token ends where it ended.
    have hstop : token.StopsAt (spell tightLead false parts).head? := by
      rw [head?_spell hrest]
      exact hscan.stopsAt
    have htoken : lexemes (token.chars ++ spell tightLead false parts) =
        .token token :: starred false parts := by
      rw [lexemes_chars token hscan.readable hstop, ih.1]
    refine ⟨htoken, fun hspace => ?_⟩
    have hc : c ≠ ' ' := fun hc => hspace (congrArg some hc)
    rw [spell, if_pos rfl, lexemes_tightLead hscan.head? hc, htoken]
    rfl

/-! ## Groups with what they leave out -/

/-- A group with what it leaves out at its start, apart from the combinator. -/
def starGroup : Group → Group
  | .pseudoClass name argument :: tokens => .tag "*" :: .pseudoClass name argument :: tokens
  | group => group

/-- A group is completed with what it leaves out only once. -/
theorem complete_starGroup (group : Group) : (starGroup group).complete = group.complete := by
  cases group with
  | nil => rfl
  | cons token tokens =>
    cases token with
    | _ => rfl

/-- What is written out at the start of the groups makes no difference once they are complete. -/
theorem split_starred (parts : List Lexeme) (start : Bool) {group : Group} {groups : List Group}
    (h : split parts = group :: groups) :
    ∃ others, split (starred start parts) = (if start then starGroup group else group) :: others ∧
      others.map Group.complete = groups.map Group.complete := by
  induction parts generalizing start group groups with
  | nil =>
    obtain ⟨rfl, rfl⟩ := List.cons.inj h
    cases start with
    | _ => exact ⟨[], rfl, rfl⟩
  | cons part parts ih =>
    obtain ⟨second, rest, hsplit⟩ := exists_split parts
    cases part with
    | token token =>
      rw [split_token hsplit] at h
      obtain ⟨rfl, rfl⟩ := List.cons.inj h
      obtain ⟨others, hothers, hcomplete⟩ := ih false hsplit
      have htoken : split (.token token :: starred false parts) = (token :: second) :: others :=
        split_token hothers
      refine ⟨others, ?_, hcomplete⟩
      rw [starred]
      cases start with
      | false => exact htoken
      | true =>
        -- The star is one more token of the same group.
        cases token with
        | pseudoClass name argument => exact split_token htoken
        | _ => exact htoken
    | comma =>
      rw [split, hsplit] at h
      obtain ⟨rfl, rfl⟩ := List.cons.inj h
      obtain ⟨others, hothers, hcomplete⟩ := ih true hsplit
      refine ⟨starGroup second :: others, ?_, ?_⟩
      · rw [starred, split, hothers]
        cases start with
        | _ => rfl
      · rw [List.map_cons, List.map_cons, complete_starGroup, hcomplete]
    | skipped c =>
      rw [split] at h
      exact ih start h

/-! ## Reading a selector again -/

/-- Of a neat text the spaces are all that is trimmed. -/
theorem trimStart_of_neat (h : Neat cs) : Text.trimStart cs = cs.dropWhile (· == ' ') := by
  unfold Text.trimStart
  induction cs with
  | nil => rfl
  | cons c cs ih =>
    have hcs := ih (h.of_isInfix (List.suffix_cons c cs).isInfix)
    by_cases hc : Text.isBlank c = true
    · obtain rfl := h.spaces c List.mem_cons_self hc
      exact hcs
    · have hspace : c ≠ ' ' := by
        rintro rfl
        exact hc rfl
      rw [List.dropWhile_cons_of_neg hc, List.dropWhile_cons_of_neg (by simpa using hspace)]

/-- The text of a selector loses nothing but the spaces at its start and those in front of tight
combinators. -/
theorem normalize_spell (h : ReadAs cs parts) (hhead : cs.head? ≠ some ' ')
    (hlast : ∀ d ∈ cs.getLast?, Text.isBlank d = false) :
    normalize (spell lead true parts) = (spell tightLead true parts).dropWhile (· == ' ') := by
  have hneat : Neat (spell tightLead true parts) := neat_spell h fun _ => hhead
  unfold normalize
  rw [squeeze_spell, squeeze_of_neat hneat, Text.trim, trimStart_of_neat hneat]
  refine Text.trimEnd_eq_self fun d hd => getLast?_spell h true hlast d ?_
  exact mem_getLast?_of_suffix (List.dropWhile_suffix _) hd

/-- **A selector is read back from its text**, provided that every character of the text that it was
read from belongs to one of its parts and every bracket is closed there. -/
theorem parse_render (text : String) (h : Legible (normalize text.toList)) :
    parse (parse text).render = parse text := by
  have hread := readAs_lexemes h (neat_normalize text.toList)
  have hhead : (normalize text.toList).head? ≠ some ' ' := fun hspace =>
    absurd (Text.head?_trim _ ' ' hspace) (by decide)
  -- The text has been trimmed, so it has no blank at either end.
  have hlast : ∀ d ∈ (normalize text.toList).getLast?, Text.isBlank d = false :=
    Text.getLast?_trimEnd _
  -- The parts are read again, together with what the groups have left out.
  have hagain : lexemes (normalize (parse text).render.toList) =
      starred true (lexemes (normalize text.toList)) := by
    unfold parse
    rw [toList_render, normalize_spell hread hhead hlast]
    exact (lexemes_spell hread).2 hhead
  obtain ⟨group, groups, hsplit⟩ := exists_split (lexemes (normalize text.toList))
  obtain ⟨others, hstarred, hcomplete⟩ := split_starred _ true hsplit
  have hgroups : (split (starred true (lexemes (normalize text.toList)))).map Group.complete =
      (split (lexemes (normalize text.toList))).map Group.complete := by
    rw [hstarred, hsplit, List.map_cons, List.map_cons, if_pos rfl, complete_starGroup, hcomplete]
  rw [parse, hagain, hgroups]
  rfl

/-- For one, a selector with nested parentheses, a quoted value and white space to spare. -/
theorem parse_render_quoted :
    Legible (normalize ":not( :is(b) )  >  [lang ^= 'en'],p".toList) ∧
      parse (parse ":not( :is(b) )  >  [lang ^= 'en'],p").render =
        parse ":not( :is(b) )  >  [lang ^= 'en'],p" := by
  have hnormal : normalize ":not( :is(b) )  >  [lang ^= 'en'],p".toList =
      ":not( :is(b) )>[lang ^= 'en'],p".toList := by
    decide +kernel
  have hlegible : Legible (normalize ":not( :is(b) )  >  [lang ^= 'en'],p".toList) := by
    rw [hnormal]
    -- The second parenthesis that closes is the one that ends the argument.
    refine .cons (fun _ => nofun) ⟨nofun, fun _ tail htail => ⟨" :is(b) )".toList, ?_, ?_⟩⟩ ?_
    · cases htail
      decide +kernel
    · decide +kernel
    refine .cons (fun _ => nofun) ⟨nofun, nofun⟩ ?_
    refine .cons (fun _ => nofun)
      ⟨fun _ => ⟨"lang ^= 'en']".toList, by decide +kernel, by decide +kernel⟩, nofun⟩ ?_
    refine .cons (fun _ => nofun) ⟨nofun, nofun⟩ ?_
    refine .cons (fun _ => nofun) ⟨nofun, nofun⟩ ?_
    exact .nil
  exact ⟨hlegible, parse_render _ hlegible⟩

end TreeQuery.Selector
