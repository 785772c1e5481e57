import TreeQuery.Document
import TreeQuery.Proofs.Reachable

/-!
# Literal text and lower case

`:contains` looks for the lower-case form of its argument in the lower-case form of a node's text.
All characters but one have a lower-case form of their own, so that a part of a text has the same
form as where it stands alone. A capital sigma becomes the final form where it ends a word, and what
surrounds a part can change where words end. `Text.Settled` says of a part that this cannot happen:
of every sigma in it the part itself decides whether it ends a word. A settled part occurs in lower
case wherever it occurs, and another one occurs in a text, longer by one letter, where it does not.
So `:contains` keeps all nodes whose text has its argument literally in it exactly if the argument
is settled (`Query.keeps_literal_iff`).
-/

namespace TreeQuery

namespace Text

variable {before after cs text : List Char} {c l : Char}

/-! ## A part of a text -/

/-- The lower-case form of one character, where `before` holds the characters in front of it from
the nearest to the farthest and `after` those behind it. -/
def lowerAt (before : List Char) (c : Char) (after : List Char) : List Char :=
  if c == 'Σ' then [if startsCased before && !startsCased after then 'ς' else 'σ'] else lowerChar c

/-- The lower-case form of a part of a text between the characters `before`, from the nearest to the
farthest, and `after`. -/
def lowerBetween (before : List Char) : List Char → List Char → List Char
  | [], _ => []
  | c :: cs, after => lowerAt before c (cs ++ after) ++ lowerBetween (c :: before) cs after

/-- A text is put into lower case part by part. -/
theorem lowerAfter_append (before cs after : List Char) :
    lowerAfter before (cs ++ after) =
      lowerBetween before cs after ++ lowerAfter (cs.reverse ++ before) after := by
  induction cs generalizing before with
  | nil => rfl
  | cons c cs ih =>
    have hrest := ih (c :: before)
    rw [List.cons_append, lowerAfter, hrest, lowerBetween, List.append_assoc, List.reverse_cons,
      List.append_assoc]
    rfl

/-- A text is a part of itself. -/
theorem lowercase_eq (cs : List Char) : lowercase cs = lowerBetween [] cs [] := by
  have happend := lowerAfter_append [] cs []
  rwa [List.append_nil, lowerAfter, List.append_nil] at happend

/-- The form of a character is as long in any surroundings. -/
theorem length_lowerAt (before before' : List Char) (c : Char) (after after' : List Char) :
    (lowerAt before c after).length = (lowerAt before' c after').length := by
  unfold lowerAt
  split_ifs
  · rfl
  · rfl
  · rfl
  · rfl
  · rfl

/-- The form of a part is as long in any surroundings. -/
theorem length_lowerBetween (before before' cs after after' : List Char) :
    (lowerBetween before cs after).length = (lowerBetween before' cs after').length := by
  induction cs generalizing before before' with
  | nil => rfl
  | cons c cs ih =>
    rw [lowerBetween, lowerBetween, List.length_append, List.length_append,
      ih (c :: before) (c :: before'), length_lowerAt before before']

/-- The forms of a part in two surroundings are the same if they are so character by character. -/
theorem lowerBetween_cons_inj {before before' after after' : List Char} :
    lowerBetween before (c :: cs) after = lowerBetween before' (c :: cs) after' ↔
      lowerAt before c (cs ++ after) = lowerAt before' c (cs ++ after') ∧
        lowerBetween (c :: before) cs after = lowerBetween (c :: before') cs after' := by
  constructor
  · exact fun heq => List.append_inj heq (length_lowerAt ..)
  · rintro ⟨hhead, htail⟩
    rw [lowerBetween, lowerBetween, hhead, htail]

/-! ## Where words end -/

/-- The first character that case does not ignore. -/
def nearest? (cs : List Char) : Option Char :=
  (cs.dropWhile isCaseIgnorable).head?

/-- What stands farther away counts if case ignores all that is nearer. -/
theorem startsCased_append (cs after : List Char) :
    startsCased (cs ++ after) = ((nearest? cs).map isCased).getD (startsCased after) := by
  unfold nearest? startsCased
  rw [List.dropWhile_append]
  cases hdrop : cs.dropWhile isCaseIgnorable with
  | nil => simp
  | cons c cs => simp

/-- A text without any character but those that case ignores does not start with a cased one. -/
theorem startsCased_eq (cs : List Char) :
    startsCased cs = ((nearest? cs).map isCased).getD false := by
  have happend := startsCased_append cs []
  rwa [List.append_nil] at happend

/-- Whether the characters `before` and `after` decide if a sigma between them ends a word, whatever
stands farther away. -/
def settlesSigma (before after : List Char) : Bool :=
  match nearest? before, nearest? after with
  | some _, some _ => true
  | some b, none => !isCased b
  | none, some c => isCased c
  | none, none => false

/-- Of every sigma in a part of a text, with the characters `before` in front of that part from the
nearest to the farthest, these characters and the part itself decide whether it ends a word. -/
def SettledAfter (before : List Char) : List Char → Prop
  | [] => True
  | c :: cs => (c = 'Σ' → settlesSigma before cs = true) ∧ SettledAfter (c :: before) cs

/-- Of every sigma in a text the text itself decides whether it ends a word. -/
def Settled (cs : List Char) : Prop :=
  SettledAfter [] cs

/-- Whether a part of a text is settled can be computed, sigma by sigma. -/
instance decidableSettledAfter : (before cs : List Char) → Decidable (SettledAfter before cs)
  | _, [] => isTrue trivial
  | before, c :: cs =>
    have := decidableSettledAfter (c :: before) cs
    inferInstanceAs (Decidable ((c = 'Σ' → _) ∧ _))

/-- Whether a text is settled can be computed. -/
instance (cs : List Char) : Decidable (Settled cs) :=
  inferInstanceAs (Decidable (SettledAfter [] cs))

/-- A settled sigma has one form in all surroundings. -/
theorem lowerAt_of_settlesSigma (h : settlesSigma before after = true) (front back : List Char) :
    lowerAt (before ++ front) 'Σ' (after ++ back) = lowerAt before 'Σ' after := by
  unfold settlesSigma at h
  unfold lowerAt
  rw [startsCased_append, startsCased_append, startsCased_eq before, startsCased_eq after]
  -- In each case what is nearest decides, and what stands farther away does not count.
  cases hbefore : nearest? before with
  | some b =>
    cases hafter : nearest? after with
    | some c => rfl
    | none =>
      rw [hbefore, hafter] at h
      have hcased : isCased b = false := by simpa using h
      simp [hcased]
  | none =>
    cases hafter : nearest? after with
    | some c =>
      rw [hbefore, hafter] at h
      have hcased : isCased c = true := h
      simp [hcased]
    | none =>
      -- With nothing on either side that case does not ignore, the sigma would not be settled.
      rw [hbefore, hafter] at h
      cases h

/-- A settled part has one form in all surroundings. -/
theorem SettledAfter.lowerBetween_eq (h : SettledAfter before cs) (front back : List Char) :
    lowerBetween (before ++ front) cs back = lowerBetween before cs [] := by
  induction cs generalizing before with
  | nil => rfl
  | cons c cs ih =>
    obtain ⟨hc, hcs⟩ := h
    refine lowerBetween_cons_inj.mpr ⟨?_, ih hcs⟩
    rw [List.append_nil]
    by_cases hsigma : c = 'Σ'
    · subst hsigma
      exact lowerAt_of_settlesSigma (hc rfl) front back
    · unfold lowerAt
      rw [if_neg (by simpa using hsigma), if_neg (by simpa using hsigma)]

/-- What occurs in a text and is settled occurs there in lower case as well. -/
theorem Settled.isInfix_lowercase (h : Settled cs) (hin : cs <:+: text) :
    lowercase cs <:+: lowercase text := by
  obtain ⟨front, back, rfl⟩ := hin
  -- The form of the part stands between those of what is in front of it and behind it.
  have hform : lowerBetween front.reverse cs back = lowerBetween [] cs [] :=
    SettledAfter.lowerBetween_eq h front.reverse back
  refine ⟨lowerBetween [] front (cs ++ back), lowerAfter (cs.reverse ++ front.reverse) back, ?_⟩
  rw [lowercase_eq cs, ← hform, List.append_assoc, List.append_assoc]
  unfold lowercase
  rw [lowerAfter_append, lowerAfter_append, List.append_nil]

/-! ## Surroundings that change a form -/

/-- A cased letter that is its own lower-case form. -/
structure Small (l : Char) : Prop where
  /-- Case does not ignore it. -/
  nearest : nearest? [l] = some l
  /-- It is cased. -/
  cased : isCased l = true
  /-- Lower case leaves it as it is. -/
  lowerAt : ∀ before after : List Char, lowerAt before l after = [l]

/-- Of two letters one is not a given character. -/
theorem exists_small (c? : Option Char) : ∃ l, Small l ∧ c? ≠ some l := by
  have hsmall : ∀ l, nearest? [l] = some l → isCased l = true → (l == 'Σ') = false →
      lowerChar l = [l] → Small l := by
    intro l hnearest hcased hsigma hlower
    refine ⟨hnearest, hcased, fun before after => ?_⟩
    unfold Text.lowerAt
    rw [hsigma, hlower]
    rfl
  have ha : Small 'a' := hsmall 'a' (by decide +kernel) (by decide +kernel) rfl rfl
  have hb : Small 'b' := hsmall 'b' (by decide +kernel) (by decide +kernel) rfl rfl
  by_cases hc : c? = some 'a'
  · subst hc
    exact ⟨'b', hb, by decide⟩
  · exact ⟨'a', ha, hc⟩

/-- A sigma that is not settled changes its form if any letter is put behind what is around it, or
if any letter is put in front. -/
theorem lowerAt_ne (h : settlesSigma before after = false) :
    (∀ l, Small l → lowerAt before 'Σ' (after ++ [l]) ≠ lowerAt before 'Σ' after) ∨
      ∀ l, Small l → lowerAt (before ++ [l]) 'Σ' after ≠ lowerAt before 'Σ' after := by
  have hstart : ∀ l, Small l → startsCased [l] = true := by
    intro l hl
    rw [startsCased_eq, hl.nearest]
    exact hl.cased
  unfold settlesSigma at h
  unfold lowerAt
  simp only [startsCased_append, startsCased_eq before, startsCased_eq after]
  cases hbefore : nearest? before with
  | some b =>
    cases hafter : nearest? after with
    | some c =>
      rw [hbefore, hafter] at h
      cases h
    | none =>
      -- A cased character stands in front, and nothing behind that counts.
      rw [hbefore, hafter] at h
      have hcased : isCased b = true := by simpa using h
      exact .inl fun l hl => by simp [hcased, hstart l hl]
  | none =>
    cases hafter : nearest? after with
    | some c =>
      -- A character that is not cased stands behind, and nothing in front that counts.
      rw [hbefore, hafter] at h
      have hcased : isCased c = false := h
      exact .inr fun l hl => by simp [hcased, hstart l hl]
    | none => exact .inr fun l hl => by simp [hstart l hl]

/-- So does a part that is not settled. -/
theorem lowerBetween_ne (h : ¬ SettledAfter before cs) :
    (∀ l, Small l → lowerBetween before cs [l] ≠ lowerBetween before cs []) ∨
      ∀ l, Small l → lowerBetween (before ++ [l]) cs [] ≠ lowerBetween before cs [] := by
  induction cs generalizing before with
  | nil => exact absurd trivial h
  | cons c cs ih =>
    simp only [Ne, lowerBetween_cons_inj, List.append_nil]
    rw [SettledAfter, not_and_or, Classical.not_imp] at h
    obtain ⟨rfl, hsigma⟩ | hrest := h
    · exact (lowerAt_ne (Bool.eq_false_iff.mpr hsigma)).imp (fun hne l hl heq => hne l hl heq.1)
        fun hne l hl heq => hne l hl heq.1
    · exact (ih hrest).imp (fun hne l hl heq => hne l hl heq.2)
        fun hne l hl heq => hne l hl heq.2

/-- What occurs in a text that is longer by a last character stands in front of that character, or
ends with it. -/
theorem eq_of_isInfix_append {first second : List Char} (hlength : first.length = second.length)
    (hlast : first.getLast? ≠ some l) (h : first <:+: second ++ [l]) : first = second := by
  obtain ⟨front, back, heq⟩ := h
  have hsum := congrArg List.length heq
  simp only [List.length_append, List.length_singleton] at hsum
  cases back with
  -- Nothing stands behind it, so it ends with the last character, unless it is empty.
  | nil =>
    rw [List.append_nil] at heq
    by_cases hnil : first = []
    · subst hnil
      exact (List.length_eq_zero_iff.mp hlength.symm).symm
    · have hgetLast := congrArg List.getLast? heq
      rw [List.getLast?_append_of_ne_nil _ hnil, List.getLast?_concat] at hgetLast
      exact absurd hgetLast hlast
  -- Something stands behind it, so by their lengths nothing stands in front of it.
  | cons d back =>
    obtain rfl : front = [] := List.length_eq_zero_iff.mp (by rw [List.length_cons] at hsum; omega)
    exact (List.append_inj heq hlength).1

/-- What occurs in a text that is longer by a first character stands behind that character, or
starts with it. -/
theorem eq_of_isInfix_cons {first second : List Char} (hlength : first.length = second.length)
    (hhead : first.head? ≠ some l) (h : first <:+: l :: second) : first = second := by
  obtain ⟨front, back, heq⟩ := h
  have hsum := congrArg List.length heq
  simp only [List.length_append, List.length_cons] at hsum
  cases front with
  -- Nothing stands in front of it, so it starts with the first character, unless it is empty.
  | nil =>
    cases first with
    | nil => exact (List.length_eq_zero_iff.mp hlength.symm).symm
    | cons d first =>
      have hd := (List.cons.inj heq).1
      exact absurd (congrArg some hd) hhead
  -- The first character stands in front of it, so by their lengths nothing stands behind it.
  | cons d front =>
    rw [List.length_cons] at hsum
    obtain rfl : front = [] := List.length_eq_zero_iff.mp (by omega)
    obtain rfl : back = [] := List.length_eq_zero_iff.mp (by omega)
    rw [List.append_nil] at heq
    exact (List.cons.inj heq).2

/-- What is not settled occurs in a text without occurring there in lower case. -/
theorem exists_not_isInfix_lowercase (h : ¬ Settled cs) :
    ∃ text, cs <:+: text ∧ ¬ lowercase cs <:+: lowercase text := by
  obtain hback | hfront := lowerBetween_ne h
  · -- A letter that the form does not end with shows that it does not stand farther behind.
    obtain ⟨l, hl, hlast⟩ := exists_small (lowercase cs).getLast?
    refine ⟨cs ++ [l], (List.prefix_append cs [l]).isInfix, fun hin => hback l hl ?_⟩
    have htext : lowercase (cs ++ [l]) = lowerBetween [] cs [l] ++ [l] := by
      have hlower : lowerAfter (cs.reverse ++ []) [l] = [l] :=
        (List.append_nil _).trans (hl.lowerAt _ _)
      unfold lowercase
      rw [lowerAfter_append, hlower]
    rw [htext] at hin
    rw [← lowercase_eq]
    refine (eq_of_isInfix_append ?_ hlast hin).symm
    rw [lowercase_eq]
    exact length_lowerBetween ..
  -- A letter that the form does not start with shows that it does not stand farther in front.
  · obtain ⟨l, hl, hhead⟩ := exists_small (lowercase cs).head?
    refine ⟨l :: cs, (List.suffix_cons l cs).isInfix, fun hin => hfront l hl ?_⟩
    have htext : lowercase (l :: cs) = l :: lowerBetween [l] cs [] := by
      rw [lowercase_eq, lowerBetween, hl.lowerAt]
      rfl
    rw [htext] at hin
    rw [← lowercase_eq]
    refine (eq_of_isInfix_cons ?_ hhead hin).symm
    rw [lowercase_eq]
    exact length_lowerBetween ..

end Text

namespace Query

/-- `:contains` keeps the nodes of a list that have the argument in their text, without regard to
case, and leaves the session as it is. -/
theorem narrow_contains (settings : Settings) (argument : Option String) (nodes : List NodeId)
    (s : Session) :
    narrow settings "contains" argument nodes s =
      .ok (nodes.filter fun n =>
        PseudoClass.hasText s.tree n (PseudoClass.argumentOf argument)) s := by
  have hname : PseudoClass.ofName? "contains" = some .contains := by decide
  rw [narrow, hname]
  rfl

/-- A text has an argument in it, without regard to case, if the argument occurs in lower case. -/
theorem hasText_iff {t : Tree} {n : NodeId} {argument : List Char} :
    PseudoClass.hasText t n argument = true ↔
      Text.lowercase argument <:+: Text.lowercase (t.textContent n).toList := by
  unfold PseudoClass.hasText
  -- An empty argument, which is asked for separately, occurs everywhere.
  rw [Bool.or_eq_true, List.isEmpty_iff, Text.occursIn_iff, or_iff_right_of_imp]
  rintro rfl
  exact List.nil_infix

/-- A paragraph with a text in it. -/
def paragraphOf (text : String) : Tree :=
  Edit.run (.empty .html)
    [.createElement "p" [], .append .document 1, .createText text, .append 1 2]

/-- The text of such a paragraph is the text that it is made of. -/
theorem textContent_paragraphOf (text : String) : (paragraphOf text).textContent 1 = text := by
  have hjoin : (paragraphOf text).textContent 1 = String.join [text] := rfl
  rw [hjoin]
  simp

/-- `:contains` succeeds and leaves the session as it is, and it keeps every node whose text has the
argument literally in it exactly if the argument is settled. -/
theorem keeps_literal_iff (settings : Settings) (argument : Option String) :
    (∀ (s : Session) (nodes : List NodeId),
      ∃ kept, narrow settings "contains" argument nodes s = .ok kept s ∧
        ∀ n ∈ nodes, PseudoClass.argumentOf argument <:+: (s.tree.textContent n).toList →
          n ∈ kept) ↔
      Text.Settled (PseudoClass.argumentOf argument) := by
  constructor
  · -- A text without the argument in lower case makes a paragraph that is not kept.
    intro hkeeps
    by_contra hsettled
    obtain ⟨text, hin, hmissed⟩ := Text.exists_not_isInfix_lowercase hsettled
    obtain ⟨kept, hkept, hmem⟩ := hkeeps { tree := paragraphOf (String.ofList text) } [1]
    rw [narrow_contains] at hkept
    obtain ⟨rfl, -⟩ := EStateM.Result.ok.inj hkept
    have hone := hmem 1 (List.mem_singleton_self 1) (by
      rw [textContent_paragraphOf, String.toList_ofList]
      exact hin)
    have hlower := hasText_iff.mp (List.mem_filter.mp hone).2
    rw [textContent_paragraphOf, String.toList_ofList] at hlower
    exact hmissed hlower
  -- The argument occurs in lower case wherever it occurs.
  · intro hsettled s nodes
    refine ⟨_, narrow_contains settings argument nodes s, fun n hn hin => ?_⟩
    exact List.mem_filter.mpr ⟨hn, hasText_iff.mpr (hsettled.isInfix_lowercase hin)⟩

/-- For one, the only sigma of `ΜΟΥΣΑ` stands between two letters, so every text with that name in
it is kept. -/
theorem keeps_literal_iff_name :
    Text.Settled (PseudoClass.argumentOf (some "ΜΟΥΣΑ")) ∧
      ∀ (s : Session) (nodes : List NodeId),
        ∃ kept, narrow .default "contains" (some "ΜΟΥΣΑ") nodes s = .ok kept s ∧
          ∀ n ∈ nodes, PseudoClass.argumentOf (some "ΜΟΥΣΑ") <:+: (s.tree.textContent n).toList →
            n ∈ kept := by
  have hsettled : Text.Settled (PseudoClass.argumentOf (some "ΜΟΥΣΑ")) := by decide +kernel
  exact ⟨hsettled, (keeps_literal_iff .default (some "ΜΟΥΣΑ")).mpr hsettled⟩

/-- The argument `ΑΣ` is not settled: by itself it ends a word, and in `ΑΣΑ` it does not. So the
node with that text is not kept. -/
theorem literal_not_kept :
    PseudoClass.argumentOf (some "ΑΣ") <:+: ((paragraphOf "ΑΣΑ").textContent 1).toList ∧
      narrow .default "contains" (some "ΑΣ") [1] { tree := paragraphOf "ΑΣΑ" } =
        .ok [] { tree := paragraphOf "ΑΣΑ" } := by
  have hkept : ([1].filter fun n => PseudoClass.hasText (paragraphOf "ΑΣΑ") n
      (PseudoClass.argumentOf (some "ΑΣ"))) = [] := by
    decide +kernel
  have hin : "ΑΣ".toList <:+: "ΑΣΑ".toList := ⟨[], ['Α'], rfl⟩
  constructor
  · rw [textContent_paragraphOf]
    exact hin
  · rw [narrow_contains, hkept]

end Query

end TreeQuery
