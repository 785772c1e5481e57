import TreeQuery.Proofs.Cursor

/-!
# Where a span ends

A span is read from its opening mark on, with a count of the marks that are open. It ends where as
many marks have closed as have opened, for the first time (`Shortest`), or at the end of the text if
that never happens. The count belongs to the loop; what it comes to is said by the numbers of the
two marks in the texts at the front (`Evened`). Within a span whose marks belong to each other the
count is the depth that is left (`Nested.of_append`), and so it never falls below zero.
-/

namespace TreeQuery.Selector

variable {opening closing : Char} {cs rest inner front back text : List Char} {depth : Nat}

/-! ## Counting marks -/

/-- A text with something in it stands at the front, and in it as many marks close as open. -/
def Evened (opening closing : Char) (text front : List Char) : Prop :=
  front ≠ [] ∧ front <+: text ∧ front.count closing = front.count opening

/-- A text is evened, and no shorter one is. -/
def Shortest (opening closing : Char) (text front : List Char) : Prop :=
  Evened opening closing text front ∧
    ∀ other, Evened opening closing text other → front.length ≤ other.length

/-- Where marks belong to each other, no more have closed in front of a place than have opened, and
behind it those close that are still open. -/
theorem Nested.of_append (hne : opening ≠ closing)
    (h : Nested opening closing depth (front ++ back)) :
    front.count closing ≤ depth + front.count opening ∧
      Nested opening closing (depth + front.count opening - front.count closing) back := by
  induction front generalizing depth with
  | nil => exact ⟨Nat.zero_le _, h⟩
  | cons c front ih =>
    rw [List.cons_append, Nested] at h
    split_ifs at h with hopening hclosing
    -- An opening mark counts for one more in front of the place, and the depth has grown by it.
    · obtain ⟨hle, hback⟩ := ih h
      subst hopening
      rw [List.count_cons_self, List.count_cons_of_ne hne, ← Nat.add_assoc, Nat.add_right_comm]
      exact ⟨hle, hback⟩
    -- A closing mark takes from the depth what it adds to those that have closed.
    · obtain ⟨hle, hback⟩ := ih h.2
      subst hclosing
      rw [List.count_cons_self, List.count_cons_of_ne hopening]
      have hdepth : depth - 1 + front.count opening - front.count c =
          depth + front.count opening - (front.count c + 1) := by omega
      exact ⟨by omega, hdepth ▸ hback⟩
    · rw [List.count_cons_of_ne hopening, List.count_cons_of_ne hclosing]
      exact ih h

/-- Where marks belong to each other, all that have opened have closed in the end. -/
theorem Nested.count_eq (hne : opening ≠ closing) (h : Nested opening closing depth inner) :
    inner.count closing = depth + inner.count opening := by
  rw [← List.append_nil inner] at h
  obtain ⟨hle, hend⟩ := h.of_append hne
  have hzero : depth + inner.count opening - inner.count closing = 0 := hend
  omega

/-- An opening mark is evened with a text behind it in which one mark more closes than opens. -/
theorem evened_cons (hne : opening ≠ closing) :
    Evened opening closing (opening :: cs) (opening :: front) ↔
      front <+: cs ∧ front.count closing = front.count opening + 1 := by
  unfold Evened
  rw [List.cons_prefix_cons, List.count_cons_self, List.count_cons_of_ne hne]
  simp

/-- A text whose marks belong to each other is the shortest that is evened, with its own marks
around it. -/
theorem Nested.shortest (hne : opening ≠ closing) (h : Nested opening closing 0 inner)
    (rest : List Char) :
    Shortest opening closing (opening :: (inner ++ closing :: rest))
      (opening :: (inner ++ [closing])) := by
  have hcount := h.count_eq hne
  refine ⟨(evened_cons hne).mpr ⟨⟨rest, by simp⟩, ?_⟩, ?_⟩
  · rw [List.count_append, List.count_append, List.count_singleton_self,
      List.count_cons_of_ne hne.symm, List.count_nil]
    omega
  · intro other hother
    by_contra hshorter
    cases other with
    | nil => exact hother.1 rfl
    | cons c front =>
      obtain ⟨rfl, -⟩ := List.cons_prefix_cons.mp hother.2.1
      obtain ⟨hfront, hone⟩ := (evened_cons hne).mp hother
      -- A shorter text ends in front of the closing mark.
      have hlength : front.length ≤ inner.length := by
        simp only [List.length_cons, List.length_append, List.length_nil] at hshorter
        omega
      obtain ⟨back, rfl⟩ := List.prefix_of_prefix_length_le hfront (List.prefix_append _ _) hlength
      have hle := (h.of_append hne).1
      omega

/-! ## Spans -/

/-- What closes behind a character closes in front of it as well, at the depth that the character
leads from. -/
theorem Closes.cons {c : Char} {depth' : Nat} (h : Closes opening closing depth' cs)
    (hdepth : depth + [c].count opening ≤ depth' + [c].count closing) :
    Closes opening closing depth (c :: cs) := by
  obtain ⟨front, hfront, hcount⟩ := h
  refine ⟨c :: front, List.cons_prefix_cons.mpr ⟨rfl, hfront⟩, ?_⟩
  rw [← List.singleton_append, List.count_append, List.count_append]
  omega

/-- A span that is never closed reaches to the end of the text. -/
theorem balanced_of_not_closes (hne : opening ≠ closing) (h : ¬ Closes opening closing depth cs) :
    balanced opening closing depth cs = (cs, []) := by
  induction cs generalizing depth with
  | nil => rfl
  | cons c cs ih =>
    rw [balanced]
    split_ifs with hopening hclosing hdepth
    · rw [ih fun hcs => h (hcs.cons (by simp [hopening, hne]))]
    · refine absurd ⟨[c], ⟨cs, rfl⟩, ?_⟩ h
      simp [hdepth, hclosing, hne.symm]
    · have hopens : [c].count opening = 0 := by simp [hopening]
      have hcloses : [c].count closing = 1 := by simp [hclosing]
      rw [ih fun hcs => h (hcs.cons (by omega))]
    · rw [ih fun hcs => h (hcs.cons (by simp [hopening, hclosing]))]

/-- Behind an opening mark the span is closed exactly if a text with the mark is evened. -/
theorem closes_iff (hne : opening ≠ closing) :
    Closes opening closing 0 cs ↔ ∃ front, Evened opening closing (opening :: cs) front := by
  constructor
  · intro h
    obtain ⟨inner, rest, rfl, hinner⟩ := exists_nested hne 0 h
    exact ⟨_, (hinner.shortest hne rest).1⟩
  · rintro ⟨front, hfront⟩
    cases front with
    | nil => exact absurd rfl hfront.1
    | cons c front =>
      obtain ⟨rfl, -⟩ := List.cons_prefix_cons.mp hfront.2.1
      obtain ⟨htail, hcount⟩ := (evened_cons hne).mp hfront
      exact ⟨front, htail, by omega⟩

/-- If a text with the opening mark is evened, the span and its marks are the shortest one. -/
theorem balanced_of_evened (hne : opening ≠ closing)
    (h : ∃ front, Evened opening closing (opening :: cs) front) :
    ∃ inner rest, cs = inner ++ closing :: rest ∧
      balanced opening closing 0 cs = (inner, rest) ∧
        Shortest opening closing (opening :: cs) (opening :: (inner ++ [closing])) := by
  obtain ⟨inner, rest, rfl, hinner⟩ := exists_nested hne 0 ((closes_iff hne).mpr h)
  exact ⟨inner, rest, rfl, balanced_append hne hinner rest, hinner.shortest hne rest⟩

end TreeQuery.Selector

namespace TreeQuery.Cursor

open Selector

variable {opening closing : Char} {chars rest : List Char} {place : Nat}

/-- At a place of a text, the rest of the text is what stands there. -/
theorem At.drop_eq (h : At chars place rest) : chars.drop place = rest := by
  obtain ⟨front, rfl, rfl⟩ := h
  exact List.drop_left

/-- At the place of a character stands the text that starts with it. -/
theorem at_of_getElem? {c : Char} (h : chars[place]? = some c) :
    At chars place (c :: chars.drop (place + 1)) := by
  obtain ⟨hplace, rfl⟩ := List.getElem?_eq_some_iff.mp h
  refine ⟨chars.take place, List.length_take_of_le (Nat.le_of_lt hplace), ?_⟩
  rw [← List.drop_eq_getElem_cons hplace, List.take_append_drop]

/-- **Spans are read exactly.** From the place of an opening mark on, the loop never counts below
zero and takes its slice within the text. If some text there is evened, what it goes through is the
shortest such text, and it gives this text without its two marks; otherwise it goes through all that
is left and gives all that follows the opening mark. -/
theorem span_exact (hne : opening ≠ closing) (hopen : chars[place]? = some opening) :
    ∃ inner stop,
      span? opening closing chars (place + 1) 0 place = some (inner, stop) ∧
        balanced opening closing 0 (chars.drop (place + 1)) = (inner, chars.drop stop) ∧
        ((∃ front, Evened opening closing (chars.drop place) front) →
          Shortest opening closing (chars.drop place) (opening :: (inner ++ [closing])) ∧
            stop = place + (opening :: (inner ++ [closing])).length) ∧
        ((¬ ∃ front, Evened opening closing (chars.drop place) front) →
          inner = chars.drop (place + 1) ∧ stop = chars.length) := by
  have hplace := at_of_getElem? hopen
  have hlength := hplace.length_eq
  rw [hplace.drop_eq]
  generalize chars.drop (place + 1) = cs at hplace hlength ⊢
  -- The loop by position reads what the recursion over the text reads, and stays in the text.
  obtain ⟨stop, hspan, hstop⟩ := reads_span_opening opening closing hplace
  have hlength' := hstop.length_eq
  refine ⟨_, stop, hspan, Prod.ext rfl hstop.drop_eq.symm, fun heven => ?_, fun heven => ?_⟩
  -- Some text is evened, so the recursion ends at its closing mark.
  · obtain ⟨inner, rest, rfl, hbalanced, hshortest⟩ := balanced_of_evened hne heven
    rw [hbalanced] at hlength' ⊢
    refine ⟨hshortest, ?_⟩
    simp only [List.length_cons, List.length_append, List.length_nil] at hlength hlength' ⊢
    omega
  -- No text is evened, so the recursion goes through to the end.
  · have hbalanced := balanced_of_not_closes hne (mt (closes_iff hne).mp heven)
    rw [hbalanced] at hlength' ⊢
    exact ⟨rfl, hlength'⟩

/-- For one, a span with another one in it and a mark behind it that is never closed. -/
theorem span_exact_nested :
    let chars := "a(b(c)d)e(".toList
    '(' ≠ ')' ∧ chars[1]? = some '(' ∧
      span? '(' ')' chars 2 0 1 = some ("b(c)d".toList, 8) ∧
        Shortest '(' ')' (chars.drop 1) "(b(c)d)".toList := by
  intro chars
  have hne : '(' ≠ ')' := by decide
  have hopen : chars[1]? = some '(' := by decide
  obtain ⟨inner, stop, hspan, hbalanced, hclosed, -⟩ := span_exact hne hopen
  have hinner : "b(c)d".toList = inner := congrArg Prod.fst hbalanced
  obtain ⟨hshortest, hstop⟩ := hclosed ⟨"(b(c)d)".toList, by decide, by decide, by decide⟩
  subst hinner
  exact ⟨hne, hopen, by rw [hspan, hstop]; rfl, hshortest⟩

end TreeQuery.Cursor
