import TreeQuery.Proofs.Spans
import TreeQuery.Selector.Parse

/-!
# Reading a selector place by place

A selector can be read by a cursor: the characters lie in an array, a number is the place of the
next one, and what has been read is a slice of the array between two places. `Cursor.read?` reads it
so, and checks every step that may be impossible. It gives nothing if a slice ends before it starts
or behind the array, if a text is cut inside a character, if a number falls below zero, or if the
cursor stands still, so that the reading would not end. `Cursor.read?_eq` says that it reads every
text as `Selector.parse` does, so none of this ever happens.

The text behind the cursor is what `Selector.lexemes` has still to read (`Cursor.At`).
-/

namespace TreeQuery.Cursor

open Selector

variable {σ α β : Type} {chars cs rest taken : List Char} {c : Char} {place start : Nat}

/-! ## Places -/

/-- The characters from one place up to another, if these are places in that order. -/
def slice? (chars : List Char) (start stop : Nat) : Option (List Char) :=
  if start ≤ stop ∧ stop ≤ chars.length then some ((chars.drop start).take (stop - start)) else none

/-- The place where a run of characters ends. What is accepted may depend on what the run has gone
through. -/
def advance (accept : σ → Char → Option σ) (chars : List Char) (state : σ) (place : Nat) : Nat :=
  match h : chars[place]?.bind (accept state) with
  | none => place
  | some state => advance accept chars state (place + 1)
termination_by chars.length - place
decreasing_by
  obtain ⟨c, hc, -⟩ := Option.bind_eq_some_iff.mp h
  have hplace := (List.getElem?_eq_some_iff.mp hc).1
  omega

/-- The run of characters at a place, and the place behind it. -/
def run? (accept : σ → Char → Option σ) (state : σ) (chars : List Char) (place : Nat) :
    Option (List Char × Nat) :=
  let stop := advance accept chars state place
  (slice? chars place stop).map (·, stop)

/-- What stands between a bracket and the mark that closes it, from the place `start` on, and the
place behind the mark. The cursor stands at `place`, and `depth` brackets are open there. -/
def span? (opening closing : Char) (chars : List Char) (start depth place : Nat) :
    Option (List Char × Nat) :=
  match h : chars[place]? with
  | none => (slice? chars (min start place) place).map (·, place)
  | some c =>
    if c = opening then span? opening closing chars start (depth + 1) (place + 1)
    else if c = closing then
      match depth with
      | 0 => none
      | 1 => (slice? chars start place).map (·, place + 1)
      | depth + 2 => span? opening closing chars start (depth + 1) (place + 1)
    else span? opening closing chars start depth (place + 1)
termination_by chars.length - place
decreasing_by
  all_goals
    have hplace := (List.getElem?_eq_some_iff.mp h).1
    omega

/-! ## Bytes -/

/-- The number of bytes that a text takes up. -/
def byteLength : List Char → Nat
  | [] => 0
  | c :: cs => c.utf8Size + byteLength cs

/-- A text cut behind a number of bytes, if there are as many and no character is cut. -/
def cutAtByte? : Nat → List Char → Option (List Char × List Char)
  | 0, cs => some ([], cs)
  | _ + 1, [] => none
  | size + 1, c :: cs =>
    if c.utf8Size ≤ size + 1 then
      (cutAtByte? (size + 1 - c.utf8Size) cs).map fun parts => (c :: parts.1, parts.2)
    else none

/-! ## Parts -/

/-- A test of single characters. -/
def single (p : Char → Bool) (_ : Unit) (c : Char) : Option Unit :=
  if p c then some () else none

/-- What is accepted behind `+` or `~`: spaces as long as nothing else has been read, which the
state says, and then the characters of the test. -/
def sibling (leading : Bool) (c : Char) : Option Bool :=
  if c = ' ' then if leading then some true else none
  else if isSiblingChar c then some false
  else none

/-- The test that stands between brackets. The marker at the end of the name is cut off by its
byte. -/
def attributeTest? (span : List Char) : Option AttributeTest :=
  match Text.splitOnce '=' span with
  | none => some ⟨String.ofList (Text.trim span), .present, ""⟩
  | some (front, back) =>
    let front := Text.trim front
    let value := String.ofList (Text.unquote (Text.trim back))
    match front.getLast?.bind Comparison.ofMarker? with
    | none => some ⟨String.ofList front, .equal, value⟩
    | some comparison =>
      match byteLength front with
      | 0 => none
      | size + 1 => do
        let (name, _) ← cutAtByte? size front
        return ⟨String.ofList (Text.trimEnd name), comparison, value⟩

/-- The part that starts at a place with the character `c`, and the place behind the part. -/
def part? (chars : List Char) (c : Char) (place : Nat) : Option (Lexeme × Nat) :=
  if isTagChar c then do
    let (name, stop) ← run? (single isTagChar) () chars place
    return (.token (.tag (String.ofList name)), stop)
  else
    match c with
    | '#' => do
      let (name, stop) ← run? (single isIdChar) () chars (place + 1)
      return (.token (.id (String.ofList name)), stop)
    | '.' => do
      let (run, stop) ← run? (single isClassChar) () chars place
      -- The point is cut off by its byte.
      let (_, names) ← cutAtByte? 1 run
      return (.token (.classes (String.ofList names)), stop)
    | '[' => do
      let (span, stop) ← span? '[' ']' chars (place + 1) 0 place
      let test ← attributeTest? span
      return (.token (.attr test), stop)
    | ':' => do
      let (name, stop) ← run? (single isIdChar) () chars (place + 1)
      if chars[stop]? = some '(' then
        let (argument, stop) ← span? '(' ')' chars (stop + 1) 0 stop
        return (.token (.pseudoClass (String.ofList name) (some (String.ofList argument))), stop)
      else return (.token (.pseudoClass (String.ofList name) none), stop)
    | '+' => do
      let (sub, stop) ← run? sibling true chars (place + 1)
      return (.token (.adjacent (String.ofList (Text.trim sub))), stop)
    | '~' => do
      let (sub, stop) ← run? sibling true chars (place + 1)
      return (.token (.general (String.ofList (Text.trim sub))), stop)
    | '>' => return (.token .child, place + 1)
    | ' ' => return (.token .descendant, place + 1)
    | ',' => do
      let (_, stop) ← run? (single (· == ' ')) () chars (place + 1)
      return (.comma, stop)
    | c => return (.skipped c, place + 1)

/-- The parts from a place on, if the cursor moves on with each of them. -/
def parts? (chars : List Char) (place : Nat) : Option (List Lexeme) :=
  match chars[place]? with
  | none => some []
  | some c =>
    match part? chars c place with
    | none => none
    | some (part, stop) =>
      if _h : place < stop ∧ stop ≤ chars.length then (parts? chars stop).map (part :: ·) else none
termination_by chars.length - place
decreasing_by
  omega

/-- The selector that a text writes. -/
def read? (text : String) : Option Selector :=
  (parts? (normalize text.toList) 0).map fun parts => ⟨(split parts).map Group.complete⟩

/-! ## The text behind the cursor -/

/-- The text `rest` stands at a place. -/
def At (chars : List Char) (place : Nat) (rest : List Char) : Prop :=
  ∃ front, front.length = place ∧ front ++ rest = chars

/-- A reading gives a value, and leaves the cursor where the text `rest` stands. -/
def Reads (chars : List Char) (reading? : Option (α × Nat)) (value : α) (rest : List Char) : Prop :=
  ∃ stop, reading? = some (value, stop) ∧ At chars stop rest

/-- What is read on from where a reading leaves the cursor. -/
theorem Reads.bind {reading? : Option (α × Nat)} {next? : α × Nat → Option (β × Nat)} {a : α}
    {b : β} {middle : List Char} (h : Reads chars reading? a middle)
    (hnext : ∀ stop, At chars stop middle → Reads chars (next? (a, stop)) b rest) :
    Reads chars (reading? >>= next?) b rest := by
  obtain ⟨stop, hreading, hstop⟩ := h
  rw [hreading]
  exact hnext stop hstop

/-- The whole text stands at its first place. -/
theorem at_zero (chars : List Char) : At chars 0 chars :=
  ⟨[], rfl, rfl⟩

/-- Behind a part of the text stands the rest. -/
theorem At.append (h : At chars place (taken ++ rest)) : At chars (place + taken.length) rest := by
  obtain ⟨front, rfl, rfl⟩ := h
  exact ⟨front ++ taken, List.length_append, List.append_assoc front taken rest⟩

/-- Behind one character stands the rest. -/
theorem At.tail (h : At chars place (c :: cs)) : At chars (place + 1) cs :=
  At.append (show At chars place ([c] ++ cs) from h)

/-- The character at a place is the first of the text that stands there. -/
theorem At.getElem? (h : At chars place rest) : chars[place]? = rest.head? := by
  obtain ⟨front, rfl, rfl⟩ := h
  rw [List.getElem?_append_right (Nat.le_refl _), Nat.sub_self, List.head?_eq_getElem?]

/-- The place and the length of the text that stands there add up. -/
theorem At.length_eq (h : At chars place rest) : place + rest.length = chars.length := by
  obtain ⟨front, rfl, rfl⟩ := h
  exact List.length_append.symm

/-- A slice from a place on is the part of the text that has been gone through. -/
theorem At.slice? (h : At chars start (taken ++ rest)) :
    slice? chars start (start + taken.length) = some taken := by
  obtain ⟨front, rfl, rfl⟩ := h
  unfold Cursor.slice?
  rw [if_pos ⟨Nat.le_add_right _ _, by simp⟩, List.drop_left, Nat.add_sub_cancel_left,
    List.take_left]

/-! ## Runs -/

/-- The run at the front of a text, and what stands behind it. -/
def accepted (accept : σ → Char → Option σ) : σ → List Char → List Char × List Char
  | _, [] => ([], [])
  | state, c :: cs =>
    match accept state c with
    | none => ([], c :: cs)
    | some state => (c :: (accepted accept state cs).1, (accepted accept state cs).2)

section Accepted

variable {accept : σ → Char → Option σ} {state state' : σ}

/-- A run ends in front of a character that is not accepted. -/
theorem accepted_stop (h : accept state c = none) :
    accepted accept state (c :: cs) = ([], c :: cs) := by
  rw [accepted, h]

/-- A character that is accepted belongs to the run. -/
theorem accepted_step (h : accept state c = some state') :
    accepted accept state (c :: cs) =
      (c :: (accepted accept state' cs).1, (accepted accept state' cs).2) := by
  rw [accepted, h]

variable (accept)

/-- A run is cut off the front of a text. -/
theorem accepted_append (state : σ) (cs : List Char) :
    (accepted accept state cs).1 ++ (accepted accept state cs).2 = cs := by
  induction cs generalizing state with
  | nil => rfl
  | cons c cs ih =>
    cases haccept : accept state c with
    | none => rw [accepted_stop haccept, List.nil_append]
    | some state' => rw [accepted_step haccept, List.cons_append, ih]

/-- The cursor goes on by the length of the run. -/
theorem advance_eq (state : σ) (h : At chars place cs) :
    advance accept chars state place = place + (accepted accept state cs).1.length := by
  induction cs generalizing state place with
  -- At the end of the text there is nothing to accept.
  | nil =>
    have hnext : chars[place]?.bind (accept state) = none := by rw [h.getElem?]; rfl
    rw [advance, hnext]
    rfl
  | cons c cs ih =>
    have hnext : chars[place]?.bind (accept state) = accept state c := by rw [h.getElem?]; rfl
    rw [advance, hnext]
    -- The loop stops at a character that is not accepted, and goes past one that is.
    cases haccept : accept state c with
    | none =>
      rw [accepted_stop haccept]
      rfl
    | some state' =>
      dsimp only
      rw [accepted_step haccept, ih state' h.tail, List.length_cons, Nat.add_right_comm,
        Nat.add_assoc]

/-- The run at a place is the one at the front of the text that stands there. -/
theorem reads_run (state : σ) (h : At chars place cs) :
    Reads chars (run? accept state chars place) (accepted accept state cs).1
      (accepted accept state cs).2 := by
  have hstop := advance_eq accept state h
  rw [← accepted_append accept state cs] at h
  refine ⟨_, ?_, h.append⟩
  unfold run?
  dsimp only
  rw [hstop, h.slice?]
  rfl

end Accepted

/-- A test of single characters accepts the longest run that passes it. -/
theorem accepted_single (p : Char → Bool) (cs : List Char) :
    accepted (single p) () cs = (cs.takeWhile p, cs.dropWhile p) := by
  induction cs with
  | nil => rfl
  | cons c cs ih =>
    cases hc : p c with
    | false =>
      have hstop : single p () c = none := by rw [single, hc]; rfl
      rw [accepted_stop hstop, List.takeWhile_cons_of_neg (by simp [hc]),
        List.dropWhile_cons_of_neg (by simp [hc])]
    | true =>
      have hstep : single p () c = some () := by rw [single, hc]; rfl
      rw [accepted_step hstep, ih, List.takeWhile_cons_of_pos hc, List.dropWhile_cons_of_pos hc]

/-- The run of characters that pass a test. -/
theorem reads_single (p : Char → Bool) (h : At chars place cs) :
    Reads chars (run? (single p) () chars place) (cs.takeWhile p) (cs.dropWhile p) := by
  have hrun := reads_run (single p) () h
  rwa [accepted_single] at hrun

/-- Where no space is accepted, the characters of the test behind `+` or `~` are. -/
theorem accepted_sibling_test (cs : List Char) (leading : Bool)
    (h : leading = true → cs.head? ≠ some ' ') :
    accepted sibling leading cs = (cs.takeWhile isSiblingChar, cs.dropWhile isSiblingChar) := by
  induction cs generalizing leading with
  | nil => rfl
  | cons c cs ih =>
    cases hc : isSiblingChar c with
    -- The run ends here: a space would be accepted only in front, where none stands.
    | false =>
      have hstop : sibling leading c = none := by
        unfold sibling
        rw [hc, if_neg Bool.false_ne_true]
        split_ifs with hspace hleading
        · exact absurd (congrArg some hspace) (h hleading)
        · rfl
        · rfl
      rw [accepted_stop hstop, List.takeWhile_cons_of_neg (by simp [hc]),
        List.dropWhile_cons_of_neg (by simp [hc])]
    -- No space is accepted behind a character of the test.
    | true =>
      have hspace : c ≠ ' ' := fun heq => absurd (heq ▸ hc) (by decide)
      have hstep : sibling leading c = some false := by
        unfold sibling
        rw [if_neg hspace, if_pos hc]
      rw [accepted_step hstep, ih false fun hleading => absurd hleading Bool.false_ne_true,
        List.takeWhile_cons_of_pos hc, List.dropWhile_cons_of_pos hc]

/-- Behind `+` or `~` spaces are accepted, and then the characters of the test. -/
theorem accepted_sibling (cs : List Char) :
    accepted sibling true cs = (cs.takeWhile (· == ' ') ++
      (cs.dropWhile (· == ' ')).takeWhile isSiblingChar,
        (cs.dropWhile (· == ' ')).dropWhile isSiblingChar) := by
  induction cs with
  | nil => rfl
  | cons c cs ih =>
    -- A space is accepted as long as no other character has been. The first other one starts the
    -- test.
    by_cases hspace : c = ' '
    · subst hspace
      have hstep : sibling true ' ' = some true := rfl
      rw [accepted_step hstep, ih]
      rfl
    · have htest := accepted_sibling_test (c :: cs) true fun _ hhead =>
        hspace (Option.some.inj hhead)
      have hc : ¬(c == ' ') = true := fun heq => hspace (beq_iff_eq.mp heq)
      rw [htest, List.takeWhile_cons_of_neg (p := (· == ' ')) hc,
        List.dropWhile_cons_of_neg (p := (· == ' ')) hc, List.nil_append]

/-- The test behind `+` or `~` is what is left of its run once it is trimmed. -/
theorem reads_sibling (h : At chars place cs) :
    ∃ run, Reads chars (run? sibling true chars place) run (siblingTest cs).2 ∧
      String.ofList (Text.trim run) = (siblingTest cs).1 := by
  have hrun := reads_run sibling true h
  rw [accepted_sibling] at hrun
  refine ⟨_, hrun, congrArg String.ofList ?_⟩
  -- The run is spaces and then the test, which has no blank in it.
  have hblank : ∀ c ∈ (cs.dropWhile (· == ' ')).takeWhile isSiblingChar, Text.isBlank c = false :=
    fun c hc => (plain_of_isSiblingChar (List.mem_takeWhile_imp hc)).1
  have hspaces : ∀ c ∈ cs.takeWhile (· == ' '), Text.isBlank c = true := by
    intro c hc
    have heq : c = ' ' := beq_iff_eq.mp (List.mem_takeWhile_imp (p := (· == ' ')) hc)
    rw [heq]
    rfl
  -- So trimming the start takes the spaces, and trimming the end takes nothing.
  have hstart : Text.trimStart (cs.takeWhile (· == ' ') ++
      (cs.dropWhile (· == ' ')).takeWhile isSiblingChar) =
        (cs.dropWhile (· == ' ')).takeWhile isSiblingChar := by
    unfold Text.trimStart
    rw [List.dropWhile_append_of_pos hspaces]
    exact Text.trimStart_eq_self fun c hc => hblank c (List.mem_of_head? hc)
  rw [Text.trim, hstart]
  exact Text.trimEnd_eq_self fun c hc => hblank c (List.mem_of_getLast? hc)

/-! ## Spans -/

/-- Inside a bracket, the slice from its start on grows up to the mark that closes it. The bracket
itself is open as well, so one more is counted than are open inside it. -/
theorem reads_span (opening closing : Char) (depth : Nat) (h : At chars start (taken ++ cs)) :
    Reads chars (span? opening closing chars start (depth + 1) (start + taken.length))
      (taken ++ (balanced opening closing depth cs).1) (balanced opening closing depth cs).2 := by
  induction cs generalizing depth taken with
  | nil =>
    have hend := h.append
    rw [span?.eq_def]
    split
    -- The bracket is never closed, and the slice reaches to the end.
    · rw [Nat.min_eq_left (Nat.le_add_right _ _), h.slice?]
      exact ⟨_, by rw [balanced, List.append_nil]; rfl, hend⟩
    · next c hc => rw [hend.getElem?] at hc; cases hc
  | cons c cs ih =>
    have hplace := h.append
    -- The slice with one character more.
    have hmore : At chars start ((taken ++ [c]) ++ cs) := by
      rwa [List.append_assoc, List.singleton_append]
    have hgrow : ∀ depth, Reads chars
        (span? opening closing chars start (depth + 1) (start + taken.length + 1))
        (taken ++ c :: (balanced opening closing depth cs).1)
        (balanced opening closing depth cs).2 := by
      intro depth
      have hread := ih depth hmore
      rwa [List.length_append, List.length_singleton, ← Nat.add_assoc, List.append_assoc,
        List.singleton_append] at hread
    rw [span?.eq_def]
    split
    · next hc => rw [hplace.getElem?] at hc; cases hc
    · next d hd =>
      obtain rfl : c = d := Option.some.inj (hplace.getElem?.symm.trans hd)
      rw [balanced]
      split_ifs with hopening hclosing hdepth
      · exact hgrow (depth + 1)
      · subst hdepth
        rw [h.slice?]
        exact ⟨_, by rw [List.append_nil]; rfl, hplace.tail⟩
      · obtain ⟨depth, rfl⟩ := Nat.exists_eq_succ_of_ne_zero hdepth
        exact hgrow depth
      · exact hgrow depth

/-- A span that starts at its opening bracket. -/
theorem reads_span_opening (opening closing : Char) (h : At chars place (opening :: cs)) :
    Reads chars (span? opening closing chars (place + 1) 0 place)
      (balanced opening closing 0 cs).1 (balanced opening closing 0 cs).2 := by
  rw [span?.eq_def]
  split
  · next hc => rw [h.getElem?] at hc; cases hc
  · next c hc =>
    obtain rfl : opening = c := Option.some.inj (h.getElem?.symm.trans hc)
    rw [if_pos rfl]
    exact reads_span opening closing 0 (show At chars (place + 1) ([] ++ cs) from h.tail)

/-! ## Cuts -/

/-- The bytes of two texts add up. -/
theorem byteLength_append (front back : List Char) :
    byteLength (front ++ back) = byteLength front + byteLength back := by
  induction front with
  | nil => exact (Nat.zero_add _).symm
  | cons c front ih => rw [List.cons_append, byteLength, byteLength, ih, Nat.add_assoc]

/-- A text may be cut behind any of its characters. -/
theorem cutAtByte?_append (front back : List Char) :
    cutAtByte? (byteLength front) (front ++ back) = some (front, back) := by
  induction front with
  | nil => cases back with
    | _ => rfl
  | cons c front ih =>
    have hsize : byteLength (c :: front) = c.utf8Size + byteLength front := rfl
    obtain ⟨size, hlength⟩ : ∃ size, byteLength (c :: front) = size + 1 :=
      Nat.exists_eq_succ_of_ne_zero (by have := Char.utf8Size_pos c; omega)
    rw [hlength, List.cons_append, cutAtByte?, ← hlength, if_pos (by omega), hsize,
      Nat.add_sub_cancel_left, ih]
    rfl

/-- The markers are characters of one byte. -/
theorem utf8Size_marker {marker : Char} {comparison : Comparison}
    (h : Comparison.ofMarker? marker = some comparison) : marker.utf8Size = 1 := by
  unfold Comparison.ofMarker? at h
  split at h
  · rfl
  · rfl
  · rfl
  · rfl
  · rfl
  · cases h

/-- The test between brackets is read without a cut inside a character. -/
theorem attributeTest?_eq (span : List Char) : attributeTest? span = some (attributeTest span) := by
  unfold attributeTest? attributeTest
  cases Text.splitOnce '=' span with
  | none => rfl
  | some parts =>
    obtain ⟨front, back⟩ := parts
    dsimp only
    generalize Text.trim front = front
    -- The marker is the last character of what stands in front of the sign.
    rcases List.eq_nil_or_concat front with rfl | ⟨name, marker, rfl⟩
    · rfl
    · rw [List.concat_eq_append, List.getLast?_concat, List.dropLast_concat, Option.bind_some]
      cases hmarker : Comparison.ofMarker? marker with
      | none => rfl
      | some comparison =>
        -- A marker takes one byte, so the cut one byte from the end is at a boundary.
        have hsize : byteLength (name ++ [marker]) = byteLength name + 1 := by
          rw [byteLength_append, byteLength, byteLength, utf8Size_marker hmarker]
        dsimp only
        rw [hsize]
        dsimp only
        rw [cutAtByte?_append]
        rfl

/-! ## The whole text -/

/-- The pseudo-class behind a colon. -/
theorem reads_pseudoClass (h : At chars place (':' :: cs)) :
    Reads chars (part? chars ':' place) (.token (pseudoClass cs).1) (pseudoClass cs).2 := by
  refine (reads_single isIdChar h.tail).bind fun stop hstop => ?_
  dsimp only
  have hnext := hstop.getElem?
  unfold pseudoClass
  by_cases hopen : chars[stop]? = some '('
  · obtain ⟨tail, hdrop⟩ := List.head?_eq_some_iff.mp (hnext.symm.trans hopen)
    rw [hdrop] at hstop
    rw [if_pos hopen, hdrop]
    exact (reads_span_opening '(' ')' hstop).bind fun last hlast => ⟨last, rfl, hlast⟩
  · rw [if_neg hopen]
    split
    · next tail hdrop => exact absurd (hnext.trans (hdrop ▸ rfl)) hopen
    · exact ⟨stop, rfl, hstop⟩

/-- The part at a place is the one that starts the text there. -/
theorem reads_part (h : At chars place (c :: cs)) :
    Reads chars (part? chars c place) (lexeme c cs).1 (lexeme c cs).2 := by
  have hbehind := h.tail
  unfold lexeme
  split
  · next htag =>
    have hrun := reads_single isTagChar h
    rw [List.takeWhile_cons_of_pos htag, List.dropWhile_cons_of_pos htag] at hrun
    unfold part?
    rw [if_pos htag]
    exact hrun.bind fun stop hstop => ⟨stop, rfl, hstop⟩
  · next htag =>
    split
    · exact (reads_single isIdChar hbehind).bind fun stop hstop => ⟨stop, rfl, hstop⟩
    · refine (reads_single isClassChar h).bind fun stop hstop => ⟨stop, ?_, hstop⟩
      -- The point takes up one byte.
      have hcut := cutAtByte?_append ['.'] (cs.takeWhile isClassChar)
      exact congrArg (· >>= _) hcut
    · refine (reads_span_opening '[' ']' h).bind fun stop hstop => ⟨stop, ?_, hstop⟩
      exact congrArg (· >>= _) (attributeTest?_eq _)
    · exact reads_pseudoClass h
    · obtain ⟨run, hrun, hsub⟩ := reads_sibling hbehind
      refine hrun.bind fun stop hstop => ⟨stop, ?_, hstop⟩
      exact congrArg (fun sub => some (Lexeme.token (.adjacent sub), stop)) hsub
    · obtain ⟨run, hrun, hsub⟩ := reads_sibling hbehind
      refine hrun.bind fun stop hstop => ⟨stop, ?_, hstop⟩
      exact congrArg (fun sub => some (Lexeme.token (.general sub), stop)) hsub
    · exact ⟨_, rfl, hbehind⟩
    · exact ⟨_, rfl, hbehind⟩
    · exact (reads_single (· == ' ') hbehind).bind fun stop hstop => ⟨stop, rfl, hstop⟩
    · refine ⟨_, ?_, hbehind⟩
      unfold part?
      rw [if_neg htag]
      split
      all_goals first
        | contradiction
        | rfl

/-- From a place on the cursor reads the parts of the text that stands there. -/
theorem parts?_eq (h : At chars place cs) : parts? chars place = some (lexemes cs) := by
  induction cs using lexemes.induct generalizing place with
  | case1 =>
    rw [parts?, h.getElem?, lexemes]
    rfl
  | case2 c cs ih =>
    obtain ⟨stop, hpart, hstop⟩ := reads_part h
    -- The part takes at least the character that it starts with.
    have hmove : place < stop ∧ stop ≤ chars.length := by
      have hbefore := h.length_eq
      have hbehind := hstop.length_eq
      have hlength := length_lexeme_le c cs
      rw [List.length_cons] at hbefore
      omega
    rw [parts?, h.getElem?, lexemes]
    dsimp only [List.head?_cons]
    rw [hpart]
    dsimp only
    rw [dif_pos hmove, ih hstop]
    rfl

/-- Every text is read by the cursor, as it is read otherwise. -/
theorem read?_eq (text : String) : read? text = some (parse text) := by
  unfold read? parse
  rw [parts?_eq (at_zero _)]
  rfl

end TreeQuery.Cursor
