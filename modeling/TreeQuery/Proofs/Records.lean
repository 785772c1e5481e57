import Mathlib.Data.List.Induction
import TreeQuery.Query.Warning

/-!
# Records, and which warnings are given

What has been asked for is a record, and what an answer should be is said by what has been recorded
since an entry of it (`Since`). A warning should be given exactly if it has not been asked for since
the warnings were last forgotten (`Asked`). It is remembered by its line, which puts the mark `] `
between the component and the message, and so does not tell where the component ends. Two different
warnings have one line if the mark stands in one component and in the other message as well
(`Shifted`, `line_eq_line_iff`), and then only the first of them is given (`giveOnce_runAll`). No
component that a search names has the mark, so the warnings of searches are all given once
(`giveOnce_warning`).
-/

namespace TreeQuery

/-! ## Records -/

section Since

variable {α : Type} {record : List α} {start entry : α} {p : List α → Prop}

/-- The record has an entry, and what has been recorded since is as `p` says. -/
def Since (record : List α) (start : α) (p : List α → Prop) : Prop :=
  ∃ before since, record = before ++ start :: since ∧ p since

/-- One more entry is the one looked for, or it is recorded since. -/
theorem since_concat :
    Since (record ++ [entry]) start p ↔
      start = entry ∧ p [] ∨ Since record start fun since => p (since ++ [entry]) := by
  constructor
  · rintro ⟨before, since, hrecord, hp⟩
    -- Nothing has been recorded since, so the entry is the last one.
    rcases List.eq_nil_or_concat since with rfl | ⟨front, last, rfl⟩
    · obtain ⟨-, hlast⟩ := List.append_inj' hrecord rfl
      exact .inl ⟨(List.singleton_inj.mp hlast).symm, hp⟩
    -- Something has, and its last entry is the one that was added.
    · rw [List.concat_eq_append] at hrecord hp
      rw [← List.cons_append, ← List.append_assoc] at hrecord
      obtain ⟨hfront, hlast⟩ := List.append_inj' hrecord rfl
      rw [← List.singleton_inj.mp hlast] at hp
      exact .inr ⟨before, front, hfront, hp⟩
  · rintro (⟨rfl, hp⟩ | ⟨before, since, rfl, hp⟩)
    · exact ⟨record, [], rfl, hp⟩
    · exact ⟨before, since ++ [entry], by rw [List.append_assoc, List.cons_append], hp⟩

/-- The entry looked for is in the record. -/
theorem Since.mem (h : Since record start p) : start ∈ record := by
  obtain ⟨before, since, rfl, -⟩ := h
  exact List.mem_append_right _ List.mem_cons_self

end Since

namespace Warnings

variable {component message component' message' text : String} {calls : List Call}

/-! ## Lines -/

/-- The line of the first warning is the line of the second, with the mark at a later place: the
second component goes on behind the first mark, and the first message has the second mark in it. -/
def Shifted (component message component' message' : String) : Prop :=
  ∃ middle, component' = component ++ "] " ++ middle ∧ message = middle ++ "] " ++ message'

/-- A line is the component in brackets and then the message. -/
theorem toList_line (component message : String) :
    (line component message).toList =
      '[' :: (component.toList ++ ']' :: ' ' :: message.toList) := by
  simp [line]

/-- If a text with a mark in front starts with another text and the mark, there is no other text or
it starts with the mark as well. -/
theorem mark_cases {more rest rest' : List Char}
    (h : ']' :: ' ' :: rest = more ++ ']' :: ' ' :: rest') :
    more = [] ∧ rest = rest' ∨
      ∃ middle, more = ']' :: ' ' :: middle ∧ rest = middle ++ ']' :: ' ' :: rest' := by
  match more with
  | [] =>
    rw [List.nil_append, List.cons.injEq, List.cons.injEq] at h
    exact .inl ⟨rfl, h.2.2⟩
  -- A single character would leave the space where the bracket of the mark is.
  | [_] =>
    rw [List.singleton_append, List.cons.injEq, List.cons.injEq] at h
    exact absurd h.2.1 (by decide)
  | _ :: _ :: middle =>
    rw [List.cons_append, List.cons_append, List.cons.injEq, List.cons.injEq] at h
    obtain ⟨rfl, rfl, hrest⟩ := h
    exact .inr ⟨middle, rfl, hrest⟩

/-- A later mark shifts the line. -/
theorem shifted_iff :
    Shifted component message component' message' ↔
      ∃ middle, component'.toList = component.toList ++ ']' :: ' ' :: middle ∧
        message.toList = middle ++ ']' :: ' ' :: message'.toList := by
  unfold Shifted
  constructor
  · rintro ⟨middle, rfl, rfl⟩
    exact ⟨middle.toList, by simp, by simp⟩
  · rintro ⟨middle, hcomponent, hmessage⟩
    refine ⟨String.ofList middle, ?_, ?_⟩
    · rw [← String.toList_inj, hcomponent]
      simp
    · rw [← String.toList_inj, hmessage]
      simp

/-- The mark stands in a component. -/
def Marked (component : String) : Prop :=
  ∃ front back, component = front ++ "] " ++ back

/-- The bracket of the mark stands in a component that has the mark. -/
theorem Marked.mem (h : Marked component) : ']' ∈ component.toList := by
  obtain ⟨front, back, rfl⟩ := h
  simp

/-- What is shifted against a warning has the mark in its component. -/
theorem Shifted.marked (h : Shifted component message component' message') : Marked component' := by
  obtain ⟨middle, hcomponent, -⟩ := h
  exact ⟨component, middle, hcomponent⟩

/-- Two warnings have one line if they are the same or one is shifted against the other. -/
theorem line_eq_line_iff :
    line component message = line component' message' ↔
      component = component' ∧ message = message' ∨
        Shifted component message component' message' ∨
          Shifted component' message' component message := by
  rw [← String.toList_inj, toList_line, toList_line, List.cons_inj_right, shifted_iff, shifted_iff,
    ← String.toList_inj, ← String.toList_inj]
  constructor
  · intro h
    -- One of the two components goes on where the other ends.
    rcases List.append_eq_append_iff.mp h with ⟨more, hmore, hrest⟩ | ⟨more, hmore, hrest⟩
    · rcases mark_cases hrest with ⟨rfl, hmessage⟩ | ⟨middle, rfl, hmessage⟩
      · exact .inl ⟨by rw [hmore, List.append_nil], hmessage⟩
      · exact .inr (.inl ⟨middle, hmore, hmessage⟩)
    · rcases mark_cases hrest with ⟨rfl, hmessage⟩ | ⟨middle, rfl, hmessage⟩
      · exact .inl ⟨by rw [hmore, List.append_nil], hmessage.symm⟩
      · exact .inr (.inr ⟨middle, hmore, hmessage⟩)
  · rintro (⟨hcomponent, hmessage⟩ | ⟨middle, hcomponent, hmessage⟩ |
      ⟨middle, hcomponent, hmessage⟩)
    · rw [hcomponent, hmessage]
    · rw [hcomponent, hmessage]
      simp
    · rw [hcomponent, hmessage]
      simp

/-- Without the mark in a component a line tells where the component ends. -/
theorem line_eq_line_iff_of_not_marked (h : ¬ Marked component) (h' : ¬ Marked component') :
    line component message = line component' message' ↔
      component = component' ∧ message = message' := by
  rw [line_eq_line_iff]
  refine or_iff_left ?_
  rintro (hshifted | hshifted)
  · exact h' hshifted.marked
  · exact h hshifted.marked

/-! ## Runs -/

/-- What can be asked of the warnings. -/
inductive Call where
  /-- To give a warning, unless it has been given. -/
  | give (component message : String)
  /-- To forget which warnings have been given. -/
  | clear

/-- The warnings given after a call. -/
def Call.run (warnings : Warnings) : Call → Warnings
  | give component message => (warnings.giveOnce component message).2
  | clear => .none

/-- The warnings given after calls, one after the other, none being given before. -/
def runAll (calls : List Call) : Warnings :=
  calls.foldl Call.run .none

/-- A warning has been asked for, and the warnings have not been forgotten since. -/
def Asked (calls : List Call) (component message : String) : Prop :=
  Since calls (.give component message) fun since => .clear ∉ since

/-- The line of a warning is among those given once the warning has been asked for. -/
theorem mem_given_giveOnce (warnings : Warnings) :
    text ∈ (warnings.giveOnce component message).2.given ↔
      text = line component message ∨ text ∈ warnings.given := by
  unfold giveOnce
  split_ifs with h
  · refine (or_iff_right_of_imp ?_).symm
    rintro rfl
    exact List.contains_iff_mem.mp h
  · exact List.mem_cons

/-- A warning is given exactly if its line is not among those given. -/
theorem giveOnce_eq_true (warnings : Warnings) :
    (warnings.giveOnce component message).1 = true ↔
      line component message ∉ warnings.given := by
  unfold giveOnce
  split_ifs with h
  · exact iff_of_false nofun (not_not_intro (List.contains_iff_mem.mp h))
  · exact iff_of_true rfl (mt List.contains_iff_mem.mpr h)

/-- A warning has been asked for if the last call asks for it, or if it was before and the last call
does not forget it. -/
theorem asked_concat {call : Call} :
    Asked (calls ++ [call]) component message ↔
      call = .give component message ∨ call ≠ .clear ∧ Asked calls component message := by
  unfold Asked
  rw [since_concat]
  refine or_congr ⟨fun h => h.1.symm, fun h => ⟨h.symm, List.not_mem_nil⟩⟩ ?_
  unfold Since
  simp only [List.mem_append, List.mem_singleton, not_or]
  constructor
  · rintro ⟨before, since, hcalls, hsince, hcall⟩
    exact ⟨Ne.symm hcall, before, since, hcalls, hsince⟩
  · rintro ⟨hcall, before, since, hcalls, hsince⟩
    exact ⟨before, since, hcalls, hsince, Ne.symm hcall⟩

/-- The lines given are those of the warnings asked for since the warnings were forgotten. -/
theorem mem_given_runAll (calls : List Call) :
    text ∈ (runAll calls).given ↔
      ∃ component message, Asked calls component message ∧ text = line component message := by
  -- By induction over the calls from the last one back, which alone changes what the others have
  -- left.
  induction calls using List.reverseRecOn with
  | nil =>
    refine iff_of_false List.not_mem_nil ?_
    rintro ⟨component, message, hasked, -⟩
    exact List.not_mem_nil hasked.mem
  | append_singleton calls call ih =>
    unfold runAll at ih ⊢
    rw [List.foldl_append, List.foldl_cons, List.foldl_nil]
    simp only [asked_concat]
    cases call with
    -- Forgetting leaves no line and no warning asked for.
    | clear => simp [Call.run, Warnings.none]
    -- A warning that is asked for adds its own line.
    | give component message =>
      rw [Call.run, mem_given_giveOnce, ih]
      simp [or_and_right, exists_or]

/-- A warning is given exactly if none of its line has been asked for. -/
theorem giveOnce_runAll (calls : List Call) (component message : String) :
    ((runAll calls).giveOnce component message).1 = true ↔
      ∀ component' message', Asked calls component' message' →
        line component message ≠ line component' message' := by
  rw [giveOnce_eq_true, mem_given_runAll]
  simp only [not_exists, not_and, Ne]

/-- Without the mark in a component every warning has a line of its own. -/
theorem giveOnce_of_not_marked (hcomponent : ¬ Marked component)
    (hcalls : ∀ component' message', Asked calls component' message' → ¬ Marked component') :
    ((runAll calls).giveOnce component message).1 = true ↔ ¬ Asked calls component message := by
  rw [giveOnce_runAll]
  constructor
  · exact fun h hasked => h component message hasked rfl
  · intro hnew component' message' hasked hline
    obtain ⟨rfl, rfl⟩ :=
      (line_eq_line_iff_of_not_marked hcomponent (hcalls component' message' hasked)).mp hline
    exact hnew hasked

/-- The warnings of searches are given once: no component of theirs has the mark. -/
theorem giveOnce_warning (warning : Warning)
    (hcalls : ∀ component message, Asked calls component message →
      ∃ earlier : Warning, component = earlier.component) :
    ((runAll calls).giveOnce warning.component warning.message).1 = true ↔
      ¬ Asked calls warning.component warning.message := by
  have hmark : ∀ warning : Warning, ¬ Marked warning.component := by
    intro warning hmarked
    cases warning with
    | _ => exact absurd hmarked.mem (by simp [Warning.component])
  refine giveOnce_of_not_marked (hmark warning) fun component message hasked => ?_
  obtain ⟨earlier, rfl⟩ := hcalls component message hasked
  exact hmark earlier

/-- **Which warnings are given.** After calls in any order a warning is given exactly if it has not
been asked for since the warnings were last forgotten, and neither has one that is shifted against
it. So every warning is given once where no component has the mark. -/
theorem given_once_iff (calls : List Call) (component message : String) :
    (((runAll calls).giveOnce component message).1 = true ↔
      ¬ Asked calls component message ∧
        ∀ component' message', Asked calls component' message' →
          ¬ Shifted component' message' component message ∧
            ¬ Shifted component message component' message') ∧
      (¬ Marked component →
        (∀ component' message', Asked calls component' message' → ¬ Marked component') →
          (((runAll calls).giveOnce component message).1 = true ↔
            ¬ Asked calls component message)) := by
  refine ⟨?_, giveOnce_of_not_marked⟩
  rw [giveOnce_runAll]
  simp only [Ne, line_eq_line_iff, not_or]
  constructor
  -- A line that is new is neither the line of the warning itself nor one that it is shifted
  -- against.
  · intro h
    refine ⟨fun hasked => (h component message hasked).1 ⟨rfl, rfl⟩, fun c m hasked => ?_⟩
    exact (h c m hasked).2.symm
  -- The other way round, a line in the record is that of a warning asked for.
  · rintro ⟨hnew, h⟩ c m hasked
    refine ⟨?_, (h c m hasked).symm⟩
    rintro ⟨rfl, rfl⟩
    exact hnew hasked

/-- For one, a warning that was given, then forgotten with another one asked for since. -/
theorem given_once_iff_forgotten :
    let calls : List Call := [.give "query" "x", .clear, .give "query" "y"]
    ¬ Marked "query" ∧ (∀ component message, Asked calls component message → ¬ Marked component) ∧
      ¬ Asked calls "query" "x" ∧ ((runAll calls).giveOnce "query" "x").1 = true := by
  intro calls
  have hmarked : ¬ Marked "query" := fun h => absurd h.mem (by decide)
  have hcalls : ∀ component message, Asked calls component message → ¬ Marked component := by
    intro component message hasked
    -- The calls that have not been forgotten ask for two messages of one component, without the
    -- mark.
    have hmem := hasked.mem
    simp only [calls, List.mem_cons, Call.give.injEq, List.not_mem_nil, reduceCtorEq, false_or,
      or_false] at hmem
    rcases hmem with ⟨rfl, -⟩ | ⟨rfl, -⟩
    · exact hmarked
    · exact hmarked
  have hgiven : ((runAll calls).giveOnce "query" "x").1 = true := by decide
  exact ⟨hmarked, hcalls, ((given_once_iff calls "query" "x").2 hmarked hcalls).mp hgiven, hgiven⟩

/-- A warning that has never been asked for is not given, since its line has been. -/
theorem shifted_not_given :
    ¬ Asked [.give "a" "b] c"] "a] b" "c" ∧
      ((runAll [.give "a" "b] c"]).giveOnce "a] b" "c").1 = false := by
  refine ⟨fun hasked => ?_, by decide⟩
  have hmem := hasked.mem
  simp at hmem

end Warnings

end TreeQuery
