import TreeQuery.Proofs.Pointwise
import TreeQuery.Proofs.Shape

/-!
# Nested selectors

`:not` and `:has` run the selector that their argument writes, which may hold such pseudo-classes
itself. Each of these selectors is shorter than the one that it stands in, whether or not its
brackets are closed, so the nesting ends. `Query.nesting_ends` says so in three ways: what a token
holds is shorter than the text of the whole selector, a chain of selectors that stand in each other
has at most half as many links as the first has characters, and a search that may not go deeper than
that finds and keeps what the search does.

The last is about searches that are cut off at some depth (`Query.cutOff`). They take the steps of
the search, but hand nested selectors, which are still text, to a runner; the search at one depth is
the runner of the next.
-/

namespace TreeQuery

/-! ## Text inside a token -/

namespace Token

/-- How many characters a token takes up that holds text of another selector, without the mark that
closes it. -/
def writtenLength : Token → Nat
  | pseudoClass name none => name.length + 1
  | pseudoClass name (some argument) => name.length + argument.length + 2
  | adjacent sub | general sub => sub.length + 1
  | _ => 0

/-- The text of the selector that a token runs. -/
def nested? : Token → Option String
  | pseudoClass name argument =>
    match PseudoClass.ofName? name with
    | some .not | some .has => some (String.ofList (PseudoClass.argumentOf argument))
    | _ => none
  | _ => none

/-- The text of the test that a token makes of siblings. -/
def test? : Token → Option String
  | adjacent sub | general sub => some sub
  | _ => none

end Token

namespace Selector

variable {c : Char} {cs : List Char} {text inner : String} {group : Group} {token : Token}

/-- A pseudo-class takes up no more than what stands behind its colon. -/
theorem writtenLength_pseudoClass_le (cs : List Char) :
    (pseudoClass cs).1.writtenLength ≤ cs.length + 1 := by
  have hlength : (cs.takeWhile isIdChar).length + (cs.dropWhile isIdChar).length = cs.length := by
    rw [← List.length_append, List.takeWhile_append_dropWhile]
  unfold pseudoClass
  split
  · next tail hdrop =>
    have hbalanced := length_balanced_le '(' ')' 0 tail
    rw [hdrop, List.length_cons] at hlength
    simp only [Token.writtenLength, String.length_ofList]
    omega
  · simp only [Token.writtenLength, String.length_ofList]
    omega

/-- The test of siblings takes up no more than what stands behind its combinator. -/
theorem length_sub_siblingTest_le (cs : List Char) : (siblingTest cs).1.length ≤ cs.length := by
  have hdrop := Text.length_dropWhile_le (· == ' ') cs
  have htake := (List.takeWhile_prefix (l := cs.dropWhile (· == ' ')) isSiblingChar).length_le
  unfold siblingTest
  rw [String.length_ofList]
  exact Nat.le_trans htake hdrop

/-- A token takes up no more than the text that it starts. -/
theorem Starts.writtenLength_le (h : Starts c cs token) :
    token.writtenLength ≤ cs.length + 1 := by
  cases h with
  | pseudoClass => exact writtenLength_pseudoClass_le cs
  | adjacent => exact Nat.succ_le_succ (length_sub_siblingTest_le cs)
  | general => exact Nat.succ_le_succ (length_sub_siblingTest_le cs)
  -- No other token holds text of a selector.
  | _ => exact Nat.zero_le _

/-- A token of a selector takes up no more than the text of the selector. -/
theorem writtenLength_le_of_mem (hgroup : group ∈ (parse text).groups) (htoken : token ∈ group) :
    token.writtenLength ≤ text.length := by
  refine forall_mem_parse (P := fun token => token.writtenLength ≤ text.length) (Nat.zero_le _)
    (Nat.zero_le _) (fun c rest token hsuffix hstarts => ?_) group hgroup token htoken
  have hwritten := hstarts.writtenLength_le
  have hrest := hsuffix.length_le
  have hnormal := length_normalize_le text.toList
  rw [String.length_toList] at hnormal
  rw [List.length_cons] at hrest
  omega

/-- Without blanks and quotes around it, an argument is no longer than it is written. -/
theorem length_argumentOf_le (argument : String) :
    (PseudoClass.argumentOf (some argument)).length ≤ argument.length := by
  have hquote := Text.length_unquote_le (Text.trim argument.toList)
  have htrim := Text.length_trim_le argument.toList
  rw [String.length_toList] at htrim
  exact Nat.le_trans hquote htrim

/-- The argument of a pseudo-class is shorter than the text of the selector, as it is written, when
it is trimmed, and without quotes. -/
theorem length_argument_lt {name : String} {argument : Option String}
    (hgroup : group ∈ (parse text).groups) (htoken : .pseudoClass name argument ∈ group) :
    (∀ raw ∈ argument, raw.length < text.length ∧ (Text.trim raw.toList).length < text.length) ∧
      (PseudoClass.argumentOf argument).length < text.length := by
  have hwritten := writtenLength_le_of_mem hgroup htoken
  cases argument with
  | none => exact ⟨nofun, Nat.lt_of_lt_of_le (Nat.succ_pos _) hwritten⟩
  | some raw =>
    have htrim := Text.length_trim_le raw.toList
    have hquote := length_argumentOf_le raw
    rw [String.length_toList] at htrim
    rw [Token.writtenLength] at hwritten
    refine ⟨fun other hother => ?_, by omega⟩
    obtain rfl := Option.some.inj hother
    exact ⟨by omega, by omega⟩

/-- The test of siblings is shorter than the text of the selector. -/
theorem length_test_lt (hgroup : group ∈ (parse text).groups) (htoken : token ∈ group)
    (hinner : token.test? = some inner) : inner.length < text.length := by
  have hwritten := writtenLength_le_of_mem hgroup htoken
  unfold Token.test? at hinner
  split at hinner
  · exact Option.some.inj hinner ▸ hwritten
  · exact Option.some.inj hinner ▸ hwritten
  · cases hinner

/-- The name of a pseudo-class that runs a selector has three letters. -/
theorem length_name_of_ofName? {name : String} {pseudoClass : PseudoClass}
    (hname : PseudoClass.ofName? name = some pseudoClass)
    (h : pseudoClass = .not ∨ pseudoClass = .has) : name.length = 3 := by
  have hfound : (pseudoClass.name == name) = true := List.find?_some
    (p := fun pseudoClass : PseudoClass => pseudoClass.name == name) hname
  have heq := beq_iff_eq.mp hfound
  rcases h with rfl | rfl
  · exact heq ▸ rfl
  · exact heq ▸ rfl

/-- Only a pseudo-class runs a selector, which is what its argument writes. -/
theorem eq_pseudoClass_of_nested? (h : token.nested? = some inner) :
    ∃ name argument, token = .pseudoClass name argument ∧ name.length = 3 ∧
      inner = String.ofList (PseudoClass.argumentOf argument) := by
  cases token with
  | pseudoClass name argument =>
    unfold Token.nested? at h
    dsimp only at h
    split at h
    · next hname =>
      exact ⟨name, argument, rfl, length_name_of_ofName? hname (.inl rfl), (Option.some.inj h).symm⟩
    · next hname =>
      exact ⟨name, argument, rfl, length_name_of_ofName? hname (.inr rfl), (Option.some.inj h).symm⟩
    · cases h
  | _ => cases h

/-- A selector that runs inside another lacks four characters of it: the colon and the name. -/
theorem length_nested_add_le (hgroup : group ∈ (parse text).groups) (htoken : token ∈ group)
    (hinner : token.nested? = some inner) : inner.length + 4 ≤ text.length := by
  have hwritten := writtenLength_le_of_mem hgroup htoken
  obtain ⟨name, argument, rfl, hname, rfl⟩ := eq_pseudoClass_of_nested? hinner
  rw [String.length_ofList]
  cases argument with
  | none =>
    have hempty : (PseudoClass.argumentOf none).length = 0 := rfl
    rw [Token.writtenLength] at hwritten
    omega
  | some argument =>
    have hargument := length_argumentOf_le argument
    rw [Token.writtenLength] at hwritten
    omega

end Selector

namespace Query

variable {settings : Settings} {name text : String} {argument : Option String}

/-! ## Chains of selectors -/

/-- A selector that `:not` or `:has` runs stands in another. -/
def RunsIn (inner text : String) : Prop :=
  ∃ group ∈ (Selector.parse text).groups, ∃ token ∈ group, token.nested? = some inner

/-- A selector stands in another, to be run or as the test of siblings. -/
def StandsIn (inner text : String) : Prop :=
  ∃ group ∈ (Selector.parse text).groups, ∃ token ∈ group,
    token.nested? = some inner ∨ token.test? = some inner

/-- A selector is shorter than the one that it stands in. -/
theorem StandsIn.length_lt {inner text : String} (h : StandsIn inner text) :
    inner.length < text.length := by
  obtain ⟨group, hgroup, token, htoken, hinner | hinner⟩ := h
  · have hlength := Selector.length_nested_add_le hgroup htoken hinner
    omega
  · exact Selector.length_test_lt hgroup htoken hinner

/-- Selectors cannot stand in each other without end. -/
theorem wellFounded_standsIn : WellFounded StandsIn :=
  Subrelation.wf StandsIn.length_lt (InvImage.wf String.length Nat.lt_wfRel.wf)

/-- Each selector of a chain takes two characters at least. -/
theorem length_chain_le {inners : List String}
    (h : (text :: inners).IsChain fun outer inner => RunsIn inner outer) :
    2 * inners.length ≤ text.length := by
  induction inners generalizing text with
  | nil => exact Nat.zero_le _
  | cons inner inners ih =>
    obtain ⟨⟨group, hgroup, token, htoken, hinner⟩, hrest⟩ := List.isChain_cons_cons.mp h
    have hlength := Selector.length_nested_add_le hgroup htoken hinner
    have hmore := ih hrest
    rw [List.length_cons]
    omega

/-! ## Searches that are cut off -/

/-- What runs a selector that is given as text. -/
structure Runner where
  /-- The nodes that the selector finds from nodes. -/
  find : String → List NodeId → Query (List NodeId)
  /-- The nodes of a list that the selector keeps. -/
  keep : String → List NodeId → Query (List NodeId)

/-- What a pseudo-class keeps of a list of nodes, where a runner runs its selector. -/
def narrowBy (runner : Runner) (settings : Settings) (name : String) (argument : Option String)
    (nodes : List NodeId) : Query (List NodeId) :=
  let text := PseudoClass.argumentOf argument
  match PseudoClass.ofName? name with
  | none => do
    warn (.unsupportedPseudoClass name)
    return nodes
  | some .not => do
    let kept ← runner.keep (String.ofList text) nodes
    return nodes.filter fun n => !kept.contains n
  | some .has =>
    filter (fun n => do
      let t ← tree
      if t.isElement n then
        let found ← runner.find (String.ofList text) [n]
        return !found.isEmpty
      else return false) nodes
  | some .nthChild => keepNthChild text nodes
  | some pseudoClass =>
    match pseudoClass.byPlace? text nodes with
    | some kept => pure kept
    | none => do
      let t ← tree
      return nodes.filter fun n => pseudoClass.holds settings t text n

/-- What the tokens of a group find from nodes, given the draft of a path. -/
def runBy (runner : Runner) (settings : Settings) :
    Group → Draft → List NodeId → Query (List NodeId)
  | [], draft, nodes => if nodes.isEmpty then pure nodes else followDraft settings draft nodes
  | token :: tokens, draft, nodes =>
    if nodes.isEmpty then pure nodes
    else do
      match ← draftToken settings draft token with
      | (.structural, draft) | (.unrecognized, draft) => runBy runner settings tokens draft nodes
      | (.narrow narrowing, draft) =>
        let found ← follow settings draft.steps nodes
        let t ← tree
        runBy runner settings tokens {} (found.filter fun n => narrowing.holds t n)
      | (.procedural, draft) =>
        match token with
        | .pseudoClass name argument =>
          let found ← followDraft settings draft.closeAxis nodes
          let kept ← if found.isEmpty then pure found
            else narrowBy runner settings name argument found
          runBy runner settings tokens {} kept
        | token =>
          let found ← followDraft settings draft nodes
          let t ← tree
          runBy runner settings tokens {} (t.siblingsOf settings token found)

/-- What groups find from nodes. -/
def findGroupsBy (runner : Runner) (settings : Settings) :
    List Group → List NodeId → Query (List NodeId)
  | [], _ => pure []
  | group :: groups, nodes => do
    let found ← runBy runner settings group {} nodes
    let more ← findGroupsBy runner settings groups nodes
    return found ++ more

/-- What the pseudo-classes among some tokens keep of a list of nodes. -/
def narrowAllBy (runner : Runner) (settings : Settings) :
    List Token → List NodeId → Query (List NodeId)
  | [], nodes => pure nodes
  | .pseudoClass name argument :: tokens, nodes => do
    let kept ← narrowBy runner settings name argument nodes
    narrowAllBy runner settings tokens kept
  | _ :: tokens, nodes => narrowAllBy runner settings tokens nodes

/-- What groups keep of a list of nodes. -/
def keepGroupsBy (runner : Runner) (settings : Settings) :
    List Group → List NodeId → Query (List NodeId)
  | [], _ => pure []
  | group :: groups, nodes =>
    if group.isEmpty then keepGroupsBy runner settings groups nodes
    else do
      let t ← tree
      let tokens := group.simpleTokens
      let kept ← narrowAllBy runner settings tokens
        (nodes.filter fun n => t.passesAll settings n tokens)
      let more ← keepGroupsBy runner settings groups nodes
      return kept ++ more

/-- The search that goes through `depth` selectors in each other, and leaves to `bottom` what
stands deeper. -/
def cutOff (settings : Settings) (bottom : Runner) : Nat → Runner
  | 0 => bottom
  | depth + 1 => {
      find := fun text nodes => do
        let found ← findGroupsBy (cutOff settings bottom depth) settings
          (Selector.parse text).groups nodes
        return (NodeSet.ofList found).nodes
      keep := fun text nodes => do
        let kept ← keepGroupsBy (cutOff settings bottom depth) settings
          (Selector.parse text).groups nodes
        return (NodeSet.ofList kept).nodes }

/-! ## The depth that is needed -/

/-- A runner does with a selector what the search does. -/
def Runner.Serves (runner : Runner) (settings : Settings) (text : String) : Prop :=
  ∀ nodes, runner.find text nodes = Query.find settings (Selector.parse text) nodes ∧
    runner.keep text nodes = Query.keep settings (Selector.parse text) nodes

section Serves

variable {runner : Runner}

/-- A pseudo-class keeps what the search keeps for it. -/
theorem narrowBy_eq
    (h : ∀ inner, (Token.pseudoClass name argument).nested? = some inner →
      runner.Serves settings inner) (nodes : List NodeId) :
    narrowBy runner settings name argument nodes = narrow settings name argument nodes := by
  rw [narrow]
  unfold narrowBy
  dsimp only
  cases hname : PseudoClass.ofName? name with
  | none => rfl
  | some pseudoClass =>
    cases pseudoClass with
    -- The runner gives sets, and the search looks at lists with the same members.
    | not =>
      have hserves := h _ (by rw [Token.nested?, hname])
      dsimp only
      rw [(hserves nodes).2, keep]
      simp only [bind_assoc, pure_bind, NodeSet.contains_nodes_ofList]
    | has =>
      have hserves := h _ (by rw [Token.nested?, hname])
      dsimp only
      have hfind : ∀ n, runner.find (String.ofList (PseudoClass.argumentOf argument)) [n] = _ :=
        fun n => (hserves [n]).1
      simp only [hfind, find, bind_assoc, pure_bind, NodeSet.isEmpty_nodes_ofList]
    | _ => rfl

/-- The tokens of a group find what they find in the search. -/
theorem runBy_eq {tokens : Group}
    (h : ∀ token ∈ tokens, ∀ inner, token.nested? = some inner → runner.Serves settings inner)
    (draft : Draft) (nodes : List NodeId) :
    runBy runner settings tokens draft nodes = run settings tokens draft nodes := by
  induction tokens generalizing draft nodes with
  | nil => rw [run, runBy]
  | cons token tokens ih =>
    obtain ⟨htoken, htokens⟩ := List.forall_mem_cons.mp h
    have hrest := ih htokens
    rw [run, runBy]
    split_ifs
    · rfl
    · refine congrArg (draftToken settings draft token >>= ·) (funext fun drafted => ?_)
      -- The token is drawn up, skipped, drawn up with a narrowing, or done by hand.
      split
      · exact hrest _ nodes
      · exact hrest _ nodes
      · simp only [hrest]
      · cases token with
        | pseudoClass name argument => simp only [narrowBy_eq htoken, hrest]
        | _ => simp only [hrest]

/-- Groups find what they find in the search. -/
theorem findGroupsBy_eq {groups : List Group}
    (h : ∀ group ∈ groups, ∀ token ∈ group, ∀ inner, token.nested? = some inner →
      runner.Serves settings inner) (nodes : List NodeId) :
    findGroupsBy runner settings groups nodes = findGroups settings groups nodes := by
  induction groups with
  | nil => rw [findGroups, findGroupsBy]
  | cons group groups ih =>
    obtain ⟨hgroup, hgroups⟩ := List.forall_mem_cons.mp h
    rw [findGroups, findGroupsBy, runBy_eq hgroup, ih hgroups]

/-- Pseudo-classes keep what they keep in the search. -/
theorem narrowAllBy_eq {tokens : List Token}
    (h : ∀ token ∈ tokens, ∀ inner, token.nested? = some inner → runner.Serves settings inner)
    (nodes : List NodeId) :
    narrowAllBy runner settings tokens nodes = narrowAll settings tokens nodes := by
  induction tokens generalizing nodes with
  | nil => rw [narrowAll, narrowAllBy]
  | cons token tokens ih =>
    obtain ⟨htoken, htokens⟩ := List.forall_mem_cons.mp h
    cases token with
    | pseudoClass name argument =>
      rw [narrowAll, narrowAllBy, narrowBy_eq htoken]
      exact congrArg _ (funext fun kept => ih htokens kept)
    | _ =>
      rw [narrowAll, narrowAllBy]
      · exact ih htokens nodes
      -- The token is no pseudo-class.
      all_goals
        intro _ _ heq
        cases heq

/-- Groups keep what they keep in the search. -/
theorem keepGroupsBy_eq {groups : List Group}
    (h : ∀ group ∈ groups, ∀ token ∈ group, ∀ inner, token.nested? = some inner →
      runner.Serves settings inner) (nodes : List NodeId) :
    keepGroupsBy runner settings groups nodes = keepGroups settings groups nodes := by
  induction groups with
  | nil => rw [keepGroups, keepGroupsBy]
  | cons group groups ih =>
    obtain ⟨hgroup, hgroups⟩ := List.forall_mem_cons.mp h
    have hsimple : ∀ token ∈ group.simpleTokens, ∀ inner, token.nested? = some inner →
        runner.Serves settings inner := fun token htoken =>
      hgroup token (mem_of_mem_simpleTokens htoken)
    rw [keepGroups, keepGroupsBy, ih hgroups]
    split_ifs
    · rfl
    · simp only [narrowAllBy_eq hsimple]

end Serves

/-- A search that goes through enough selectors in each other does what the search does. -/
theorem serves_cutOff (settings : Settings) (bottom : Runner) {depth : Nat}
    (h : text.length < 4 * depth) : (cutOff settings bottom depth).Serves settings text := by
  induction depth generalizing text with
  | zero => omega
  | succ depth ih =>
    -- What runs inside the text is shorter by more than one selector in another needs.
    have hserves : ∀ group ∈ (Selector.parse text).groups, ∀ token ∈ group, ∀ inner,
        token.nested? = some inner → (cutOff settings bottom depth).Serves settings inner := by
      intro group hgroup token htoken inner hinner
      have hlength := Selector.length_nested_add_le hgroup htoken hinner
      exact ih (by omega)
    refine fun nodes => ⟨?_, ?_⟩
    · rw [cutOff, find]
      dsimp only
      rw [findGroupsBy_eq hserves]
    · rw [cutOff, keep]
      dsimp only
      rw [keepGroupsBy_eq hserves]

/-- **Nested selectors come to an end.** In every selector the arguments of pseudo-classes, as they
are written, trimmed, or without quotes, and the tests of siblings are shorter than the text of the
selector. So no selectors stand in each other without end, and a chain of selectors that `:not` and
`:has` run takes at least two characters of the text for each of them. A search that goes through
half as many selectors in each other as the text has characters, and leaves to anything what stands
deeper, finds and keeps what the search does, in every session. -/
theorem nesting_ends :
    (∀ text, ∀ group ∈ (Selector.parse text).groups, ∀ token ∈ group,
        (∀ name argument, token = .pseudoClass name argument →
          (∀ raw ∈ argument,
            raw.length < text.length ∧ (Text.trim raw.toList).length < text.length) ∧
            (PseudoClass.argumentOf argument).length < text.length) ∧
          ∀ sub, token = .adjacent sub ∨ token = .general sub → sub.length < text.length) ∧
      WellFounded StandsIn ∧
      (∀ text inners, (text :: inners).IsChain (fun outer inner => RunsIn inner outer) →
        2 * inners.length ≤ text.length) ∧
      ∀ settings bottom text nodes,
        (cutOff settings bottom (text.length / 2 + 1)).find text nodes =
            find settings (Selector.parse text) nodes ∧
          (cutOff settings bottom (text.length / 2 + 1)).keep text nodes =
            keep settings (Selector.parse text) nodes := by
  refine ⟨fun text group hgroup token htoken => ⟨?_, ?_⟩, wellFounded_standsIn,
    fun text inners => length_chain_le, fun settings bottom text nodes => ?_⟩
  · rintro name argument rfl
    exact Selector.length_argument_lt hgroup htoken
  · rintro sub (rfl | rfl)
    · exact Selector.length_test_lt hgroup htoken rfl
    · exact Selector.length_test_lt hgroup htoken rfl
  -- Half the length of the text is enough for the selectors that run in each other.
  · exact serves_cutOff settings bottom (by omega) nodes

/-- For one, two selectors in each other with parentheses that are never closed. -/
theorem nesting_ends_open :
    let text := "p:not(:has((b+i"
    ([text, ":has((b+i", "(b+i"].IsChain fun outer inner => RunsIn inner outer) ∧
      2 * 2 ≤ text.length ∧
      (":has((b+i".length < text.length ∧ "i".length < "(b+i".length) ∧
      ∀ bottom nodes, (cutOff .default bottom 8).find text nodes =
        find .default (Selector.parse text) nodes := by
  intro text
  -- Each text stands in the one before it, and `:not` and `:has` run them.
  have hchain : [text, ":has((b+i", "(b+i"].IsChain fun outer inner => RunsIn inner outer := by
    unfold RunsIn
    decide +kernel
  obtain ⟨hshorter, -, hlength, hcut⟩ := nesting_ends
  -- The arguments that the bounds speak of are found by reading the texts.
  have hnot : [.descendant, .tag "p", .pseudoClass "not" (some ":has((b+i")] ∈
      (Selector.parse text).groups := by decide +kernel
  have htest : [.descendant, .tag "b", .adjacent "i"] ∈ (Selector.parse "(b+i").groups := by
    decide +kernel
  obtain ⟨hargument, -⟩ := (hshorter text _ hnot (.pseudoClass "not" (some ":has((b+i"))
    (by simp)).1 "not" (some ":has((b+i") rfl
  have hdepth : text.length / 2 + 1 = 8 := by decide +kernel
  have hsub := (hshorter "(b+i" _ htest (.adjacent "i") (by simp)).2 "i" (.inl rfl)
  exact ⟨hchain, hlength _ _ hchain, ⟨(hargument _ rfl).1, hsub⟩,
    fun bottom nodes => hdepth ▸ (hcut .default bottom text nodes).1⟩

end Query

end TreeQuery
