import TreeQuery.Query.Draft
import TreeQuery.Query.PseudoClass
import TreeQuery.Query.Session
import TreeQuery.Tree.Describe

/-!
# Searching and filtering

`Query.find` searches a tree from several nodes, and `Query.keep` filters a list of nodes without
searching below them. Both take the groups of a selector one by one and unite what they give.

A search draws up a path as long as tokens can be put into it, and evaluates it, once for each node
where it stands, when a token cannot. A pseudo-class may run a nested selector; the text of that
selector is part of the text nested in the selector at hand (`Selector.weight`), so that the nesting
comes to an end.
-/

namespace TreeQuery.Query

/-! ## Evaluating a draft -/

/-- The nodes to which steps lead from one node. Only elements and documents lead anywhere. -/
def followFrom (settings : Settings) (steps : List Step) (n : NodeId) : Query (List NodeId) := do
  let t ← tree
  if !t.isElement n && !t.isDocument n then return []
  else
    mounted n do
      let t ← tree
      match t.positionalPath n with
      | .error (.unrooted _) => throw (.unreachable n)
      | .error e => throw (.tree e)
      | .ok path =>
        let path := path.join steps
        record (.evaluated path)
        let found ← ofExcept (t.evaluate path .document)
        if settings.debug && !found.isEmpty then record (.found (found.map t.describe))
        return found

/-- The nodes to which steps lead from several nodes. -/
def follow (settings : Settings) (steps : List Step) (nodes : List NodeId) :
    Query (List NodeId) := do
  let found ← flatMap (followFrom settings steps) nodes
  return (NodeSet.ofList found).nodes

/-- The nodes to which a draft leads: those at hand, if it has no steps. -/
def followDraft (settings : Settings) (draft : Draft) (nodes : List NodeId) :
    Query (List NodeId) :=
  if draft.isEmpty then pure nodes else follow settings draft.steps nodes

/-- Takes a token into a draft, and warns of one that is skipped. -/
def draftToken (settings : Settings) (draft : Draft) (token : Token) : Query (Outcome × Draft) := do
  let (outcome, draft) := draft.add settings token
  if outcome == .unrecognized then warn (.unrecognizedToken token.render)
  return (outcome, draft)

/-! ## Selectors -/

/-- What `:nth-child` keeps. An argument of blanks keeps all nodes, and so does one that is no
progression, with a warning. -/
def keepNthChild (argument : List Char) (nodes : List NodeId) : Query (List NodeId) := do
  if (Text.trim argument).isEmpty then return nodes
  else
    match Progression.parse? argument with
    | none =>
      warn (.malformedPosition (String.ofList argument))
      return nodes
    | some progression =>
      let t ← tree
      return nodes.filter (PseudoClass.isNthChild t progression)

/-- The selector in the argument of a pseudo-class has less text nested in it than the
pseudo-class. -/
theorem weight_argument_lt (name : String) (argument : Option String) :
    (Selector.parse (String.ofList (PseudoClass.argumentOf argument))).weight <
      (Token.pseudoClass name argument).weight := by
  -- Trimming and unquoting leave no more than the argument, which weighs one less than its token.
  refine Nat.lt_of_le_of_lt (Selector.weight_parse_le _) ?_
  rw [String.length_ofList]
  cases argument with
  | none => simp [PseudoClass.argumentOf, Token.weight]
  | some text =>
    have hquote := Text.length_unquote_le (Text.trim text.toList)
    have htrim := Text.length_trim_le text.toList
    rw [String.length_toList] at htrim
    simp only [PseudoClass.argumentOf, Token.weight, Option.getD_some]
    omega

/-- What is left of a group for a simple test weighs no more than the group. -/
theorem weight_simpleTokens_le (group : Group) :
    Group.weight group.simpleTokens ≤ Group.weight group := by
  rw [Group.simpleTokens.eq_def]
  split
  · exact Nat.le_refl _
  · split
    · exact Nat.le_add_left _ _
    · exact Nat.le_refl _

/-- What is left of a group for a simple test has no more tokens than the group. -/
theorem length_simpleTokens_le (group : Group) : group.simpleTokens.length ≤ group.length := by
  rw [Group.simpleTokens.eq_def]
  split
  · exact Nat.le_refl _
  · split
    · exact Nat.le_succ _
    · exact Nat.le_refl _

/-- The number of tokens in several groups, with one for each group. -/
def extent : List Group → Nat
  | [] => 0
  | group :: groups => group.length + 1 + extent groups

mutual

/-- What the groups of a selector find from nodes, group after group. -/
def findGroups (settings : Settings) : List Group → List NodeId → Query (List NodeId)
  | [], _ => pure []
  | group :: groups, nodes => do
    let found ← run settings group {} nodes
    let more ← findGroups settings groups nodes
    return found ++ more
termination_by groups => (Group.totalWeight groups, extent groups)
decreasing_by
  · simp only [Group.totalWeight, extent, Prod.lex_def]
    omega
  · simp only [Group.totalWeight, extent, Prod.lex_def]
    omega

/-- What the tokens of a group find from nodes, given the draft of a path that leads on from them.
Where there are no nodes the rest of the group is not looked at. -/
def run (settings : Settings) : Group → Draft → List NodeId → Query (List NodeId)
  | [], draft, nodes => if nodes.isEmpty then pure nodes else followDraft settings draft nodes
  | token :: tokens, draft, nodes =>
    if nodes.isEmpty then pure nodes
    else do
      match ← draftToken settings draft token with
      | (.structural, draft) | (.unrecognized, draft) => run settings tokens draft nodes
      -- The draft is used up, and the rest of the group starts from what passes the test.
      | (.narrow narrowing, draft) =>
        let found ← follow settings draft.steps nodes
        let t ← tree
        run settings tokens {} (found.filter fun n => narrowing.holds t n)
      | (.procedural, draft) =>
        match token with
        -- A combinator in front of a pseudo-class leads to any element.
        | .pseudoClass name argument =>
          let found ← followDraft settings draft.closeAxis nodes
          let kept ← if found.isEmpty then pure found else narrow settings name argument found
          run settings tokens {} kept
        -- A combinator in front of a sibling combinator leads nowhere and is dropped.
        | token =>
          let found ← followDraft settings draft nodes
          let t ← tree
          run settings tokens {} (t.siblingsOf settings token found)
termination_by tokens => (Group.weight tokens, tokens.length)
decreasing_by
  all_goals
    simp only [Group.weight, List.length_cons, Prod.lex_def]
    omega

/-- What a pseudo-class keeps of a list of nodes. One of an unknown name keeps all, with a
warning. -/
def narrow (settings : Settings) (name : String) (argument : Option String) (nodes : List NodeId) :
    Query (List NodeId) :=
  let text := PseudoClass.argumentOf argument
  match PseudoClass.ofName? name with
  | none => do
    warn (.unsupportedPseudoClass name)
    return nodes
  | some .not => do
    let kept ← keepGroups settings (Selector.parse (String.ofList text)).groups nodes
    return nodes.filter fun n => !kept.contains n
  | some .has =>
    filter (fun n => do
      let t ← tree
      if t.isElement n then
        let found ← findGroups settings (Selector.parse (String.ofList text)).groups [n]
        return !found.isEmpty
      else return false) nodes
  | some .nthChild => keepNthChild text nodes
  | some pseudoClass =>
    match pseudoClass.byPlace? text nodes with
    | some kept => pure kept
    | none => do
      let t ← tree
      return nodes.filter fun n => pseudoClass.holds settings t text n
termination_by ((Token.pseudoClass name argument).weight, 0)
decreasing_by
  all_goals exact Prod.Lex.left _ _ (weight_argument_lt name argument)

/-- What the groups of a selector keep of a list of nodes, group after group. A group without
tokens keeps nothing. -/
def keepGroups (settings : Settings) : List Group → List NodeId → Query (List NodeId)
  | [], _ => pure []
  | group :: groups, nodes =>
    if group.isEmpty then keepGroups settings groups nodes
    else do
      let t ← tree
      let tokens := group.simpleTokens
      let kept ← narrowAll settings tokens (nodes.filter fun n => t.passesAll settings n tokens)
      let more ← keepGroups settings groups nodes
      return kept ++ more
termination_by groups => (Group.totalWeight groups, extent groups)
decreasing_by
  · simp only [Group.totalWeight, extent, Prod.lex_def]
    omega
  · have hweight := weight_simpleTokens_le group
    have hlength := length_simpleTokens_le group
    simp only [Group.totalWeight, extent, Prod.lex_def]
    omega
  · simp only [Group.totalWeight, extent, Prod.lex_def]
    omega

/-- What the pseudo-classes among some tokens keep of a list of nodes, one after the other. -/
def narrowAll (settings : Settings) : List Token → List NodeId → Query (List NodeId)
  | [], nodes => pure nodes
  | .pseudoClass name argument :: tokens, nodes => do
    let kept ← narrow settings name argument nodes
    narrowAll settings tokens kept
  | _ :: tokens, nodes => narrowAll settings tokens nodes
termination_by tokens => (Group.weight tokens, tokens.length)
decreasing_by
  all_goals
    simp only [Group.weight, List.length_cons, Prod.lex_def]
    omega

end

/-- The nodes that a selector finds from nodes, each once. A group without tokens finds the nodes
themselves. -/
def find (settings : Settings) (selector : Selector) (nodes : List NodeId) :
    Query (List NodeId) := do
  let found ← findGroups settings selector.groups nodes
  return (NodeSet.ofList found).nodes

/-- The nodes of a list that a selector keeps, each once. -/
def keep (settings : Settings) (selector : Selector) (nodes : List NodeId) :
    Query (List NodeId) := do
  let kept ← keepGroups settings selector.groups nodes
  return (NodeSet.ofList kept).nodes

end TreeQuery.Query
