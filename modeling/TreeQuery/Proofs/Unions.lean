import TreeQuery.Proofs.Commas
import TreeQuery.Proofs.Determined
import TreeQuery.Proofs.Success

/-!
# A comma unites

What is found with two selectors that have a comma between them is what is found with the first and
then what is found with the second (`Query.result_find_join`): a combinator that the first leaves at
the end of its last group leads nowhere. A filter takes such a combinator for a test, and one that
no node passes, so a group with a space in front of the comma keeps nothing, and what is kept is
what the other groups keep (`Query.result_keep_join`).
-/

namespace TreeQuery

namespace NodeSet

/-- A list may be rid of its repetitions before it is added to a set. -/
theorem insertAll_ofList (set : NodeSet) (nodes : List NodeId) :
    set.insertAll (ofList nodes).nodes = set.insertAll nodes := by
  induction nodes using List.reverseRecOn with
  | nil => rfl
  | append_singleton nodes n ih =>
    have hset : set.insertAll (nodes ++ [n]) = (set.insertAll nodes).insert n :=
      List.foldl_append
    have hlist : ofList (nodes ++ [n]) = (ofList nodes).insert n := List.foldl_append
    rw [hset, hlist, insert]
    split_ifs with hn
    · -- The node is in the list, and so in the set.
      rw [ih, insert, dif_pos (mem_insertAll.mpr (.inr (mem_ofList.mp hn)))]
    · rw [← ih]
      exact List.foldl_append

/-- Two lists may be rid of their repetitions before they are joined. -/
theorem ofList_append (nodes more : List NodeId) :
    ofList ((ofList nodes).nodes ++ (ofList more).nodes) = ofList (nodes ++ more) := by
  have happend : ∀ front back : List NodeId,
      ofList (front ++ back) = (empty.insertAll front).insertAll back :=
    fun _ _ => List.foldl_append
  rw [happend, happend, insertAll_ofList, insertAll_ofList]

end NodeSet

namespace Query

variable {settings : Settings}

/-! ## Groups one after the other -/

/-- More groups find more, after what the groups before them find. -/
theorem findGroups_append (groups more : List Group) (nodes : List NodeId) :
    findGroups settings (groups ++ more) nodes = (do
      let found ← findGroups settings groups nodes
      let others ← findGroups settings more nodes
      return found ++ others) := by
  induction groups with
  | nil =>
    rw [List.nil_append, findGroups, pure_bind]
    exact (bind_pure _).symm
  | cons group groups ih =>
    rw [List.cons_append, findGroups, findGroups, ih]
    simp only [bind_assoc, pure_bind, List.append_assoc]

/-- More groups keep more, after what the groups before them keep. -/
theorem keepGroups_append (groups more : List Group) (nodes : List NodeId) :
    keepGroups settings (groups ++ more) nodes = (do
      let kept ← keepGroups settings groups nodes
      let others ← keepGroups settings more nodes
      return kept ++ others) := by
  induction groups with
  | nil =>
    rw [List.nil_append, keepGroups, pure_bind]
    exact (bind_pure _).symm
  | cons group groups ih =>
    rw [List.cons_append, keepGroups, keepGroups]
    split_ifs
    · exact ih
    · rw [ih]
      simp only [bind_assoc, pure_bind, List.append_assoc]

/-- What two lists of groups find, each node once. -/
theorem find_append (groups more : List Group) (nodes : List NodeId) :
    find settings ⟨groups ++ more⟩ nodes = (do
      let found ← find settings ⟨groups⟩ nodes
      let others ← find settings ⟨more⟩ nodes
      return (NodeSet.ofList (found ++ others)).nodes) := by
  unfold find
  rw [findGroups_append]
  simp only [bind_assoc, pure_bind, NodeSet.ofList_append]

/-- What two lists of groups keep, each node once. -/
theorem keep_append (groups more : List Group) (nodes : List NodeId) :
    keep settings ⟨groups ++ more⟩ nodes = (do
      let kept ← keep settings ⟨groups⟩ nodes
      let others ← keep settings ⟨more⟩ nodes
      return (NodeSet.ofList (kept ++ others)).nodes) := by
  unfold keep
  rw [keepGroups_append]
  simp only [bind_assoc, pure_bind, NodeSet.ofList_append]

/-! ## A combinator at the end of a group -/

/-- Behind the same tokens, groups that find the same go on to find the same. -/
theorem run_append_congr {group other : Group}
    (h : ∀ draft nodes, run settings group draft nodes = run settings other draft nodes)
    (tokens : Group) (draft : Draft) (nodes : List NodeId) :
    run settings (tokens ++ group) draft nodes = run settings (tokens ++ other) draft nodes := by
  -- By induction on the tokens in front: whatever a token does, what follows it runs on the same
  -- draft and the same nodes in both groups.
  induction tokens generalizing draft nodes with
  | nil => exact h draft nodes
  | cons token tokens ih =>
    rw [List.cons_append, List.cons_append, run, run]
    split_ifs
    · rfl
    refine bind_congr fun drafted => ?_
    obtain ⟨outcome, drafted⟩ := drafted
    cases outcome with
    | structural => exact ih _ _
    | unrecognized => exact ih _ _
    | narrow narrowing =>
      exact bind_congr fun found => bind_congr fun t => ih _ _
    | procedural =>
      cases token with
      | pseudoClass name argument =>
        refine bind_congr fun found => ?_
        dsimp only
        split_ifs
        · exact ih _ _
        · exact bind_congr fun kept => ih _ _
      | _ => exact bind_congr fun found => bind_congr fun t => ih _ _

/-- A combinator at the end of a group leads nowhere. -/
theorem run_concat_descendant (tokens : Group) (draft : Draft) (nodes : List NodeId) :
    run settings (tokens ++ [.descendant]) draft nodes = run settings tokens draft nodes := by
  have hend : ∀ draft nodes, run settings [.descendant] draft nodes =
      run settings [] draft nodes := by
    -- The combinator waits in the draft, and the end of the group follows the steps without it.
    intro draft nodes
    rw [run, run]
    split_ifs with hnone
    · rfl
    · have hdraft : draftToken settings draft .descendant =
          pure (.structural, { draft with axis? := some .descendant }) := rfl
      rw [hdraft, pure_bind]
      dsimp only
      rw [run, if_neg hnone]
      rfl
  have hrun := run_append_congr hend tokens draft nodes
  rwa [List.append_nil] at hrun

/-- A group finds in front of a comma what it finds elsewhere. -/
theorem run_of_dangles {spaced : Bool} {group joined : Group}
    (h : Selector.Dangles spaced group joined) (nodes : List NodeId) :
    run settings joined {} nodes = run settings group {} nodes := by
  cases h with
  | tight => rfl
  | comma => rfl
  | space _ => exact run_concat_descendant group {} nodes
  | alone =>
    calc run settings [.descendant, .descendant] {} nodes
        = run settings [.descendant] {} nodes := run_concat_descendant [.descendant] {} nodes
      _ = run settings [] {} nodes := run_concat_descendant [] {} nodes

/-- Searching with two selectors that have a comma between them is searching with one after the
other. -/
theorem find_join (settings : Settings) (text other : String) (nodes : List NodeId)
    (h : Selector.Enclosed (Selector.normalize text.toList)) :
    find settings (Selector.parse (text ++ "," ++ other)) nodes = (do
      let found ← find settings (Selector.parse text) nodes
      let more ← find settings (Selector.parse other) nodes
      return (NodeSet.ofList (found ++ more)).nodes) := by
  obtain ⟨front, last, joined, htext, hjoin, hdangles⟩ := Selector.groups_parse_join text other h
  have hgroups : findGroups settings (front ++ joined :: (Selector.parse other).groups) nodes =
      findGroups settings (front ++ [last] ++ (Selector.parse other).groups) nodes := by
    -- The groups up to the one at the comma are the same, and that one finds the same in both.
    rw [List.append_assoc, findGroups_append, findGroups_append, List.singleton_append]
    refine bind_congr fun found => ?_
    rw [findGroups, findGroups, run_of_dangles hdangles]
  have hfind : find settings (Selector.parse (text ++ "," ++ other)) nodes =
      find settings ⟨front ++ [last] ++ (Selector.parse other).groups⟩ nodes := by
    rw [find, find, hjoin, hgroups]
  rw [hfind, find_append, ← htext]

/-- What is found with two selectors that have a comma between them is what is found with the first
and then what is found with the second, each node where it comes first. The search stops with the
error that stops the first or, if that one succeeds, the second. -/
theorem result_find_join (settings : Settings) (text other : String) (nodes : List NodeId)
    {s : Session} (htree : s.tree.WellFormed)
    (h : Selector.Enclosed (Selector.normalize text.toList)) :
    result (find settings (Selector.parse (text ++ "," ++ other)) nodes) s = (do
      let found ← result (find settings (Selector.parse text) nodes) s
      let more ← result (find settings (Selector.parse other) nodes) s
      return (NodeSet.ofList (found ++ more)).nodes) := by
  rw [find_join settings text other nodes h]
  exact result_both (keeps_find htree settings _ nodes) (keeps_find htree settings _ nodes)
    (determined_find settings _ nodes) fun found more => (NodeSet.ofList (found ++ more)).nodes

/-- The paragraph is found in spite of the combinator behind it, and the division after it. -/
theorem result_find_join_dangling :
    let t := Edit.run (.empty .html)
      [.createElement "div" [], .createElement "p" [], .append 0 1, .append 1 2]
    t.WellFormed ∧ Selector.Enclosed (Selector.normalize "p > ".toList) ∧
      result (find .default (Selector.parse ("p > " ++ "," ++ " div")) [.document])
        { tree := t } = .ok [2, 1] := by
  intro t
  have htree : t.WellFormed := Edit.wellFormed_run (Tree.wellFormed_empty .html) _
  have hnormal : Selector.normalize "p > ".toList = "p>".toList := by decide +kernel
  have henclosed : Selector.Enclosed (Selector.normalize "p > ".toList) := by
    rw [hnormal]
    exact .cons ⟨nofun, nofun⟩ (.cons ⟨nofun, nofun⟩ .nil)
  have htext : Selector.parse "p > " = ⟨[[.descendant, .tag "p", .child]]⟩ := by decide +kernel
  have hother : Selector.parse " div" = ⟨[[.descendant, .tag "div"]]⟩ := by decide +kernel
  -- Each selector is searched for by itself.
  have hfound : result (find .default (Selector.parse "p > ") [.document]) { tree := t } =
      .ok [2] := by
    rw [htext]
    simp only [find, findGroups, run]
    decide +kernel
  have hmore : result (find .default (Selector.parse " div") [.document]) { tree := t } =
      .ok [1] := by
    rw [hother]
    simp only [find, findGroups, run]
    decide +kernel
  refine ⟨htree, henclosed, ?_⟩
  rw [result_find_join .default "p > " " div" [.document] htree henclosed, hfound, hmore]
  rfl

/-! ## A combinator as a test -/

/-- No node passes a combinator. -/
theorem passesAll_descendant {t : Tree} {tokens : List Token} (h : .descendant ∈ tokens)
    (n : NodeId) : t.passesAll settings n tokens = false := by
  unfold Tree.passesAll
  cases t.data? n with
  | none => rfl
  | some data =>
    rw [List.all_eq_false]
    refine ⟨.descendant, h, ?_⟩
    cases data with
    | _ => exact Bool.false_ne_true

/-- A group that has a space in front of a comma is empty, or it tests for a combinator. -/
theorem descendant_mem_of_dangles {group joined : Group} (h : Selector.Dangles true group joined) :
    joined = [] ∨ .descendant ∈ joined.simpleTokens := by
  cases h with
  | comma => exact .inl rfl
  | alone => exact .inr (List.mem_singleton_self _)
  | space hne =>
    obtain ⟨token, tokens, rfl⟩ := List.exists_cons_of_ne_nil hne
    refine .inr ?_
    rw [List.cons_append, Group.simpleTokens]
    split_ifs
    · simp
    · simp

/-- A group that has a space in front of a comma keeps nothing. -/
theorem keeps_nothing {t : Tree} (htree : t.Loaded) {group joined : Group}
    (h : Selector.Dangles true group joined) (nodes : List NodeId) :
    Meets t (keepGroups settings [joined] nodes) (· = []) Never := by
  rw [keepGroups, keepGroups]
  -- A space in front of the comma leaves either no token at all or a combinator among the tests.
  rcases descendant_mem_of_dangles h with rfl | hmem
  · exact .pure rfl
  · split_ifs
    · exact .pure rfl
    refine Meets.bind (.tree rfl) fun u (hu : t = u) => ?_
    -- No node passes a combinator, so that there is nothing left to narrow.
    have hnone : (nodes.filter fun n => u.passesAll settings n joined.simpleTokens) = [] :=
      List.filter_eq_nil_iff.mpr fun n _ => Bool.eq_false_iff.mp (passesAll_descendant hmem n)
    dsimp only
    rw [hnone]
    refine (sublist_narrowAll (leads_loaded htree settings) joined.simpleTokens []).bind
      fun kept hkept => ?_
    rw [List.sublist_nil.mp hkept]
    exact .pure rfl

/-- A group that has a space in front of a comma may be left out. -/
theorem result_keepGroups_dangles {s : Session} (htree : s.tree.Loaded) {group joined : Group}
    (h : Selector.Dangles true group joined) (front more : List Group) (nodes : List NodeId) :
    result (keepGroups settings (front ++ joined :: more) nodes) s =
      result (keepGroups settings (front ++ more) nodes) s := by
  have hkeeps : ∀ groups, Keeps s.tree (keepGroups settings groups nodes) := fun groups =>
    (subset_keepGroups (leads_anywhere htree.toWellFormed settings) groups nodes).keeps
  have hdetermined : ∀ groups, Determined (keepGroups settings groups nodes) := fun groups =>
    determined_keepGroups settings groups nodes
  -- Keeping by a list of groups can be cut anywhere, as no group changes what a later one keeps.
  have happend : ∀ groups others, result (keepGroups settings (groups ++ others) nodes) s =
      (do
        let kept ← result (keepGroups settings groups nodes) s
        let rest ← result (keepGroups settings others nodes) s
        return kept ++ rest) := by
    intro groups others
    rw [keepGroups_append]
    exact result_both (hkeeps groups) (hkeeps others) (hdetermined others) _
  have hnothing : result (keepGroups settings [joined] nodes) s = .ok [] := by
    have hmeets : Meets s.tree (keepGroups settings [joined] nodes) (· = []) Never :=
      keeps_nothing htree h nodes
    obtain ⟨kept, s', hok, -, rfl⟩ := hmeets.exists_ok rfl
    exact result_eq_ok.mpr ⟨s', hok⟩
  have hmore : result (keepGroups settings (joined :: more) nodes) s =
      result (keepGroups settings more nodes) s := by
    rw [← List.singleton_append, happend, hnothing]
    cases result (keepGroups settings more nodes) s with
    | _ => rfl
  rw [happend, happend, hmore]

/-- What a selector keeps is what its groups keep, each node once. -/
theorem result_keep {s : Session} (htree : s.tree.WellFormed) (selector : Selector)
    (nodes : List NodeId) :
    result (keep settings selector nodes) s = (do
      let kept ← result (keepGroups settings selector.groups nodes) s
      return (NodeSet.ofList kept).nodes) :=
  result_bind (subset_keepGroups (leads_anywhere htree settings) selector.groups nodes).keeps
    fun _ => .pure _

end Query

/-- What is left of a selector that filters in front of a comma: all but its last group, if a space
is left at the end of its text. -/
def Selector.beforeComma (text : String) : Selector :=
  if endsInSpace text.toList then ⟨(parse text).groups.dropLast⟩ else parse text

namespace Query

/-- The groups of two selectors that have a comma between them keep what the groups keep that are
left of the first, and what those of the second keep. -/
theorem result_keepGroups_join {s : Session} (htree : s.tree.Loaded) (settings : Settings)
    (text other : String) (nodes : List NodeId)
    (h : Selector.Enclosed (Selector.normalize text.toList)) :
    result (keepGroups settings (Selector.parse (text ++ "," ++ other)).groups nodes) s =
      result (keepGroups settings
        ((Selector.beforeComma text).groups ++ (Selector.parse other).groups) nodes) s := by
  obtain ⟨front, last, joined, htext, hjoin, hdangles⟩ := Selector.groups_parse_join text other h
  unfold Selector.beforeComma
  rw [hjoin]
  cases hspace : Selector.endsInSpace text.toList with
  | true =>
    rw [hspace] at hdangles
    rw [if_pos rfl, htext, List.dropLast_concat]
    exact result_keepGroups_dangles htree hdangles front _ nodes
  | false =>
    -- The last group is read as it is.
    rw [hspace] at hdangles
    cases hdangles
    rw [if_neg Bool.false_ne_true, htext, List.append_assoc, List.singleton_append]

/-- What is kept by two selectors that have a comma between them is what is kept by the first,
without its last group if a space is left in front of the comma, and then what is kept by the
second, each node where it comes first. -/
theorem result_keep_join {flavour : Flavour} {markup : Markup} {s : Session}
    (hbuild : markup.build? flavour = .ok s.tree) (settings : Settings) (text other : String)
    (nodes : List NodeId) (h : Selector.Enclosed (Selector.normalize text.toList)) :
    ∃ kept more,
      result (keep settings (Selector.beforeComma text) nodes) s = .ok kept ∧
        result (keep settings (Selector.parse other) nodes) s = .ok more ∧
        result (keep settings (Selector.parse (text ++ "," ++ other)) nodes) s =
          .ok (NodeSet.ofList (kept ++ more)).nodes := by
  have hloaded := Tree.loaded_build? hbuild
  have hwf := hloaded.toWellFormed
  -- Each of the two keeps some list, so that the union can be written with both.
  have hsuccess : ∀ selector, ∃ kept, result (keep settings selector nodes) s = .ok kept := by
    intro selector
    obtain ⟨kept, s', hok, -⟩ :=
      (subset_keep (leads_loaded hloaded settings) selector nodes).exists_ok rfl
    exact ⟨kept, result_eq_ok.mpr ⟨s', hok⟩⟩
  obtain ⟨kept, hkept⟩ := hsuccess (Selector.beforeComma text)
  obtain ⟨more, hmore⟩ := hsuccess (Selector.parse other)
  refine ⟨kept, more, hkept, hmore, ?_⟩
  calc result (keep settings (Selector.parse (text ++ "," ++ other)) nodes) s
      = result (keep settings
          ⟨(Selector.beforeComma text).groups ++ (Selector.parse other).groups⟩ nodes) s := by
        rw [result_keep hwf, result_keep hwf, result_keepGroups_join hloaded _ text other nodes h]
    _ = (do
          let kept ← result (keep settings (Selector.beforeComma text) nodes) s
          let more ← result (keep settings (Selector.parse other) nodes) s
          return (NodeSet.ofList (kept ++ more)).nodes) := by
        rw [keep_append]
        exact result_both (keeps_keep hwf settings _ nodes) (keeps_keep hwf settings _ nodes)
          (determined_keep settings _ nodes) _
    _ = .ok (NodeSet.ofList (kept ++ more)).nodes := by
        rw [hkept, hmore]
        rfl

/-- The space takes the division from what is kept, and the paragraph is kept once. -/
theorem result_keep_join_space :
    ∃ t, Markup.build? .html (.element "div" .empty [.element "p" .empty []]) = .ok t ∧
      Selector.Enclosed (Selector.normalize "p,div ".toList) ∧
      result (keep .default (Selector.parse ("p,div " ++ "," ++ "p")) [1, 2]) { tree := t } =
        .ok [2] := by
  have hnormal : Selector.normalize "p,div ".toList = "p,div".toList := by decide +kernel
  have henclosed : Selector.Enclosed (Selector.normalize "p,div ".toList) := by
    rw [hnormal]
    exact .cons ⟨nofun, nofun⟩ (.cons ⟨nofun, nofun⟩ (.cons ⟨nofun, nofun⟩ .nil))
  have hparse : Selector.beforeComma "p,div " = Selector.parse "p" := by decide +kernel
  have htext : Selector.parse "p" = ⟨[[.descendant, .tag "p"]]⟩ := by decide +kernel
  obtain ⟨t, ht⟩ : ∃ t, Markup.build? .html (.element "div" .empty [.element "p" .empty []]) =
      .ok t := ⟨_, rfl⟩
  have hkeep : result (keep .default (Selector.parse "p") [1, 2]) { tree := t } = .ok [2] := by
    cases ht
    rw [htext]
    simp only [keep, keepGroups, Group.simpleTokens, Token.isCombinator, if_true, narrowAll]
    decide +kernel
  -- What is kept by the two selectors has been computed, so the theorem gives what they keep
  -- together.
  obtain ⟨kept, more, hkept, hmore, hjoin⟩ :=
    result_keep_join (s := { tree := t }) ht .default "p,div " "p" [1, 2] henclosed
  rw [hparse, hkeep] at hkept
  rw [hkeep] at hmore
  cases hkept
  cases hmore
  exact ⟨t, ht, henclosed, hjoin⟩

/-- What the two selectors keep one after the other is not what they keep with a comma between
them. -/
theorem keep_join_ne_union :
    ∃ t, Markup.build? .html (.element "div" .empty [.element "p" .empty []]) = .ok t ∧
      Selector.Enclosed (Selector.normalize "p ".toList) ∧
      result (keep .default (Selector.parse "p ") [1, 2]) { tree := t } = .ok [2] ∧
      result (keep .default (Selector.parse "div") [1, 2]) { tree := t } = .ok [1] ∧
      result (keep .default (Selector.parse ("p " ++ "," ++ "div")) [1, 2]) { tree := t } ≠
        .ok (NodeSet.ofList ([2] ++ [1])).nodes := by
  have hnormal : Selector.normalize "p ".toList = "p".toList := by decide +kernel
  have htext : Selector.parse "p " = ⟨[[.descendant, .tag "p"]]⟩ := by decide +kernel
  have hother : Selector.parse "div" = ⟨[[.descendant, .tag "div"]]⟩ := by decide +kernel
  have hjoin : Selector.parse ("p " ++ "," ++ "div") =
      ⟨[[.descendant, .tag "p", .descendant], [.descendant, .tag "div"]]⟩ := by decide +kernel
  refine ⟨_, rfl, ?_, ?_, ?_, ?_⟩
  · rw [hnormal]
    exact .cons ⟨nofun, nofun⟩ .nil
  · rw [htext]
    simp only [keep, keepGroups, Group.simpleTokens, Token.isCombinator, if_true, narrowAll]
    decide +kernel
  · rw [hother]
    simp only [keep, keepGroups, Group.simpleTokens, Token.isCombinator, if_true, narrowAll]
    decide +kernel
  · rw [hjoin]
    simp only [keep, keepGroups, Group.simpleTokens, Token.isCombinator, if_true, narrowAll]
    decide +kernel

end Query

end TreeQuery
