import TreeQuery.Proofs.History
import TreeQuery.Proofs.Pointwise
import TreeQuery.Proofs.Slices

/-!
# Pseudo-classes that complete each other

What a pseudo-class keeps is a part of the list in the order of the list, whatever is found by the
selector in its argument (`Query.gives_sublist_narrow`). Some pseudo-classes come in pairs that
share out the places of a list: `:even` and `:odd`, `:lt` and `:gt`, `:parent` and `:empty`, and,
where there are only elements, `:enabled` and `:disabled`. `:lt` and `:gt` turn their argument into
the end of one piece and the start of another, by rules of their own for negative numbers and for
numbers outside the list, and yet both are the same place (`stopOf_zero`).
-/

namespace TreeQuery

open Bounded PseudoClass

variable {nodes kept : List NodeId}

/-! ## Places that are shared out -/

/-- Each place of a list is in one of two parts, which keep the order of the list. -/
def Shared (nodes kept others : List NodeId) : Prop :=
  ∃ test : Nat → Bool,
    kept = keepPlaces test nodes ∧ others = keepPlaces (fun place => !test place) nodes

/-- Only the places of the list count. -/
theorem keepPlaces_congr {test test' : Nat → Bool}
    (h : ∀ place < nodes.length, test place = test' place) :
    keepPlaces test nodes = keepPlaces test' nodes := by
  have hfilter : nodes.zipIdx.filter (fun entry => test entry.2) =
      nodes.zipIdx.filter fun entry => test' entry.2 :=
    List.filter_congr fun entry hentry => h entry.2 (List.mem_zipIdx' hentry).1
  rw [keepPlaces, hfilter, keepPlaces]

/-- The nodes that pass a test are those at the places of such nodes. -/
theorem keepPlaces_eq_filter (test : NodeId → Bool) (nodes : List NodeId) :
    keepPlaces (fun place => nodes[place]?.any test) nodes = nodes.filter test := by
  have hplaces : (nodes.zipIdx.filter fun entry => nodes[entry.2]?.any test) =
      nodes.zipIdx.filter (test ∘ Prod.fst) :=
    List.filter_congr fun entry hentry => by
      rw [List.mem_zipIdx_iff_getElem?.mp hentry, Option.any_some, Function.comp_apply]
  rw [keepPlaces, hplaces, ← List.filter_map, List.zipIdx_map_fst]

/-- The nodes that pass a test and those that do not share out the places. -/
theorem shared_filter (test : NodeId → Bool) (nodes : List NodeId) :
    Shared nodes (nodes.filter test) (nodes.filter fun n => !test n) := by
  refine ⟨fun place => nodes[place]?.any test, (keepPlaces_eq_filter test nodes).symm, ?_⟩
  rw [← keepPlaces_eq_filter]
  refine keepPlaces_congr fun place hplace => ?_
  simp only [List.getElem?_eq_getElem hplace, Option.any_some]

/-- The nodes in front of a place and the rest share out the places. -/
theorem shared_take_drop (place : Nat) (nodes : List NodeId) :
    Shared nodes (nodes.take place) (nodes.drop place) := by
  have hfront := nodesBetween_eq 0 place nodes
  have hback := nodesBetween_eq place nodes.length nodes
  rw [List.drop_zero, Nat.sub_zero] at hfront
  rw [← List.length_drop, List.take_length] at hback
  refine ⟨fun k => decide (k < place), ?_, ?_⟩
  · rw [← hfront]
    exact keepPlaces_congr fun k _ => by simp
  · rw [← hback]
    exact keepPlaces_congr fun k hk => by simp [hk, ← decide_not]

/-- A piece from the start ends at the place of its count. -/
theorem stopOf_zero (length : Nat) (i : Int) : stopOf length 0 (some i) = placeOf length i := by
  rw [stopOf, placeOf]
  split_ifs
  · omega
  · omega

namespace Query

variable {settings : Settings} {s s' : Session} {argument : Option String}

/-! ## A part of the list -/

/-- What a filter gives is a part of the list. -/
theorem gives_sublist_filter (test : NodeId → Query Bool) (nodes : List NodeId) :
    Gives (Query.filter test nodes) fun kept => kept.Sublist nodes := by
  induction nodes with
  | nil => exact .pure (.refl [])
  | cons n rest ih =>
    rw [Query.filter]
    refine (Gives.any (test n)).bind fun passed _ => ?_
    split_ifs
    · exact ih.bind fun kept hkept => .pure (hkept.cons_cons n)
    · exact fun s s' kept hkept => (ih s s' kept hkept).cons n

/-- What a pseudo-class gives is a part of the list. -/
theorem gives_sublist_narrow (settings : Settings) (name : String) (argument : Option String)
    (nodes : List NodeId) :
    Gives (narrow settings name argument nodes) fun kept => kept.Sublist nodes := by
  rw [narrow]
  split
  -- The kinds of pseudo-classes: unknown, `:not`, `:has`, `:nth-child`, and those that look at the
  -- places or at single nodes.
  · exact (Gives.any _).bind fun _ _ => .pure (.refl nodes)
  · exact (Gives.any _).bind fun _ _ => .pure List.filter_sublist
  · exact gives_sublist_filter _ nodes
  · unfold keepNthChild
    split_ifs
    · exact .pure (.refl nodes)
    · split
      · exact (Gives.any _).bind fun _ _ => .pure (.refl nodes)
      · exact (Gives.any _).bind fun _ _ => .pure List.filter_sublist
  · split
    · next hplace => exact .pure (byPlace?_sublist hplace)
    · exact (Gives.any _).bind fun _ _ => .pure List.filter_sublist

/-! ## Single pseudo-classes -/

/-- `:lt` keeps the nodes in front of a place. -/
theorem narrow_lt (hlength : nodes.length < 2 ^ 63) (settings : Settings)
    (argument : Option String) :
    narrow settings "lt" argument nodes = pure (nodes.take (placeOf nodes.length
      (saturatingAdd (read (argumentOf argument)) 1).toInt)) := by
  have hpiece := piece_eq hlength 0 (some (saturatingAdd (read (argumentOf argument)) 1))
  have hzero : (0 : Int64).toInt = 0 := rfl
  have hstart : placeOf nodes.length 0 = 0 := by
    rw [placeOf]
    omega
  rw [hzero, hstart, List.drop_zero, Option.map_some, stopOf_zero, Nat.sub_zero] at hpiece
  have hname : PseudoClass.ofName? "lt" = some .lt := rfl
  rw [narrow, hname, ← hpiece]
  rfl

/-- `:gt` keeps the nodes from the same place on. -/
theorem narrow_gt (hlength : nodes.length < 2 ^ 63) (settings : Settings)
    (argument : Option String) :
    narrow settings "gt" argument nodes = pure (nodes.drop (placeOf nodes.length
      (saturatingAdd (read (argumentOf argument)) 1).toInt)) := by
  have hpiece := piece_eq hlength (saturatingAdd (read (argumentOf argument)) 1) none
  rw [Option.map_none, stopOf, ← List.length_drop, List.take_length] at hpiece
  have hname : PseudoClass.ofName? "gt" = some .gt := rfl
  rw [narrow, hname, ← hpiece]
  rfl

/-- `:not` keeps the nodes that its selector does not keep. -/
theorem narrow_not {selector : Selector}
    (hselector : selector = Selector.parse (String.ofList (argumentOf argument)))
    (hkept : keep settings selector nodes s = .ok kept s') :
    narrow settings "not" argument nodes s =
      .ok (nodes.filter fun n => !kept.contains n) s' := by
  have hname : PseudoClass.ofName? "not" = some .not := rfl
  rw [narrow, hname, ← hselector]
  simp only [keep, Bind.bind, EStateM.bind] at hkept ⊢
  cases hgroups : keepGroups settings selector.groups nodes s with
  | error e s₁ =>
    rw [hgroups] at hkept
    cases hkept
  | ok found s₁ =>
    rw [hgroups] at hkept
    cases hkept
    -- Each node is listed once, and what counts here is whether it is listed.
    refine congrArg (EStateM.Result.ok · _) (List.filter_congr fun n _ => congrArg not ?_)
    exact (NodeSet.contains_nodes_ofList found n).symm

/-! ## Pairs -/

/-- In a session, two pseudo-classes share out the places of a list. -/
def Complementary (settings : Settings) (s : Session) (argument : Option String)
    (nodes : List NodeId) (name other : String) : Prop :=
  ∃ kept others, narrow settings name argument nodes s = .ok kept s ∧
    narrow settings other argument nodes s = .ok others s ∧ Shared nodes kept others

/-- The even and the odd places share out the list. -/
theorem complementary_even_odd (settings : Settings) (s : Session) (argument : Option String)
    (nodes : List NodeId) : Complementary settings s argument nodes "even" "odd" := by
  have heven : PseudoClass.ofName? "even" = some .even := rfl
  have hodd : PseudoClass.ofName? "odd" = some .odd := rfl
  refine ⟨keepPlaces (· % 2 == 0) nodes, keepPlaces (· % 2 == 1) nodes, ?_, ?_, _, rfl, ?_⟩
  · rw [narrow, heven]
    rfl
  · rw [narrow, hodd]
    rfl
  · refine keepPlaces_congr fun place _ => ?_
    obtain hplace | hplace := Nat.mod_two_eq_zero_or_one place
    · simp [hplace]
    · simp [hplace]

/-- `:lt` and `:gt` part a list at one place. -/
theorem exists_narrow_lt_gt (hlength : nodes.length < 2 ^ 63) (settings : Settings)
    (argument : Option String) (s : Session) :
    ∃ place, narrow settings "lt" argument nodes s = .ok (nodes.take place) s ∧
      narrow settings "gt" argument nodes s = .ok (nodes.drop place) s := by
  refine ⟨placeOf nodes.length (saturatingAdd (read (argumentOf argument)) 1).toInt, ?_, ?_⟩
  · rw [narrow_lt hlength]
    rfl
  · rw [narrow_gt hlength]
    rfl

/-- Two pseudo-classes that look at nothing but single nodes share out the places if of each node
one of them holds and the other does not. -/
theorem complementary_of_not {name other : String} {pseudoClass complement : PseudoClass}
    (hname : ∀ nodes, narrow settings name argument nodes = do
      let t ← tree
      return nodes.filter fun n => pseudoClass.holds settings t (argumentOf argument) n)
    (hother : ∀ nodes, narrow settings other argument nodes = do
      let t ← tree
      return nodes.filter fun n => complement.holds settings t (argumentOf argument) n)
    (hnot : ∀ n ∈ nodes, complement.holds settings s.tree (argumentOf argument) n =
      !pseudoClass.holds settings s.tree (argumentOf argument) n) :
    Complementary settings s argument nodes name other := by
  refine ⟨nodes.filter fun n => pseudoClass.holds settings s.tree (argumentOf argument) n,
    nodes.filter fun n => !pseudoClass.holds settings s.tree (argumentOf argument) n, ?_, ?_,
    shared_filter _ nodes⟩
  -- The first keeps the nodes of which it holds, and the second those of which the first does not
  -- hold.
  · rw [hname]
    rfl
  · rw [hother, ← List.filter_congr hnot]
    rfl

/-- The nodes with children and the others share out the list. -/
theorem complementary_parent_empty (settings : Settings) (s : Session) (argument : Option String)
    (nodes : List NodeId) : Complementary settings s argument nodes "parent" "empty" := by
  have hparent : PseudoClass.ofName? "parent" = some .parent := rfl
  have hempty : PseudoClass.ofName? "empty" = some .empty := rfl
  refine complementary_of_not (narrow_of_single hparent rfl settings argument)
    (narrow_of_single hempty rfl settings argument) fun n _ => ?_
  simp [PseudoClass.holds]

/-- Among elements, the disabled ones and the others share out the list. -/
theorem complementary_enabled_disabled (helements : ∀ n ∈ nodes, s.tree.isElement n = true)
    (settings : Settings) (argument : Option String) :
    Complementary settings s argument nodes "enabled" "disabled" := by
  have henabled : PseudoClass.ofName? "enabled" = some .enabled := rfl
  have hdisabled : PseudoClass.ofName? "disabled" = some .disabled := rfl
  refine complementary_of_not (narrow_of_single henabled rfl settings argument)
    (narrow_of_single hdisabled rfl settings argument) fun n hn => ?_
  simp [PseudoClass.holds, helements n hn]

/-- What a pseudo-class keeps is a part of the list in its order. Of a pair of complementary
pseudo-classes each keeps the places that the other does not, `:lt` keeps the nodes in front of a
place and `:gt` the rest, and `:not` keeps the nodes that its selector does not keep. The number of
nodes is one of 64 bits with a sign, as it is of any list that memory holds. -/
theorem narrow_complementary (settings : Settings) (s : Session) (nodes : List NodeId) :
    (∀ name argument kept s', narrow settings name argument nodes s = .ok kept s' →
      kept.Sublist nodes) ∧
    (∀ argument, Complementary settings s argument nodes "even" "odd" ∧
      Complementary settings s argument nodes "parent" "empty" ∧
      ((∀ n ∈ nodes, s.tree.isElement n = true) →
        Complementary settings s argument nodes "enabled" "disabled") ∧
      (nodes.length < 2 ^ 63 → Complementary settings s argument nodes "lt" "gt" ∧ ∃ place,
        narrow settings "lt" argument nodes s = .ok (nodes.take place) s ∧
          narrow settings "gt" argument nodes s = .ok (nodes.drop place) s)) ∧
    (∀ argument kept s',
      keep settings (Selector.parse (String.ofList (argumentOf argument))) nodes s = .ok kept s' →
        narrow settings "not" argument nodes s =
          .ok (nodes.filter fun n => !kept.contains n) s') := by
  refine ⟨fun name argument kept s' hok => gives_sublist_narrow settings name argument nodes s s'
    kept hok, fun argument => ⟨complementary_even_odd settings s argument nodes,
      complementary_parent_empty settings s argument nodes,
      fun helements => complementary_enabled_disabled helements settings argument,
      fun hlength => ?_⟩,
    fun argument kept s' hkept => narrow_not rfl hkept⟩
  -- `:lt` and `:gt` part the list at the same place.
  obtain ⟨place, hlt, hgt⟩ := exists_narrow_lt_gt hlength settings argument s
  exact ⟨⟨_, _, hlt, hgt, shared_take_drop place nodes⟩, place, hlt, hgt⟩

/-- Two input fields, the first of which is disabled, of a class each. -/
def fields : Tree :=
  Edit.run (.empty .html)
    [.createElement "input" [("class", "a"), ("disabled", "")],
      .createElement "input" [("class", "b")]]

/-- For one, of the two fields the second is enabled and the first is disabled, `:lt(-2)` and
`:gt(-2)` part them, and the second is not of the class of the first. -/
theorem narrow_complementary_fields :
    (∀ n ∈ [1, 2], fields.isElement n = true) ∧ ([1, 2] : List NodeId).length < 2 ^ 63 ∧
      keep .default (Selector.parse (String.ofList (argumentOf (some " '.a' ")))) [1, 2]
        { tree := fields } = .ok [1] { tree := fields } ∧
      Complementary .default { tree := fields } none [1, 2] "enabled" "disabled" ∧
      Complementary .default { tree := fields } (some "-2") [1, 2] "lt" "gt" ∧
      narrow .default "not" (some " '.a' ") [1, 2] { tree := fields } =
        .ok [2] { tree := fields } := by
  -- Both fields are elements, and the selector in quotes keeps the first of them.
  have helements : ∀ n ∈ [1, 2], fields.isElement n = true := by decide +kernel
  have hlength : ([1, 2] : List NodeId).length < 2 ^ 63 := by decide
  have hparse : Selector.parse (String.ofList (argumentOf (some " '.a' "))) =
      ⟨[[.descendant, .classes "a"]]⟩ := by decide +kernel
  have hkept : keep .default (Selector.parse (String.ofList (argumentOf (some " '.a' ")))) [1, 2]
      { tree := fields } = .ok [1] { tree := fields } := by
    rw [hparse]
    simp only [keep, keepGroups, Group.simpleTokens, Token.isCombinator, if_true, narrowAll]
    rfl
  obtain ⟨-, hpairs, hnot⟩ := narrow_complementary .default { tree := fields } [1, 2]
  exact ⟨helements, hlength, hkept, (hpairs none).2.2.1 helements,
    ((hpairs (some "-2")).2.2.2 hlength).1, hnot _ _ _ hkept⟩

end Query

end TreeQuery
