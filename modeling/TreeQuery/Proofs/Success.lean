import TreeQuery.Cli.Report
import TreeQuery.Proofs.Calls
import TreeQuery.Proofs.CompoundOrder
import TreeQuery.Proofs.MarkupText

/-!
# Searches of loaded documents succeed

Following steps never fails in a tree made of markup, and what it finds are nodes of the tree
(`Query.leads_loaded`). So no search, no filter and no operation on a selection fails there,
whatever the selector and the nodes are: unknown nodes and nodes other than elements lead nowhere. A
run of the program searches the tree of a file, so once its files are loaded it gets to printing
(`Cli.run_eq_print`), and what it has found can be printed (`Cli.print_eq_ok`).
-/

namespace TreeQuery

variable {t : Tree}

namespace Query

/-- What steps lead to are nodes of the tree. -/
theorem lt_size_of_mem_followOn (h : t.Loaded) {steps : List Step} {n e : NodeId}
    (he : e ∈ t.followOn steps n) : e < t.size := by
  have hn := (Tree.mem_followOn.mp he).1
  have hattached := h.attached (Tree.lt_size_of_isElement_or_isDocument hn)
  rw [Tree.followOn_eq hn] at he
  have hstart : ∀ m ∈ [n], t.Attached m := fun m hm => List.mem_singleton.mp hm ▸ hattached
  exact h.toWellFormed.attached_lt_size (h.toWellFormed.attached_follow hstart e he)

/-- In a tree made of markup, a search goes on from nodes of the tree to nodes of the tree, and
nothing stops it. -/
theorem leads_loaded (h : t.Loaded) (settings : Settings) :
    Leads t settings (fun n m => n < t.size → m < t.size) Never where
  refl _ hn := hn
  trans hab hbc ha := hbc (hab ha)
  sibling he _ := Tree.lt_size_of_isElement (List.mem_filter.mp he).2
  followFrom steps n :=
    (meets_followFrom h settings steps n).weaken
      (fun _ hfound _ he _ => lt_size_of_mem_followOn h (hfound ▸ he)) fun _ he => he

/-- A search gives a result and leaves the tree as it was. -/
def Succeeds {α : Type} (q : Query α) (s : Session) : Prop :=
  ∃ a s', q s = .ok a s' ∧ s'.tree = s.tree

/-- A search that nothing stops succeeds. -/
theorem Meets.succeeds {α : Type} {q : Query α} {post : α → Prop} {s : Session}
    (h : Meets s.tree q post Never) : Succeeds q s := by
  obtain ⟨a, s', hq, hs', -⟩ := h.exists_ok rfl
  exact ⟨a, s', hq, hs'⟩

end Query

open Query (Leads Meets Never Succeeds leads_loaded reaches_find subset_keep)

/-! ## The stages of a run -/

namespace Cli

/-- The nodes of a selection are nodes of the tree. -/
def Within (t : Tree) (selection : Selection) : Prop :=
  ∀ n ∈ selection.nodes, n < t.size

/-- A stage has given a selection of nodes of the tree, which it has left as it was. -/
def Passed (t : Tree) (outcome : Except Failure Selection × Session) : Prop :=
  ∃ selection session, outcome = (.ok selection, session) ∧ session.tree = t ∧ Within t selection

/-- A search that nothing stops passes its stage. -/
theorem passed_stage {failure : QueryError → Failure} {query : Query Selection}
    {session : Session} (hsession : session.tree = t) (h : Meets t query (Within t) Never) :
    Passed t (stage failure query session) := by
  obtain ⟨selection, session', hquery, htree, hwithin⟩ := h.exists_ok hsession
  refine ⟨selection, session', ?_, htree, hwithin⟩
  rw [stage, hquery]

/-- A stage that follows others passes if they have, whether it is asked for or not. -/
theorem passed_optionalStage {failure : String → QueryError → Failure}
    {query : String → Selection → Query Selection} (selector? : Option String)
    {outcome : Except Failure Selection × Session}
    (h : ∀ selector selection, Within t selection →
      Meets t (query selector selection) (Within t) Never)
    (hpassed : Passed t outcome) : Passed t (optionalStage failure query selector? outcome) := by
  obtain ⟨selection, session, rfl, htree, hwithin⟩ := hpassed
  cases selector? with
  | none => exact ⟨selection, session, rfl, htree, hwithin⟩
  | some selector => exact passed_stage htree (h selector selection hwithin)

/-- What a selector finds from the document node are nodes of the tree. -/
theorem within_find (h : t.Loaded) (settings : Settings) (selector : String) :
    Meets t (Selection.root.find settings selector) (Within t) Never := by
  refine (reaches_find (leads_loaded h settings) _ _).bind fun found hfound => .pure fun e he => ?_
  obtain ⟨n, hn, hne⟩ := hfound e he
  obtain rfl := List.mem_singleton.mp hn
  exact hne (Tree.lt_size_of_data? h.document)

/-- What a filter keeps of nodes of the tree are nodes of the tree. -/
theorem within_filter (h : t.Loaded) (settings : Settings) (selector : String)
    {selection : Selection} (hwithin : Within t selection) :
    Meets t (selection.filter settings selector) (Within t) Never :=
  (subset_keep (leads_loaded h settings) _ _).bind fun _ hkept =>
    .pure fun e he => hwithin e (hkept he)

/-- What is left of nodes of the tree are nodes of the tree. -/
theorem within_exclude (h : t.Loaded) (settings : Settings) (selector : String)
    {selection : Selection} (hwithin : Within t selection) :
    Meets t (selection.exclude settings selector) (Within t) Never :=
  (subset_keep (leads_loaded h settings) _ _).bind fun _ _ =>
    .pure fun e he => hwithin e ((zipIdx_filter_sublist _ _).subset he)

/-- The document that a run works on has a tree made of markup. -/
theorem loaded_load {read : String → Option String} {file : String} {options : Options}
    {document : Document} (h : load read file options = .ok document) : document.tree.Loaded := by
  unfold load at h
  split at h <;> try cases h
  dsimp only at h
  split at h <;> try cases h
  split at h <;> try cases h
  next hbuild =>
  -- The settings are not needed: whatever they are, the tree is the one that was built.
  have hloaded := Tree.loaded_build? hbuild
  split at h
  · cases h
    exact hloaded
  · split at h <;> try cases h
    split at h <;> cases h
    exact hloaded

/-- A run whose files have been loaded gets to printing, and what it prints are nodes of the tree.
-/
theorem run_eq_print {read : String → Option String} {file : String} {options : Options}
    {document : Document} (h : load read file options = .ok document) (selector : String) :
    ∃ selection, Within document.tree selection ∧
      (run read file selector options).result = print document.tree options selection := by
  -- Each stage passes on nodes of the same tree, as those before it have left the tree alone.
  have hloaded := loaded_load h
  have hfound : Passed document.tree
      (stage (Failure.searching selector) (document.find selector) (document.session .none)) :=
    passed_stage rfl (within_find hloaded document.settings selector)
  have hfiltered : Passed document.tree
      (optionalStage .filtering (Selection.filter document.settings) options.filter
        (stage (Failure.searching selector) (document.find selector) (document.session .none))) :=
    passed_optionalStage _ (fun _ _ => within_filter hloaded document.settings _) hfound
  obtain ⟨selection, session, houtcome, htree, hwithin⟩ :
      Passed document.tree (optionalStage .excluding (Selection.exclude document.settings)
        options.exclude (optionalStage .filtering (Selection.filter document.settings)
          options.filter (stage (Failure.searching selector) (document.find selector)
            (document.session .none)))) :=
    passed_optionalStage _ (fun _ _ => within_exclude hloaded document.settings _) hfiltered
  refine ⟨selection, hwithin, ?_⟩
  unfold run
  rw [h]
  dsimp only
  rw [houtcome, htree]
  rfl

/-- Nodes of a well-formed tree can be printed, as lines and as JSON. -/
theorem print_eq_ok (h : t.WellFormed) {selection : Selection} (hwithin : Within t selection)
    (options : Options) : ∃ text, print t options selection = .ok text := by
  unfold print
  split_ifs
  · obtain ⟨pieces, hpieces⟩ :=
      Markup.exists_allCarry fun n hn => Markup.exists_carries h (hwithin n hn)
    have hexport : selection.nodes.mapM t.markup? = .ok pieces :=
      hpieces.mapM_markupWithin?_eq h fun n _ => by omega
    rw [printJson, hexport]
    exact ⟨_, rfl⟩
  · exact ⟨_, rfl⟩

end Cli

/-- Searches of a tree made of markup succeed: finding and keeping, every operation on a selection
and every test of one, whatever the settings, the selector and the nodes are, and whatever warnings
have been given. So a run of the program whose files have been loaded gets through its selectors to
printing, and succeeds. -/
theorem Document.searches_succeed :
    (∀ (flavour : Flavour) (markup : Markup) (settings : Settings) (s : Session),
      markup.build? flavour = .ok s.tree →
        (∀ (selector : String) (nodes : List NodeId),
          Succeeds (Query.find settings (Selector.parse selector) nodes) s ∧
            Succeeds (Query.keep settings (Selector.parse selector) nodes) s) ∧
          ∀ selection : Selection,
            (∀ call : Selection.Call, Succeeds (call.run settings selection) s) ∧
              ∀ selector : String, Succeeds (selection.isAny settings selector) s) ∧
      ∀ (read : String → Option String) (file selector : String) (options : Cli.Options)
        (document : Document), Cli.load read file options = .ok document →
          ∃ selection text, Cli.Within document.tree selection ∧
            Cli.print document.tree options selection = .ok text ∧
            (Cli.run read file selector options).result = .ok text := by
  refine ⟨fun flavour markup settings s hbuild => ?_, ?_⟩
  · have hleads := leads_loaded (Tree.loaded_build? hbuild) settings
    refine ⟨fun selector nodes => ⟨?_, ?_⟩, fun selection => ⟨fun call => ?_, fun selector => ?_⟩⟩
    -- Following steps meets no error in such a tree, and nothing else could stop these runs.
    · exact (reaches_find hleads _ nodes).succeeds
    · exact (subset_keep hleads _ nodes).succeeds
    · exact (call.stopsOnly_run hleads selection).succeeds
    · exact (Selection.stopsOnly_isAny hleads selector selection).succeeds
  · intro read file selector options document h
    obtain ⟨selection, hwithin, hresult⟩ := Cli.run_eq_print h selector
    obtain ⟨text, hprint⟩ :=
      Cli.print_eq_ok (Cli.loaded_load h).toWellFormed hwithin options
    exact ⟨selection, text, hwithin, hprint, hresult.trans hprint⟩

/-- For one, a malformed selector and a list with a text and an unknown node; and a run with three
selectors on a file that holds a paragraph. -/
theorem Document.searches_succeed_malformed :
    let markup := Markup.element "p" .empty [.text "a"]
    let read := fun _ : String => some markup.toJson.compact
    let options : Cli.Options := { filter := some ":nth-child(", exclude := some "div" }
    (∃ t, markup.build? .html = .ok t ∧
      Succeeds (Query.find .default (Selector.parse "p:has(:not([") [2, 9]) { tree := t }) ∧
      ∃ document, Cli.load read "page.json" options = .ok document ∧
        ∃ text, (Cli.run read "page.json" "p" options).result = .ok text := by
  intro markup read options
  constructor
  · obtain ⟨t, ht⟩ : ∃ t, markup.build? .html = .ok t := ⟨_, rfl⟩
    exact ⟨t, ht, ((searches_succeed.1 _ _ .default { tree := t } ht).1 _ _).1⟩
  · have hread : Markup.read? markup.toJson.compact = some markup := by
      rw [Markup.read?_compact, Markup.nesting_compact]
      rfl
    obtain ⟨document, hdocument⟩ :
        ∃ document, Cli.load read "page.json" options = .ok document := by
      simp only [Cli.load, read, hread]
      exact ⟨_, rfl⟩
    obtain ⟨selection, text, -, -, hresult⟩ := searches_succeed.2 _ _ "p" _ _ hdocument
    exact ⟨document, hdocument, text, hresult⟩

end TreeQuery
