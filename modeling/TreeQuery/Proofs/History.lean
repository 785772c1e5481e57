import TreeQuery.Document
import TreeQuery.Proofs.Calls

/-!
# Histories of selections

An operation on a selection either goes back in its history or puts one selection more on top of it,
whose nodes are different from one another if those of the selection at hand are
(`Call.gives_run`). So however a selection is started and whatever is done with it afterwards, no
selection of its history lists a node twice, and going back from what an operation has given returns
to the selection that the operation was applied to, with all that lies behind it
(`history_of_run`).
-/

namespace TreeQuery

namespace Query

variable {α β : Type} {mid post : α → Prop}

/-- Whatever session a search is run in, a result is as `post` says. -/
def Gives (q : Query α) (post : α → Prop) : Prop :=
  ∀ (s s' : Session) (a : α), q s = .ok a s' → post a

/-- Whatever a query gives, nothing is claimed of it. -/
theorem Gives.any (q : Query α) : Gives q fun _ => True :=
  fun _ _ _ _ => trivial

/-- A query that gives a value gives what holds for the value. -/
theorem Gives.pure {a : α} (h : post a) : Gives (Pure.pure a) post := by
  intro s s' b hb
  cases hb
  exact h

/-- A chain of two steps gives what the second gives after the first. -/
theorem Gives.bind {q : Query α} {f : α → Query β} {post : β → Prop} (hq : Gives q mid)
    (hf : ∀ a, mid a → Gives (f a) post) : Gives (q >>= f) post := by
  intro s s' b hb
  simp only [Bind.bind, EStateM.bind] at hb
  cases hr : q s with
  | ok a s₁ =>
    rw [hr] at hb
    exact hf a (hq s s₁ a hr) s₁ s' b hb
  | error e s₁ =>
    rw [hr] at hb
    cases hb

/-- A search finds no node twice. -/
theorem nodup_find (settings : Settings) (selector : Selector) (nodes : List NodeId) :
    Gives (find settings selector nodes) List.Nodup :=
  (Gives.any _).bind fun _ _ => .pure (NodeSet.nodup _)

/-- A filter keeps no node twice, also of a list that repeats nodes. -/
theorem nodup_keep (settings : Settings) (selector : Selector) (nodes : List NodeId) :
    Gives (keep settings selector nodes) List.Nodup :=
  (Gives.any _).bind fun _ _ => .pure (NodeSet.nodup _)

end Query

namespace Selection

open Query (Gives nodup_find nodup_keep)

/-! ## Selections behind a selection -/

/-- A selection and those behind it, the latest first. -/
def history : Selection → List Selection
  | start nodes => [start nodes]
  | derived nodes backup previous => derived nodes backup previous :: previous.history

/-- A selection lists each node once, and its backup is what it was derived from. -/
structure Sound (selection : Selection) : Prop where
  /-- No node is listed twice. -/
  nodup : selection.nodes.Nodup
  /-- Where nothing lies behind the selection, there is no backup. -/
  backup_start : selection.previous? = none → selection.backup = []
  /-- Otherwise the backup holds the nodes of the selection behind it. -/
  backup_derived : ∀ previous, selection.previous? = some previous →
    selection.backup = previous.nodes

/-- Every selection of a history is sound. -/
def Kept (selection : Selection) : Prop :=
  ∀ earlier ∈ selection.history, earlier.Sound

/-- A selection comes first in its history. -/
theorem mem_history_self (selection : Selection) : selection ∈ selection.history := by
  cases selection with
  | start nodes => exact List.mem_singleton_self _
  | derived nodes backup previous => exact List.mem_cons_self

/-- The nodes of a selection whose history is sound are different. -/
theorem Kept.nodup {selection : Selection} (h : selection.Kept) : selection.nodes.Nodup :=
  (h selection selection.mem_history_self).nodup

/-- A selection without a history is sound if its nodes are different. -/
theorem kept_start {nodes : List NodeId} (h : nodes.Nodup) : (start nodes).Kept := by
  intro earlier hearlier
  rw [List.mem_singleton.mp hearlier]
  exact ⟨h, fun _ => rfl, fun _ hprevious => nomatch hprevious⟩

/-- Putting different nodes on top of a sound history makes a sound history. -/
theorem Kept.derive {selection : Selection} (h : selection.Kept) {nodes : List NodeId}
    (hnodes : nodes.Nodup) : (selection.derive nodes).Kept := by
  intro earlier hearlier
  rcases List.mem_cons.mp hearlier with rfl | hbehind
  · refine ⟨hnodes, fun hnone => (nomatch hnone), fun previous hprevious => ?_⟩
    rw [← Option.some.inj hprevious]
    rfl
  · exact h earlier hbehind

/-- Going back in a sound history leads to a sound history. -/
theorem Kept.back {selection : Selection} (h : selection.Kept) : selection.back.Kept := by
  cases selection with
  | start nodes => exact h
  | derived nodes backup previous =>
    exact fun earlier hearlier => h earlier (List.mem_cons_of_mem _ hearlier)

/-! ## One operation -/

/-- A selection has been put on top of another, and lists each of its nodes once. -/
def Follows (selection next : Selection) : Prop :=
  ∃ nodes, nodes.Nodup ∧ next = selection.derive nodes

variable {selection : Selection} {settings : Settings}

/-- A selection that is derived comes next in the history. -/
theorem follows_derive {nodes : List NodeId} (h : nodes.Nodup) :
    selection.Follows (selection.derive nodes) :=
  ⟨nodes, h, rfl⟩

/-- A part of the selected nodes has no repetition if they have none. -/
theorem follows_sublist {nodes : List NodeId} (h : selection.nodes.Nodup)
    (hsub : nodes.Sublist selection.nodes) : selection.Follows (selection.derive nodes) :=
  follows_derive (h.sublist hsub)

/-- Refining different nodes puts different nodes on top. -/
theorem gives_refine (selector? : Option String) {found : List NodeId} (h : found.Nodup) :
    Gives (selection.refine settings selector? found) selection.Follows := by
  unfold refine
  split
  · split_ifs
    · exact .pure (follows_derive h)
    · exact (nodup_keep settings _ found).bind fun _ hkept => .pure (follows_derive hkept)
  · exact .pure (follows_derive h)

/-- A walk collects each node that it meets once. -/
theorem gives_walk (step : Tree → NodeId → List NodeId) (selector? : Option String) :
    Gives (selection.walk settings step selector?) selection.Follows :=
  (Gives.any _).bind fun _ _ => gives_refine selector? (NodeSet.nodup _)

/-- Every operation other than going back puts one selection on top of the selection at hand. -/
theorem Call.gives_run (settings : Settings) (call : Call) (hcall : call ≠ .back)
    (h : selection.nodes.Nodup) : Gives (call.run settings selection) selection.Follows := by
  cases call with
  | back => exact absurd rfl hcall
  -- What a selector finds or keeps is a set of nodes.
  | find selector =>
    exact (nodup_find settings _ _).bind fun _ hfound => .pure (follows_derive hfound)
  | findFrom selector context =>
    exact (nodup_find settings _ context).bind fun _ hfound => .pure (follows_derive hfound)
  | add selector =>
    rw [run, Selection.add]
    split_ifs
    · exact .pure (follows_derive h)
    · exact (Gives.any _).bind fun _ _ => .pure (follows_derive (NodeSet.nodup _))
  | filter selector =>
    exact (nodup_keep settings _ _).bind fun _ hkept => .pure (follows_derive hkept)
  -- The operations on places and lists keep a part of the selected nodes.
  | filterBy test => exact .pure (follows_sublist h (zipIdx_filter_sublist _ _))
  | without nodes => exact .pure (follows_sublist h (zipIdx_filter_sublist _ _))
  | exclude selector =>
    exact (Gives.any _).bind fun _ _ => .pure (follows_sublist h (zipIdx_filter_sublist _ _))
  | nth place =>
    exact .pure (follows_sublist h (toList_sublist_of_mem fun _ => List.mem_of_getElem?))
  | first =>
    exact .pure (follows_sublist h (toList_sublist_of_mem fun _ => List.mem_of_head?))
  | last =>
    exact .pure (follows_sublist h (toList_sublist_of_mem fun _ => List.mem_of_getLast?))
  | slice lower upper => exact .pure (follows_sublist h (piece_sublist _ _ _))
  | reverse => exact .pure (follows_derive (List.nodup_reverse.mpr h))
  -- The walks collect nodes in a set.
  | contents => exact (Gives.any _).bind fun _ _ => .pure (follows_derive (NodeSet.nodup _))
  | siblings selector? =>
    exact (Gives.any _).bind fun _ _ => gives_refine selector? (NodeSet.nodup _)
  | children selector? => exact gives_walk _ selector?
  | parent selector? => exact gives_walk _ selector?
  | parents selector? => exact gives_walk _ selector?
  | next selector? => exact gives_walk _ selector?
  | prev selector? => exact gives_walk _ selector?
  | nextAll selector? => exact gives_walk _ selector?
  | prevAll selector? => exact gives_walk _ selector?
  | andBack => exact .pure (follows_derive (NodeSet.nodup _))

/-- One operation keeps a history sound. -/
theorem Kept.run (h : selection.Kept) (call : Call) :
    Gives (call.run settings selection) Kept := by
  by_cases hcall : call = .back
  · rw [hcall]
    exact .pure h.back
  · intro s s' next hnext
    obtain ⟨nodes, hnodes, rfl⟩ := call.gives_run settings hcall h.nodup s s' next hnext
    exact h.derive hnodes

/-! ## Runs -/

/-- The ways to start a selection. -/
inductive Start where
  /-- From the document node. -/
  | root
  /-- From the nodes of a list. -/
  | ofNodes (nodes : List NodeId)
  /-- From what a selector finds in the document. -/
  | find (selector : String)

/-- Starts a selection in a document. -/
def Start.run (document : Document) : Start → Query Selection
  | root => return Selection.root
  | ofNodes nodes => return Selection.ofNodes nodes
  | find selector => document.find selector

/-- The selection and the session after operations, one after the other. An operation that stops
with an error leaves the selection as it was. -/
def runAll (settings : Settings) : List Call → Selection → Session → Selection × Session
  | [], selection, s => (selection, s)
  | call :: calls, selection, s =>
    match call.run settings selection s with
    | .ok next s => runAll settings calls next s
    | .error _ s => runAll settings calls selection s

/-- A selection has a sound history from its start. -/
theorem kept_of_start (document : Document) (start : Start) : Gives (start.run document) Kept := by
  have hroot : Selection.root.Kept := kept_start (List.nodup_singleton _)
  cases start with
  | root => exact .pure hroot
  | ofNodes nodes => exact .pure (kept_start (NodeSet.nodup _))
  -- Searching the document is an operation on the selection of its document node.
  | find selector => exact hroot.run (.find selector)

/-- Operations keep a history sound, whether they succeed or stop with an error. -/
theorem Kept.runAll (calls : List Call) (h : selection.Kept) (s : Session) :
    (selection.runAll settings calls s).1.Kept := by
  induction calls generalizing selection s with
  | nil => exact h
  | cons call calls ih =>
    rw [Selection.runAll]
    cases hnext : call.run settings selection s with
    | ok next s' => exact ih (h.run call s s' next hnext) s'
    | error e s' => exact ih h s'

/-- Wherever operations on a started selection have led to, every selection of the history lists
each node once, and its backup is what the selection behind it lists, or nothing if there is none
behind it. One more operation, in whatever session, puts a selection on top of the history. Going
back from there gives the selection that it was applied to, with its nodes, its backup and its whole
history. -/
theorem history_of_run (document : Document) (start : Start) (calls : List Call)
    {s s' : Session} {first : Selection} (hstart : start.run document s = .ok first s') :
    let reached := (first.runAll document.settings calls s').1
    (∀ selection ∈ reached.history, selection.Sound) ∧
      ∀ (call : Call) (next : Selection) (now after : Session), call ≠ .back →
        call.run document.settings reached now = .ok next after →
          next.back = reached ∧ next.backup = reached.nodes ∧
            next.history = next :: reached.history := by
  intro reached
  have hkept : reached.Kept := (kept_of_start document start s s' first hstart).runAll calls s'
  refine ⟨hkept, fun call next now after hcall hnext => ?_⟩
  obtain ⟨nodes, -, rfl⟩ :=
    call.gives_run document.settings hcall hkept.nodup now after next hnext
  exact ⟨rfl, rfl, rfl⟩

/-- For one, a start from a list that repeats a node, a walk to the parents, a step back and a walk
to the children; then turning the order round. -/
theorem history_of_run_repeated :
    let document := Document.ofTree (Edit.run (.empty .html)
      [.createElement "div" [], .createElement "p" [], .createElement "p" [], .append 0 1,
        .append 1 2, .append 1 3])
    let session := document.session .none
    let reached := ((ofNodes [2, 1, 2]).runAll document.settings
      [.parent none, .back, .children none] session).1
    reached = (ofNodes [2, 1]).derive [2, 3] ∧ (∀ selection ∈ reached.history, selection.Sound) ∧
      reached.reverse.nodes = [3, 2] ∧ reached.reverse.back = reached ∧
        reached.reverse.history = reached.reverse :: reached.history := by
  intro document session reached
  obtain ⟨hsound, hnext⟩ := history_of_run document (.ofNodes [2, 1, 2])
    [.parent none, .back, .children none] (s := session) rfl
  have hreverse := hnext .reverse reached.reverse session session nofun rfl
  exact ⟨rfl, hsound, rfl, hreverse.1, hreverse.2.2⟩

end Selection

end TreeQuery
