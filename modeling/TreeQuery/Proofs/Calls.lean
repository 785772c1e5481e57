import TreeQuery.Proofs.Frame
import TreeQuery.Proofs.Reachable
import TreeQuery.Selection

/-!
# Calls on selections

`Selection.Call` lists the operations that derive a selection from a selection, and `Call.run` runs
one of them. What stops a step of a search is all that stops them (`Call.stopsOnly_run`). None of
them changes the tree, and neither does a test whether a selector keeps any node
(`tree_after_call`).
-/

namespace TreeQuery.Selection

/-- An operation that derives a selection from a selection. -/
inductive Call where
  /-- Search from the selected nodes. -/
  | find (selector : String)
  /-- Search from other nodes. -/
  | findFrom (selector : String) (context : List NodeId)
  /-- Add what is found in the document. -/
  | add (selector : String)
  /-- Keep the nodes that a selector keeps. -/
  | filter (selector : String)
  /-- Keep the nodes that pass a test. -/
  | filterBy (test : Nat → NodeId → Bool)
  /-- Drop the nodes of a list. -/
  | without (nodes : List NodeId)
  /-- Drop the nodes that a selector keeps. -/
  | exclude (selector : String)
  /-- Keep the node at a place. -/
  | nth (place : Nat)
  /-- Keep the first node. -/
  | first
  /-- Keep the last node. -/
  | last
  /-- Keep the nodes from one index up to another. -/
  | slice (lower : Int64) (upper : Option Int64)
  /-- Turn the order round. -/
  | reverse
  /-- Go to the children that are elements. -/
  | children (selector? : Option String)
  /-- Go to all children. -/
  | contents
  /-- Go to the parents. -/
  | parent (selector? : Option String)
  /-- Go to the ancestors. -/
  | parents (selector? : Option String)
  /-- Go to the element siblings. -/
  | siblings (selector? : Option String)
  /-- Go to the next element siblings. -/
  | next (selector? : Option String)
  /-- Go to the previous element siblings. -/
  | prev (selector? : Option String)
  /-- Go to the later element siblings. -/
  | nextAll (selector? : Option String)
  /-- Go to the earlier element siblings. -/
  | prevAll (selector? : Option String)
  /-- Go back in the history. -/
  | back
  /-- Add the nodes of the selection before. -/
  | andBack

/-- Runs an operation on a selection. -/
def Call.run (settings : Settings) (call : Call) (selection : Selection) : Query Selection :=
  match call with
  | find selector => selection.find settings selector
  | findFrom selector context => selection.findFrom settings selector context
  | add selector => selection.add settings selector
  | filter selector => selection.filter settings selector
  | filterBy test => return selection.filterBy test
  | without nodes => return selection.without nodes
  | exclude selector => selection.exclude settings selector
  | nth place => return selection.nth place
  | first => return selection.first
  | last => return selection.last
  | slice lower upper => return selection.slice lower upper
  | reverse => return selection.reverse
  | children selector? => selection.children settings selector?
  | contents => selection.contents
  | parent selector? => selection.parent settings selector?
  | parents selector? => selection.parents settings selector?
  | siblings selector? => selection.siblings settings selector?
  | next selector? => selection.next settings selector?
  | prev selector? => selection.prev settings selector?
  | nextAll selector? => selection.nextAll settings selector?
  | prevAll selector? => selection.prevAll settings selector?
  | back => return selection.back
  | andBack => return selection.andBack

variable {t : Tree}

open Query (Keeps Leads Meets StopsOnly keeps_find keeps_keep reaches_find subset_keep)

section

variable {settings : Settings} {R : NodeId → NodeId → Prop} {err : QueryError → Prop}

/-- Deriving a selection from nodes, with a selector or without, stops as a search does. -/
theorem stopsOnly_refine (h : Leads t settings R err) (selector? : Option String)
    (found : List NodeId) (selection : Selection) :
    StopsOnly t (selection.refine settings selector? found) err := by
  unfold refine
  split
  · split_ifs
    · exact .pure trivial
    · exact (subset_keep h _ found).bind fun _ _ => .pure trivial
  · exact .pure trivial

/-- A walk refined by a selector stops as a search does. -/
theorem stopsOnly_walk (h : Leads t settings R err) (step : Tree → NodeId → List NodeId)
    (selector? : Option String) (selection : Selection) :
    StopsOnly t (selection.walk settings step selector?) err := by
  refine Meets.bind (.tree rfl) fun u (_ : t = u) => ?_
  exact stopsOnly_refine h selector? _ selection

/-- A test whether a selector keeps any node stops as a search does. -/
theorem stopsOnly_isAny (h : Leads t settings R err) (selector : String) (selection : Selection) :
    StopsOnly t (selection.isAny settings selector) err :=
  (subset_keep h _ selection.nodes).bind fun _ _ => .pure trivial

/-- Every operation on a selection stops as a search does, if it stops. -/
theorem Call.stopsOnly_run (h : Leads t settings R err) (call : Call) (selection : Selection) :
    StopsOnly t (call.run settings selection) err := by
  cases call with
  -- A search can be stopped, and what is made of its outcome cannot.
  | find selector =>
    exact (reaches_find h _ selection.nodes).bind fun _ _ => .pure trivial
  | findFrom selector context =>
    exact (reaches_find h _ context).bind fun _ _ => .pure trivial
  -- A blank selector adds nothing, without a search.
  | add selector =>
    rw [run, Selection.add]
    split_ifs
    · exact .pure trivial
    · exact (reaches_find h _ [.document]).bind fun _ _ => .pure trivial
  | filter selector =>
    exact (subset_keep h _ selection.nodes).bind fun _ _ => .pure trivial
  | exclude selector =>
    exact (subset_keep h _ selection.nodes).bind fun _ _ => .pure trivial
  -- To list the children or the siblings, the tree is read, and that is never refused.
  | contents => exact Meets.bind (.tree rfl) fun u (_ : t = u) => .pure trivial
  | siblings selector? =>
    refine Meets.bind (.tree rfl) fun u (_ : t = u) => ?_
    exact stopsOnly_refine h selector? _ selection
  -- The other walks are read off the tree, and only the selector behind them is a search.
  | children selector? => exact stopsOnly_walk h _ selector? selection
  | parent selector? => exact stopsOnly_walk h _ selector? selection
  | parents selector? => exact stopsOnly_walk h _ selector? selection
  | next selector? => exact stopsOnly_walk h _ selector? selection
  | prev selector? => exact stopsOnly_walk h _ selector? selection
  | nextAll selector? => exact stopsOnly_walk h _ selector? selection
  | prevAll selector? => exact stopsOnly_walk h _ selector? selection
  -- The rest is done on the list of nodes alone.
  | _ => exact .pure trivial

end

/-- Every operation on a selection keeps the tree. -/
theorem Call.keeps_run (h : t.WellFormed) (settings : Settings) (call : Call)
    (selection : Selection) : Keeps t (call.run settings selection) :=
  call.stopsOnly_run (Query.leads_anywhere h settings) selection

/-- Searching a well-formed tree, filtering in it and deriving selections from selections leave the
tree as it was, in every node and link of it, whether they succeed or stop with an error. -/
theorem tree_after_call (settings : Settings) (s : Session) (h : s.tree.WellFormed) :
    (∀ (selector : String) (nodes : List NodeId),
      (Query.after (Query.find settings (Selector.parse selector) nodes) s).tree = s.tree ∧
        (Query.after (Query.keep settings (Selector.parse selector) nodes) s).tree = s.tree) ∧
      (∀ (call : Call) (selection : Selection),
        (Query.after (call.run settings selection) s).tree = s.tree) ∧
      ∀ (selector : String) (selection : Selection),
        (Query.after (selection.isAny settings selector) s).tree = s.tree := by
  refine ⟨fun selector nodes => ⟨?_, ?_⟩, fun call selection => ?_, fun selector selection => ?_⟩
  · exact (keeps_find h settings _ nodes).tree_after
  · exact (keeps_keep h settings _ nodes).tree_after
  · exact (call.keeps_run h settings selection).tree_after
  · have hkeeps : Keeps s.tree (selection.isAny settings selector) :=
      Keeps.bind (keeps_keep h settings _ selection.nodes) fun _ => .pure trivial
    exact hkeeps.tree_after

/-- For one, a search in a paragraph that hangs from a division which stands free. -/
theorem tree_after_call_free :
    let t := Edit.run (.empty .html) [.createElement "div" [], .createElement "p" [], .append 1 2]
    t.WellFormed ∧ t.parent? 1 = none ∧
      (Query.after (Query.find .default (Selector.parse "p:has(b)") [1]) { tree := t }).tree =
        t := by
  intro t
  have h : t.WellFormed := Edit.wellFormed_run (Tree.wellFormed_empty .html) _
  exact ⟨h, by decide, ((tree_after_call .default { tree := t } h).1 "p:has(b)" [1]).1⟩

end TreeQuery.Selection
