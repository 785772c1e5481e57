import TreeQuery.Proofs.Loaded
import TreeQuery.Proofs.Mounting

/-!
# Reachable trees

`Edit` lists what can be done to a tree, and `Edit.apply` gives the tree that is left afterwards,
whether the edit succeeded or not. `Edit.wellFormed_apply` is the step: every edit leaves a
well-formed tree, also one that names nodes which do not exist or is stopped on the way. It follows
that the trees which can be reached from the document node alone, or from a tree made of markup, are
all well-formed.
-/

namespace TreeQuery

/-- What can be done to a tree. -/
inductive Edit where
  /-- Make an element. -/
  | createElement (tagName : String) (attributes : List (String × String))
  /-- Make a text node. -/
  | createText (content : String)
  /-- Make a comment. -/
  | createComment (content : String)
  /-- Make a node of any kind. -/
  | alloc (data : NodeData)
  /-- Put a node last among the children of another. -/
  | append (parent child : NodeId)
  /-- Put a node in front of a child of another. -/
  | insertBefore (parent child reference : NodeId)
  /-- Take a child out of its parent's list. -/
  | removeChild (parent child : NodeId)
  /-- Take a node out of its parent's list. -/
  | detach (n : NodeId)
  /-- Put the children of a node last among those of another. -/
  | moveChildren (source target : NodeId)
  /-- Set an attribute. -/
  | setAttribute (n : NodeId) (name value : String)
  /-- Remove an attribute. -/
  | removeAttribute (n : NodeId) (name : String)
  /-- Change the tag name of an element. -/
  | rename (n : NodeId) (tagName : String)
  /-- Change what an element is in any other way. -/
  | modifyElement (n : NodeId) (f : Element → Element)
  /-- Change the character data of a text or comment. -/
  | setContent (n : NodeId) (content : String)
  /-- Mount the subtree that a node lies in. -/
  | mount (n : NodeId)
  /-- Take a mounted subtree down. -/
  | release (mounted? : Option NodeId)

namespace Edit

/-- The tree that is left after an edit. One that fails before it has changed anything leaves the
tree as it was. -/
def apply (t : Tree) : Edit → Tree
  | createElement tagName attributes => (t.createElement tagName attributes).1
  | createText content => (t.createText content).1
  | createComment content => (t.createComment content).1
  | alloc data => (t.alloc data).1
  | append parent child => (t.append parent child).toOption.getD t
  | insertBefore parent child reference => (t.insertBefore parent child reference).tree
  | removeChild parent child => (t.removeChild parent child).toOption.getD t
  | detach n => (t.detach n).toOption.getD t
  | moveChildren source target => (t.moveChildren source target).tree
  | setAttribute n name value => (t.setAttribute n name value).toOption.getD t
  | removeAttribute n name => (t.removeAttribute n name).1
  | rename n tagName => (t.rename? n tagName).getD t
  | modifyElement n f => t.modifyElement n f
  | setContent n content => (t.setContent? n content).getD t
  | mount n => ((Mount.attach t n).map (·.tree)).toOption.getD t
  | release mounted? => Mount.release t mounted?

/-- The tree that is left after a sequence of edits. -/
def run (t : Tree) (edits : List Edit) : Tree :=
  edits.foldl apply t

end Edit

namespace Tree

variable {t u : Tree}

/-! ## One edit -/

/-- What holds of a tree and of what a step makes of it if it succeeds holds after the step. -/
theorem of_toOption_getD {motive : Tree → Prop} (ht : motive t) {x : Except TreeError Tree}
    (hx : ∀ u, x = .ok u → motive u) : motive (x.toOption.getD t) := by
  cases x with
  | error e => exact ht
  | ok u => exact hx u rfl

/-- Setting an attribute leaves a well-formed tree. -/
theorem WellFormed.setAttribute (h : t.WellFormed) {n : NodeId} {name value : String}
    (hok : t.setAttribute n name value = .ok u) : u.WellFormed := by
  rw [Tree.setAttribute] at hok
  split_ifs at hok
  exact Except.ok.inj hok ▸ h.modifyElement n _

/-- Changing a tag name leaves a well-formed tree. -/
theorem WellFormed.rename? (h : t.WellFormed) {n : NodeId} {tagName : String}
    (hok : t.rename? n tagName = some u) : u.WellFormed := by
  unfold Tree.rename? at hok
  split_ifs at hok
  exact Option.some.inj hok ▸ h.modifyElement n _

/-- Taking a subtree down leaves a well-formed tree. -/
theorem WellFormed.release (h : t.WellFormed) (mounted? : Option NodeId) :
    (Mount.release t mounted?).WellFormed := by
  cases mounted? with
  | none => exact h
  | some n => exact of_toOption_getD h fun u hok => h.removeChild hok

end Tree

/-- Every edit leaves a well-formed tree, whether it succeeds or not. -/
theorem Edit.wellFormed_apply {t : Tree} (h : t.WellFormed) (edit : Edit) :
    (edit.apply t).WellFormed := by
  -- A new node is free, whatever its data are.
  cases edit with
  | createElement tagName attributes => exact h.alloc _
  | createText content => exact h.alloc _
  | createComment content => exact h.alloc _
  | alloc data => exact h.alloc data
  -- Each edit that can fail leaves the tree as it was if it fails, apart from the two that may stop
  -- half way, for which this has been shown of the tree that they leave.
  | append parent child => exact Tree.of_toOption_getD h fun u hok => h.append hok
  | insertBefore parent child reference => exact h.insertBefore parent child reference
  | removeChild parent child => exact Tree.of_toOption_getD h fun u hok => h.removeChild hok
  | detach n => exact Tree.of_toOption_getD h fun u hok => h.detach hok
  | moveChildren source target => exact h.moveChildren source target
  | setAttribute n name value => exact Tree.of_toOption_getD h fun u hok => h.setAttribute hok
  | removeAttribute n name => exact h.modifyElement n _
  -- The other edits change what a node holds, or mount and release a subtree.
  | rename n tagName =>
    rw [apply]
    cases hok : t.rename? n tagName with
    | none => exact h
    | some u => exact h.rename? hok
  | modifyElement n f => exact h.modifyElement n f
  | setContent n content =>
    rw [apply]
    cases hok : t.setContent? n content with
    | none => exact h
    | some u => exact h.setContent? hok
  | mount n =>
    rw [apply]
    cases hok : Mount.attach t n with
    | error e => exact h
    | ok m => exact Mount.wellFormed_attach h hok
  | release mounted? => exact h.release mounted?

/-- A sequence of edits leaves a well-formed tree. -/
theorem Edit.wellFormed_run {t : Tree} (h : t.WellFormed) (edits : List Edit) :
    (run t edits).WellFormed := by
  induction edits generalizing t with
  | nil => exact h
  | cons edit edits ih => exact ih (wellFormed_apply h edit)

namespace Tree

/-! ## All edits -/

/-- A tree to start from: the document node alone, or a tree made of markup. -/
inductive Initial : Tree → Prop
  /-- The document node alone. -/
  | empty (flavour : Flavour) : Initial (.empty flavour)
  /-- A tree made of markup. -/
  | built {flavour : Flavour} {markup : Markup} {t : Tree}
    (hok : Markup.build? flavour markup = .ok t) : Initial t

/-- A tree to start from is well-formed. -/
theorem Initial.wellFormed {t : Tree} (h : t.Initial) : t.WellFormed := by
  cases h with
  | empty flavour => exact wellFormed_empty flavour
  | built hok => exact (loaded_build? hok).toWellFormed

/-- Whatever is done to a tree, successfully or not, its links lead to nodes of the tree and agree
with each other, node 0 is a document without a parent, and every walk upwards ends, without coming
back to the node that it starts from. -/
theorem wellFormed_of_reachable {t : Tree} (h : t.Initial) (edits : List Edit) :
    (Edit.run t edits).LinksInRange ∧ (Edit.run t edits).WellFormed ∧
      ∀ n : NodeId, n ∉ (Edit.run t edits).ancestors n ∧
        (Edit.run t edits).parent? ((Edit.run t edits).top n) = none := by
  have hwf := Edit.wellFormed_run h.wellFormed edits
  exact ⟨hwf.linksInRange, hwf,
    fun n => ⟨fun hn => hwf.acyclic n (hwf.mem_ancestors.mp hn), hwf.parent?_top n⟩⟩

/-- For one, after a node has been taken out to be put in front of itself, and after it has been
mounted and its parent has been put under it in vain. -/
theorem wellFormed_of_reachable_div :
    (empty .html).Initial ∧
      (Edit.run (empty .html)
        [.createElement "div" [], .createElement "p" [], .append 0 1, .append 1 2,
          .insertBefore 1 2 2, .mount 2, .append 2 0, .release (some 2), .detach 9]).WellFormed :=
  ⟨.empty .html, (wellFormed_of_reachable (.empty .html) _).2.1⟩

end Tree

end TreeQuery
