import TreeQuery.Tree.Edit

/-!
# Mounting a free subtree

Paths start at the document node, so a node in a subtree that stands free of it can be reached only
while that subtree is mounted, that is, while its topmost node is the last child of the document
node. Taking the subtree down again gives the tree that it was mounted in.
-/

namespace TreeQuery

/-- A tree in which a free subtree may be mounted. -/
structure Mount where
  /-- The tree with the subtree in place. -/
  tree : Tree
  /-- The topmost node of the mounted subtree, none if nothing had to be mounted. -/
  mounted? : Option NodeId

namespace Mount

/-- Mounts the subtree that a node lies in, unless its topmost node may stand as a root. -/
def attach (t : Tree) (n : NodeId) : Except TreeError Mount :=
  if !t.contains n then .error (.unknownNode n)
  else if t.isRoot (t.top n) then .ok ⟨t, none⟩
  else (t.append .document (t.top n)).map fun mounted => ⟨mounted, some (t.top n)⟩

/-- Takes a mounted subtree down. -/
def release (t : Tree) (mounted? : Option NodeId) : Tree :=
  match mounted? with
  | none => t
  | some n => (t.removeChild .document n).toOption.getD t

end Mount

end TreeQuery
