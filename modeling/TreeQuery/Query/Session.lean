import TreeQuery.Path.Evaluate
import TreeQuery.Path.Position
import TreeQuery.Query.Warning
import TreeQuery.Tree.Mount

/-!
# Sessions

A search works in a session: it reads the tree, in which it may mount a free subtree for a while,
gives warnings, and writes a log. A search that stops with an error leaves its session behind all
the same.
-/

namespace TreeQuery

/-- What stopped a search. -/
inductive QueryError where
  /-- The path to the node from the document node does not exist, even while its subtree is
  mounted. -/
  | unreachable (n : NodeId)
  /-- An operation on the tree failed. -/
  | tree (e : TreeError)
  deriving DecidableEq, Repr

/-- The sentence that reports an error. -/
def QueryError.message : QueryError → String
  | unreachable n =>
    "context node " ++ NodeId.render n ++ " cannot be attached to a document root"
  | tree e => e.message

/-- What is worth a line in the log. -/
inductive Event where
  /-- A path is evaluated. -/
  | evaluated (path : LocationPath)
  /-- A path has led to these nodes. -/
  | found (descriptions : List String)
  /-- A warning is given. -/
  | warned (message : String)
  deriving DecidableEq, Repr

namespace Event

/-- Whether an event is a warning. -/
def isWarning : Event → Bool
  | warned _ => true
  | _ => false

/-- The line of an event. -/
def render : Event → String
  | evaluated path => "DEBUG XPATH: " ++ path.render
  | found descriptions =>
    "DEBUG matched " ++ toString descriptions.length ++ ": " ++ ", ".intercalate descriptions
  | warned message => "WARN " ++ message

end Event

/-- What a search works in. -/
structure Session where
  /-- The tree. -/
  tree : Tree
  /-- The warnings given so far. -/
  warnings : Warnings := .none
  /-- The events so far, in order. -/
  log : Array Event := #[]

/-- A search: from a session to a result or an error, and the session that it leaves behind. -/
abbrev Query (α : Type) : Type :=
  EStateM QueryError Session α

namespace Query

/-- The tree of the session. -/
def tree : Query Tree :=
  return (← get).tree

/-- Writes an event to the log. -/
def record (event : Event) : Query Unit :=
  modify fun session => { session with log := session.log.push event }

/-- Gives a warning of a component, unless it has been given before, and tells whether it is given
now. -/
def announce (component message : String) : Query Bool := do
  let session ← get
  let (isNew, warnings) := session.warnings.giveOnce component message
  set { session with warnings }
  if isNew then record (.warned message)
  return isNew

/-- Gives a warning, unless it has been given before. -/
def warn (warning : Warning) : Query Unit := do
  let _ ← announce warning.component warning.message

/-- A result, or an error of an operation on the tree. -/
def ofExcept {α : Type} : Except TreeError α → Query α
  | .ok a => pure a
  | .error e => throw (.tree e)

/-- Runs a search while the subtree of a node is mounted, and takes the subtree down however the
search ends. -/
def mounted {α : Type} (n : NodeId) (body : Query α) : Query α := fun session =>
  match Mount.attach session.tree n with
  | .error e => .error (.tree e) session
  | .ok mount =>
    match body { session with tree := mount.tree } with
    | .ok a session => .ok a { session with tree := Mount.release session.tree mount.mounted? }
    | .error e session =>
      .error e { session with tree := Mount.release session.tree mount.mounted? }

/-- The nodes that pass a test, which is itself a search. -/
def filter (test : NodeId → Query Bool) : List NodeId → Query (List NodeId)
  | [] => pure []
  | n :: rest => do
    if ← test n then
      let kept ← filter test rest
      return n :: kept
    else filter test rest

/-- The results of a search for each of several nodes, one after the other. -/
def flatMap (search : NodeId → Query (List NodeId)) : List NodeId → Query (List NodeId)
  | [] => pure []
  | n :: rest => do
    let found ← search n
    let more ← flatMap search rest
    return found ++ more

end Query

end TreeQuery
