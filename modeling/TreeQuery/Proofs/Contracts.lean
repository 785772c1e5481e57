import TreeQuery.Proofs.Mounting
import TreeQuery.Query.Session

/-!
# Contracts of searches

`Query.Meets` says of a search on a given tree that it leaves the tree as it was and that its
result, or the error that stops it, is as promised. There is one rule for each way in which a search
is put together, so that the contract of a search follows the search step by step.
-/

namespace TreeQuery.Query

variable {α β : Type} {t : Tree} {post : α → Prop} {err : QueryError → Prop}

/-- Run on the tree `t`, a search leaves the tree as it was. A result is as `post` says, and an
error is as `err` says. -/
def Meets (t : Tree) (q : Query α) (post : α → Prop) (err : QueryError → Prop) : Prop :=
  ∀ s : Session, s.tree = t →
    match q s with
    | .ok a s' => s'.tree = t ∧ post a
    | .error e s' => s'.tree = t ∧ err e

/-- Run on the tree `t`, a search leaves the tree as it was, however it ends. -/
def Keeps (t : Tree) (q : Query α) : Prop :=
  Meets t q (fun _ => True) fun _ => True

/-- The session that a search leaves behind, however it ends. -/
def after (q : Query α) (s : Session) : Session :=
  match q s with
  | .ok _ s' | .error _ s' => s'

/-- What a search gives, or the error that stops it. -/
def result (q : Query α) (s : Session) : Except QueryError α :=
  match q s with
  | .ok a _ => .ok a
  | .error e _ => .error e

/-- A search gives a result and leaves some session behind. -/
theorem result_eq_ok {q : Query α} {s : Session} {a : α} :
    result q s = .ok a ↔ ∃ s', q s = .ok a s' := by
  unfold result
  cases q s with
  | ok b s' => simp
  | error e s' => simp

/-- A search that keeps the tree of its session leaves it behind. -/
theorem Keeps.tree_after {q : Query α} {s : Session} (h : Keeps s.tree q) :
    (after q s).tree = s.tree := by
  have hs := h s rfl
  unfold after
  cases hq : q s with
  | ok a s' =>
    rw [hq] at hs
    exact hs.1
  | error e s' =>
    rw [hq] at hs
    exact hs.1

/-! ## Single steps -/

/-- A contract may promise less. -/
theorem Meets.weaken {q : Query α} {post' : α → Prop} {err' : QueryError → Prop}
    (h : Meets t q post err) (hpost : ∀ a, post a → post' a) (herr : ∀ e, err e → err' e) :
    Meets t q post' err' := by
  intro s hs
  have hq := h s hs
  cases hr : q s with
  | ok a s' =>
    rw [hr] at hq
    exact ⟨hq.1, hpost a hq.2⟩
  | error e s' =>
    rw [hr] at hq
    exact ⟨hq.1, herr e hq.2⟩

/-- A result is as the contract promises. -/
theorem Meets.of_result {q : Query α} {s : Session} {a : α} (h : Meets s.tree q post err)
    (hok : result q s = .ok a) : post a := by
  obtain ⟨s', hq⟩ := result_eq_ok.mp hok
  have hs := h s rfl
  rw [hq] at hs
  exact hs.2

/-- A search with a contract keeps the tree. -/
theorem Meets.keeps {q : Query α} (h : Meets t q post err) : Keeps t q :=
  h.weaken (fun _ _ => trivial) fun _ _ => trivial

/-- A query that gives a value meets what holds for the value. -/
theorem Meets.pure {a : α} (h : post a) : Meets t (Pure.pure a) post err :=
  fun _ hs => ⟨hs, h⟩

/-- A query that is stopped meets what allows the error. -/
theorem Meets.throw {e : QueryError} (h : err e) : Meets t (throw e : Query α) post err :=
  fun _ hs => ⟨hs, h⟩

/-- A chain of two steps meets what the second promises after the first. -/
theorem Meets.bind {q : Query α} {f : α → Query β} {mid : α → Prop} {post : β → Prop}
    (hq : Meets t q mid err) (hf : ∀ a, mid a → Meets t (f a) post err) :
    Meets t (q >>= f) post err := by
  intro s hs
  have h := hq s hs
  simp only [Bind.bind, EStateM.bind]
  cases hr : q s with
  | ok a s' =>
    rw [hr] at h
    exact hf a h.2 s' h.1
  | error e s' =>
    rw [hr] at h
    exact h

/-- A chain of two steps keeps the tree if both do. -/
theorem Keeps.bind {q : Query α} {f : α → Query β} (hq : Keeps t q) (hf : ∀ a, Keeps t (f a)) :
    Keeps t (q >>= f) :=
  Meets.bind hq fun a _ => hf a

/-- The tree that a search reads is the one that it runs on. -/
theorem Meets.tree {post : Tree → Prop} (h : post t) : Meets t tree post err := by
  intro s hs
  exact ⟨hs, hs ▸ h⟩

/-- To record an event leaves the tree as it is. -/
theorem Meets.record {event : Event} {post : Unit → Prop} (h : post ()) :
    Meets t (record event) post err :=
  fun _ hs => ⟨hs, h⟩

/-- A warning touches the warnings and the log alone. -/
theorem Meets.announce (component message : String) :
    Meets t (announce component message) (fun _ => True) err := by
  have hget : Meets t (get : Query Session) (fun s => s.tree = t) err := fun _ hs => ⟨hs, hs⟩
  refine hget.bind fun s hs => ?_
  have hset : Meets t (set { s with warnings := (s.warnings.giveOnce component message).2 } :
      Query PUnit) (fun _ => True) err := fun _ _ => ⟨hs, trivial⟩
  refine hset.bind fun _ _ => ?_
  split_ifs
  · have hrecord : Meets t (Query.record (.warned message)) (fun _ => True) err :=
      .record trivial
    exact hrecord.bind fun _ _ => .pure trivial
  · exact .pure trivial

/-- To warn leaves the tree as it is, whether the warning is new or not. -/
theorem Meets.warn {warning : Warning} {post : Unit → Prop} (h : post ()) :
    Meets t (warn warning) post err :=
  (Meets.announce _ _).bind fun _ _ => .pure h

/-- A result, or an error of an operation on the tree, as that operation promises it. -/
theorem Meets.ofExcept {x : Except TreeError α} (hok : ∀ a, x = .ok a → post a)
    (herr : ∀ e, x = .error e → err (.tree e)) : Meets t (ofExcept x) post err := by
  cases x with
  | ok a => exact .pure (hok a rfl)
  | error e => exact .throw (herr e rfl)

/-! ## Several nodes -/

/-- A filter keeps a part of the nodes, in the same order. -/
theorem Meets.filter {test : NodeId → Query Bool} {nodes : List NodeId}
    (htest : ∀ n ∈ nodes, Meets t (test n) (fun _ => True) err) :
    Meets t (filter test nodes) (fun kept => kept.Sublist nodes) err := by
  induction nodes with
  | nil => exact .pure (.refl _)
  | cons n rest ih =>
    have hrest := ih fun m hm => htest m (List.mem_cons_of_mem _ hm)
    rw [Query.filter]
    refine (htest n List.mem_cons_self).bind fun kept _ => ?_
    split_ifs
    · exact hrest.bind fun kept hkept => .pure (hkept.cons_cons n)
    · exact hrest.weaken (fun kept hkept => hkept.cons n) fun _ h => h

/-- The results for several nodes are those for each of them, one after the other. -/
theorem Meets.flatMap {search : NodeId → Query (List NodeId)} {nodes : List NodeId}
    {found : NodeId → List NodeId → Prop}
    (hsearch : ∀ n ∈ nodes, Meets t (search n) (found n) err) :
    Meets t (flatMap search nodes)
      (fun all => ∃ parts, List.Forall₂ found nodes parts ∧ all = parts.flatten) err := by
  induction nodes with
  | nil => exact .pure ⟨[], .nil, rfl⟩
  | cons n rest ih =>
    rw [Query.flatMap]
    refine (hsearch n List.mem_cons_self).bind fun part hpart => ?_
    refine (ih fun m hm => hsearch m (List.mem_cons_of_mem _ hm)).bind fun more hmore => .pure ?_
    obtain ⟨parts, hparts, rfl⟩ := hmore
    exact ⟨part :: parts, .cons hpart hparts, rfl⟩

/-! ## Mounting -/

/-- A search in a mounted tree runs on that tree, and the tree that was mounted in is back
afterwards. -/
theorem Meets.mounted (h : t.WellFormed) {n : NodeId} {body : Query α}
    (hbody : ∀ m, Mount.attach t n = .ok m → Meets m.tree body post err)
    (herr : ∀ e, Mount.attach t n = .error e → err (.tree e)) :
    Meets t (mounted n body) post err := by
  intro s hs
  unfold Query.mounted
  subst hs
  cases hattach : Mount.attach s.tree n with
  | error e => exact ⟨rfl, herr e hattach⟩
  | ok m =>
    -- The body leaves the mounted tree as it is, so what is taken down is what was put up.
    have hrelease := Mount.release_attach h hattach
    have hrun := hbody m hattach { s with tree := m.tree } rfl
    simp only
    cases hr : body { s with tree := m.tree } with
    | ok a s' =>
      rw [hr] at hrun
      exact ⟨hrun.1 ▸ hrelease, hrun.2⟩
    | error e s' =>
      rw [hr] at hrun
      exact ⟨hrun.1 ▸ hrelease, hrun.2⟩

end TreeQuery.Query
