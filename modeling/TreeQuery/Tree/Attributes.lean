/-!
# Attributes

A map from attribute names to values. It is kept as a list in the order of the names, so that two
maps with the same bindings are equal and the bindings are listed in one order only.
-/

namespace TreeQuery

/-- A map from attribute names to values. -/
structure Attributes where
  /-- The bindings in the order of their names. -/
  bindings : List (String × String)
  /-- Each name is bound once, and the names increase. -/
  increasing : bindings.Pairwise fun a b => a.1 < b.1
  deriving DecidableEq

namespace Attributes

/-- The map without bindings. -/
def empty : Attributes :=
  ⟨[], .nil⟩

/-- An element has no attributes until some are bound. -/
instance : Inhabited Attributes :=
  ⟨empty⟩

/-- The value bound to a name. -/
def get? (attributes : Attributes) (name : String) : Option String :=
  attributes.bindings.lookup name

/-- Whether a name is bound. -/
def contains (attributes : Attributes) (name : String) : Bool :=
  (attributes.get? name).isSome

/-- The bindings with `value` bound to `name` in the place that its order gives it. -/
def bind (name value : String) : List (String × String) → List (String × String)
  | [] => [(name, value)]
  | (other, bound) :: rest =>
    if name = other then (name, value) :: rest
    else if name < other then (name, value) :: (other, bound) :: rest
    else (other, bound) :: bind name value rest

/-- What is bound afterwards is the new binding or one that was there before. -/
theorem mem_bind {name value : String} {bindings : List (String × String)}
    {b : String × String} (h : b ∈ bind name value bindings) :
    b = (name, value) ∨ b ∈ bindings := by
  induction bindings with
  | nil => simpa [bind] using h
  | cons entry rest ih =>
    obtain ⟨other, bound⟩ := entry
    rw [bind] at h
    -- The cases of `bind`: the new name comes before that of the entry, is the same, or comes after
    -- it.
    split at h
    · rcases List.mem_cons.mp h with h | h
      · exact .inl h
      · exact .inr (List.mem_cons_of_mem _ h)
    · split at h
      · rcases List.mem_cons.mp h with h | h
        · exact .inl h
        · exact .inr h
      · rcases List.mem_cons.mp h with h | h
        · exact .inr (h ▸ List.mem_cons_self)
        · exact (ih h).imp_right (List.mem_cons_of_mem _)

/-- Binding a name keeps the order of the names. -/
theorem pairwise_bind {name value : String} {bindings : List (String × String)}
    (h : bindings.Pairwise fun a b => a.1 < b.1) :
    (bind name value bindings).Pairwise fun a b => a.1 < b.1 := by
  induction bindings with
  | nil => simp [bind]
  | cons entry rest ih =>
    obtain ⟨other, bound⟩ := entry
    obtain ⟨hfirst, hrest⟩ := List.pairwise_cons.mp h
    rw [bind]
    split
    -- The name is bound already, and keeps its place.
    · next heq => exact List.pairwise_cons.mpr ⟨heq ▸ hfirst, hrest⟩
    · next hne =>
      split
      -- The name comes before all others.
      · next hlt =>
        refine List.pairwise_cons.mpr ⟨fun b hb => ?_, h⟩
        rcases List.mem_cons.mp hb with rfl | hb
        · exact hlt
        · exact String.lt_trans hlt (hfirst b hb)
      -- The name belongs farther back, where the bindings stay behind `other`.
      · next hnlt =>
        refine List.pairwise_cons.mpr ⟨fun b hb => ?_, ih hrest⟩
        rcases mem_bind hb with rfl | hb
        · refine Decidable.byContradiction fun hn => hne ?_
          exact String.le_antisymm (String.not_lt.mp hn) (String.not_lt.mp hnlt)
        · exact hfirst b hb

/-- The map with `value` bound to `name`, in place of what was bound to it. -/
def insert (attributes : Attributes) (name value : String) : Attributes :=
  ⟨bind name value attributes.bindings, pairwise_bind attributes.increasing⟩

/-- The map without the binding of `name`. -/
def erase (attributes : Attributes) (name : String) : Attributes :=
  ⟨attributes.bindings.filter fun binding => binding.1 != name,
    attributes.increasing.filter _⟩

/-- The map with the bindings of a list, of which a later one replaces an earlier one. -/
def ofList (bindings : List (String × String)) : Attributes :=
  bindings.foldl (fun attributes binding => attributes.insert binding.1 binding.2) empty

end Attributes

end TreeQuery
