import Mathlib.Data.List.Range
import TreeQuery.Document
import TreeQuery.Proofs.Records

/-!
# What a registry has gone through

A registry keeps its open documents, a counter and the number of the document added last. It keeps
no record of what has happened to it. Here the record is kept beside it (`runAll`), and what the
registry answers is read off the record: which numbers have been given out (`issued`), and which
document is held under a number (`Held`). `Tracks` relates a registry to its record. Every call
carries the relation on (`Tracks.run`), and with it calls one after the other (`Tracks.runAll`).
-/

namespace TreeQuery.Registry

variable {registry : Registry} {document : Document} {id : DocumentId}

/-! ## The open documents after a call -/

/-- The document under a number, in a list that starts with an entry. -/
theorem lookup_cons_eq (entry : DocumentId × Document) (documents : List (DocumentId × Document))
    (id : DocumentId) :
    (entry :: documents).lookup id =
      if id = entry.1 then some entry.2 else documents.lookup id := by
  rw [List.lookup_cons]
  split_ifs with h
  · rw [beq_iff_eq.mpr h]
  · rw [beq_false_of_ne h]

/-- A number is open if a document is held under it. -/
theorem mem_ids : id ∈ registry.ids ↔ ∃ document, registry.get? id = some document := by
  unfold ids get?
  rw [← Option.isSome_iff_exists, List.lookup_isSome_iff, List.mem_map]
  simp only [beq_iff_eq, eq_comm (a := id)]

/-- Closing a number leaves the other documents. If the number is not open, these are all. -/
theorem documents_remove (registry : Registry) (closed : DocumentId) :
    (registry.remove closed).1.documents =
      registry.documents.filter fun entry => entry.1 != closed := by
  unfold remove
  cases h : registry.get? closed with
  | some document => rfl
  | none =>
    refine (List.filter_eq_self.mpr fun entry hentry => ?_).symm
    rw [bne_comm]
    exact List.lookup_eq_none_iff.mp h entry hentry

/-- Under the next number the document just added is found, and under any other what was found
before. -/
theorem get?_insert (registry : Registry) (document : Document) (id : DocumentId) :
    (registry.insert document).1.get? id =
      (registry.get? id).or (if id = registry.nextId then some document else none) := by
  unfold get? insert
  rw [List.lookup_append, lookup_cons_eq, List.lookup_nil]

/-- Under the number that has been closed nothing is found, and under any other what was found
before. -/
theorem get?_remove (registry : Registry) (closed id : DocumentId) :
    (registry.remove closed).1.get? id = if id = closed then none else registry.get? id := by
  unfold get?
  rw [documents_remove]
  induction registry.documents with
  | nil => simp
  | cons entry documents ih =>
    -- The first entry is the one that is closed, or it stays where it is.
    by_cases hentry : entry.1 = closed
    · rw [List.filter_cons_of_neg (by simp [hentry]), ih, lookup_cons_eq, hentry]
      split_ifs with h
      · rfl
      · rfl
    · rw [List.filter_cons_of_pos (by simp [hentry]), lookup_cons_eq, lookup_cons_eq, ih]
      split_ifs with h hclosed
      · exact absurd (h.symm.trans hclosed) hentry
      · rfl
      · rfl
      · rfl

/-- Under the number changed the changed document is found, and under any other what was found
before. -/
theorem get?_update (registry : Registry) (changed : DocumentId) (change : Document → Document)
    (id : DocumentId) :
    (registry.update changed change).get? id =
      if id = changed then (registry.get? id).map change else registry.get? id := by
  unfold get? update
  dsimp only
  induction registry.documents with
  | nil => simp
  | cons entry documents ih =>
    rw [List.map_cons, lookup_cons_eq, lookup_cons_eq, ih]
    -- The first entry is the one that is changed, or it stays as it is.
    by_cases hentry : entry.1 = changed
    · rw [if_pos (beq_iff_eq.mpr hentry), hentry]
      split_ifs with h
      · rfl
      · rfl
    · rw [if_neg (mt beq_iff_eq.mp hentry)]
      split_ifs with h hchanged
      · exact absurd (h.symm.trans hchanged) hentry
      · rfl
      · rfl
      · rfl

/-- Once all documents have been closed, nothing is found. -/
theorem get?_clear (registry : Registry) (id : DocumentId) : registry.clear.get? id = none :=
  rfl

/-- The number of a document just added comes last. -/
theorem ids_insert (registry : Registry) (document : Document) :
    (registry.insert document).1.ids = registry.ids ++ [registry.nextId] :=
  List.map_append

/-- Closing a document takes its number out of the list. -/
theorem ids_remove (registry : Registry) (closed : DocumentId) :
    (registry.remove closed).1.ids = registry.ids.filter (· != closed) := by
  unfold ids
  rw [documents_remove, List.filter_map]
  rfl

/-- Changing a document leaves the list of numbers as it is. -/
theorem ids_update (registry : Registry) (changed : DocumentId) (change : Document → Document) :
    (registry.update changed change).ids = registry.ids := by
  unfold ids update
  rw [List.map_map]
  refine List.map_congr_left fun entry _ => ?_
  dsimp only [Function.comp_apply]
  split_ifs with h
  · rfl
  · rfl

/-- Closing a document does not change the counter. -/
theorem nextId_remove (registry : Registry) (closed : DocumentId) :
    (registry.remove closed).1.nextId = registry.nextId := by
  unfold remove
  cases registry.get? closed with
  | none => rfl
  | some document => rfl

/-- Without an entry that is not the last one a list ends where it did. -/
theorem getLast?_filter_ne {numbers : List DocumentId} {closed : DocumentId}
    (h : numbers.getLast? ≠ some closed) :
    (numbers.filter (· != closed)).getLast? = numbers.getLast? := by
  rcases List.eq_nil_or_concat numbers with rfl | ⟨front, last, rfl⟩
  · rfl
  · rw [List.concat_eq_append, List.getLast?_concat] at h ⊢
    have hlast : (last != closed) = true := bne_iff_ne.mpr fun heq => h (congrArg some heq)
    rw [List.filter_append, List.filter_cons_of_pos (p := (· != closed)) hlast,
      List.filter_nil, List.getLast?_concat]

/-- If the number kept as the last one is the last of the open ones, it is so once a number has been
closed. -/
theorem last?_remove (h : registry.last? = registry.ids.getLast?) (closed : DocumentId) :
    (registry.remove closed).1.last? = (registry.remove closed).1.ids.getLast? := by
  have hids := ids_remove registry closed
  unfold remove at hids ⊢
  cases hget : registry.get? closed with
  | none => exact h
  | some document =>
    rw [hget] at hids
    dsimp only at hids ⊢
    split_ifs at hids ⊢ with hlast
    -- The last document itself is closed, and the one before it is looked for.
    · exact List.getLast?_map.symm
    · have hother : registry.ids.getLast? ≠ some closed := fun heq =>
        hlast (beq_iff_eq.mpr (h.trans heq))
      rw [hids, getLast?_filter_ne hother, h]

/-! ## The record -/

/-- What happens to a registry. -/
inductive Event where
  /-- A document is added, and the number is given out for it. -/
  | added (id : DocumentId) (document : Document)
  /-- A number is closed, whether a document is held under it or not. -/
  | removed (id : DocumentId)
  /-- What is held under a number, if anything, is changed through the number. -/
  | changed (id : DocumentId) (change : Document → Document)
  /-- All numbers are closed. -/
  | cleared

/-- The number that is given out, if one is. -/
def Event.issued? : Event → Option DocumentId
  | added id _ => some id
  | removed _ | changed _ _ | cleared => none

/-- What becomes of the document under a number while the number stays open. -/
def Event.change (id : DocumentId) (document : Document) : Event → Document
  | changed other change => if id = other then change document else document
  | added _ _ | removed _ | cleared => document

/-- The numbers given out, in the order in which they were. -/
def issued (record : List Event) : List DocumentId :=
  record.filterMap Event.issued?

/-- A document is held under a number: a document has been added under it, since then the number has
not been closed, and the changes made through it since then have led to the document at hand. -/
def Held (record : List Event) (id : DocumentId) (document : Document) : Prop :=
  ∃ original, Since record (.added id original) fun since =>
    .removed id ∉ since ∧ .cleared ∉ since ∧ document = since.foldl (Event.change id) original

variable {record : List Event} {event : Event}

/-- The numbers given out are those given out before and the one of the last event, if it has
one. -/
theorem issued_concat (record : List Event) (event : Event) :
    issued (record ++ [event]) = issued record ++ event.issued?.toList := by
  unfold issued
  rw [List.filterMap_append]
  cases h : event.issued? with
  | none => rw [List.filterMap_cons_none h, List.filterMap_nil]; rfl
  | some id => rw [List.filterMap_cons_some h, List.filterMap_nil]; rfl

/-- A document is held after one more event if it has just been added, or if what was held before
has been left open. -/
theorem held_concat :
    Held (record ++ [event]) id document ↔
      event = .added id document ∨
        event ≠ .removed id ∧ event ≠ .cleared ∧
          ∃ earlier, Held record id earlier ∧ document = event.change id earlier := by
  unfold Held
  simp only [since_concat]
  constructor
  -- The document was added by the last event, or by an earlier one, and then it was held before.
  · rintro ⟨original, ⟨rfl, -, -, rfl⟩ | ⟨before, since, hrecord, hremoved, hcleared, hdocument⟩⟩
    · exact .inl rfl
    · rw [List.mem_append, not_or, List.mem_singleton] at hremoved hcleared
      rw [List.foldl_append] at hdocument
      exact .inr ⟨Ne.symm hremoved.2, Ne.symm hcleared.2, _,
        ⟨original, before, since, hrecord, hremoved.1, hcleared.1, rfl⟩, hdocument⟩
  -- An event that does not close the document leaves it open, with the change that it makes.
  · rintro (rfl | ⟨hremoved, hcleared, earlier, ⟨original, before, since, hrecord, hopen⟩, rfl⟩)
    · exact ⟨document, .inl ⟨rfl, List.not_mem_nil, List.not_mem_nil, rfl⟩⟩
    · obtain ⟨hremoved', hcleared', rfl⟩ := hopen
      refine ⟨original, .inr ⟨before, since, hrecord, ?_, ?_, ?_⟩⟩
      · simpa [hremoved'] using hremoved.symm
      · simpa [hcleared'] using hcleared.symm
      · rw [List.foldl_append, List.foldl_cons, List.foldl_nil]

/-- Unless a document is added under the number, what is held is what the event has made of what was
held before. -/
theorem held_concat_of_not_added (h : ∀ document, event ≠ .added id document) :
    Held (record ++ [event]) id document ↔
      event ≠ .removed id ∧ event ≠ .cleared ∧
        ∃ earlier, Held record id earlier ∧ document = event.change id earlier := by
  rw [held_concat]
  exact or_iff_right (h document)

/-! ## Calls -/

/-- What can be asked of a registry. -/
inductive Call where
  /-- To hold a document. -/
  | insert (document : Document)
  /-- To close a number. -/
  | remove (id : DocumentId)
  /-- To change the document under a number. -/
  | update (id : DocumentId) (change : Document → Document)
  /-- To close all numbers. -/
  | clear

/-- The registry after a call, and what has happened. -/
def Call.run (registry : Registry) : Call → Registry × Event
  | insert document => ((registry.insert document).1, .added (registry.insert document).2 document)
  | remove id => ((registry.remove id).1, .removed id)
  | update id change => (registry.update id change, .changed id change)
  | clear => (registry.clear, .cleared)

/-- The registry after calls, one after the other, and the record of what has happened. -/
def runAll : List Call → Registry → Registry × List Event
  | [], registry => (registry, [])
  | call :: calls, registry =>
    let next := call.run registry
    let final := runAll calls next.1
    (final.1, next.2 :: final.2)

/-- A registry answers by its record. -/
structure Tracks (registry : Registry) (record : List Event) : Prop where
  /-- The numbers are given out by counting. -/
  issued : issued record = List.range registry.nextId
  /-- A number gives the document that is held under it. -/
  held : ∀ id document, registry.get? id = some document ↔ Held record id document
  /-- The open numbers are listed as they were given out. -/
  ids : registry.ids.Sublist (Registry.issued record)
  /-- The number kept as the last one is the last of the open ones. -/
  last? : registry.last? = registry.ids.getLast?

/-- An empty registry tracks an empty record. -/
theorem tracks_empty : Tracks empty [] where
  issued := rfl
  held := fun _ _ => iff_of_false nofun fun ⟨_, h⟩ => List.not_mem_nil h.mem
  ids := .slnil
  last? := rfl

/-- The next number is not open. -/
theorem Tracks.get?_nextId (h : Tracks registry record) : registry.get? registry.nextId = none := by
  rw [Option.eq_none_iff_forall_ne_some]
  intro document hget
  have hmem := h.ids.subset (mem_ids.mpr ⟨document, hget⟩)
  rw [h.issued] at hmem
  exact List.not_mem_range_self hmem

/-- Adding a document tracks the record with that event. -/
theorem Tracks.insert (h : Tracks registry record) (document : Document) :
    Tracks (registry.insert document).1 (record ++ [.added registry.nextId document]) where
  issued := by
    rw [issued_concat, h.issued]
    exact List.range_succ.symm
  held := by
    intro id held
    rw [get?_insert]
    -- The next number is new. Of any other number the event says nothing.
    by_cases hid : id = registry.nextId
    · subst hid
      have hnew : ∀ earlier, ¬ Held record registry.nextId earlier := fun earlier hearlier =>
        absurd (h.get?_nextId.symm.trans ((h.held _ _).mpr hearlier)) nofun
      rw [h.get?_nextId, if_pos rfl, Option.none_or, held_concat]
      simp [hnew]
    · rw [if_neg hid, Option.or_none, h.held, held_concat_of_not_added]
      · simp [Event.change]
      · rintro document ⟨⟩
        exact hid rfl
  ids := by
    rw [ids_insert, issued_concat]
    exact h.ids.append (.refl _)
  last? := by
    rw [ids_insert, List.getLast?_concat]
    rfl

/-- Closing a document tracks the record with that event. -/
theorem Tracks.remove (h : Tracks registry record) (closed : DocumentId) :
    Tracks (registry.remove closed).1 (record ++ [.removed closed]) where
  issued := by
    rw [issued_concat, h.issued, nextId_remove]
    exact List.append_nil _
  held := by
    intro id held
    rw [get?_remove, held_concat_of_not_added]
    -- The number closed holds nothing any more, and the event changes no other document.
    · by_cases hid : id = closed
      · simp [hid]
      · rw [if_neg hid, h.held]
        simp [Event.change, Ne.symm hid]
    · exact nofun
  ids := by
    rw [ids_remove, issued_concat]
    exact (List.filter_sublist.trans h.ids).trans (List.sublist_append_left _ _)
  last? := last?_remove h.last? closed

/-- Changing a document tracks the record with that event. -/
theorem Tracks.update (h : Tracks registry record) (changed : DocumentId)
    (change : Document → Document) :
    Tracks (registry.update changed change) (record ++ [.changed changed change]) where
  issued := by
    rw [issued_concat, h.issued]
    exact List.append_nil _
  held := by
    intro id held
    rw [get?_update, held_concat_of_not_added]
    -- Under the number changed, what was held has been changed; under another it has not.
    · by_cases hid : id = changed
      · rw [if_pos hid, Option.map_eq_some_iff]
        simp [h.held, Event.change, hid, eq_comm]
      · rw [if_neg hid, h.held]
        simp [Event.change, hid]
    · exact nofun
  ids := by
    rw [ids_update, issued_concat]
    exact h.ids.trans (List.sublist_append_left _ _)
  last? := by
    rw [ids_update]
    exact h.last?

/-- Closing all documents tracks the record with that event. -/
theorem Tracks.clear (h : Tracks registry record) :
    Tracks registry.clear (record ++ [.cleared]) where
  issued := by
    rw [issued_concat, h.issued]
    exact List.append_nil _
  held := by
    intro id held
    rw [get?_clear, held_concat_of_not_added]
    · simp
    · exact nofun
  ids := List.nil_sublist _
  last? := rfl

/-- A call carries the record on. -/
theorem Tracks.run (h : Tracks registry record) (call : Call) :
    Tracks (call.run registry).1 (record ++ [(call.run registry).2]) := by
  cases call with
  | insert document => exact h.insert document
  | remove closed => exact h.remove closed
  | update changed change => exact h.update changed change
  | clear => exact h.clear

/-- Calls carry the record on. -/
theorem Tracks.runAll (calls : List Call) (h : Tracks registry record) :
    Tracks (registry.runAll calls).1 (record ++ (registry.runAll calls).2) := by
  induction calls generalizing registry record with
  | nil =>
    rw [Registry.runAll, List.append_nil]
    exact h
  | cons call calls ih =>
    have hrest := ih (h.run call)
    rwa [List.append_assoc, List.singleton_append] at hrest

/-- **A registry answers by its history.** Whatever has been asked of a registry that was empty, in
whatever order, the numbers given out increase, also past documents that have been closed. They are
less than the counter, and the counter has only counted the documents added, so that 64 bits are
enough for fewer than `2 ^ 64` of them. A number gives a document exactly if one has been added
under it and not been closed since, and then it gives the one added, with the changes made through
the number. The open numbers are listed in the order in which they were given out, and the last of
them is the number kept as the last one, which is missing exactly if there are no open documents. -/
theorem answers_of_runAll (calls : List Call) :
    let reached := (empty.runAll calls).1
    let record := (empty.runAll calls).2
    (issued record).Pairwise (· < ·) ∧
      (∀ id ∈ issued record, id < reached.nextId) ∧ reached.nextId = (issued record).length ∧
      (∀ id document, reached.get? id = some document ↔ Held record id document) ∧
      reached.ids.Sublist (issued record) ∧
      (∀ id, id ∈ reached.ids ↔ ∃ document, Held record id document) ∧
      reached.last? = reached.ids.getLast? ∧ (reached.last? = none ↔ reached.size = 0) := by
  intro reached record
  have htracks : Tracks reached record := tracks_empty.runAll calls
  refine ⟨?_, ?_, ?_, htracks.held, htracks.ids, fun id => ?_, htracks.last?, ?_⟩
  -- The numbers given out are those below the counter, in order.
  · rw [htracks.issued]
    exact List.pairwise_lt_range
  · rw [htracks.issued]
    exact fun id => List.mem_range.mp
  · rw [htracks.issued, List.length_range]
  -- A number is open exactly if a document is found under it.
  · rw [mem_ids]
    exact exists_congr fun document => htracks.held id document
  · rw [htracks.last?, List.getLast?_eq_none_iff]
    unfold ids size
    rw [List.map_eq_nil_iff, List.length_eq_zero_iff]

/-- Closing the last document goes back to the one before it that is still open. -/
example (document : Document) :
    let reached := (empty.runAll
      [.insert document, .insert document, .insert document, .remove 1, .remove 2, .remove 7]).1
    reached.ids = [0] ∧ reached.last? = some 0 ∧ reached.nextId = 3 :=
  ⟨rfl, rfl, rfl⟩

end TreeQuery.Registry
