import TreeQuery.Proofs.BoundedNumbers
import TreeQuery.Proofs.Spans
import TreeQuery.Selection

/-!
# Where a slice ends

A slice takes the nodes from one index up to another, where a negative index counts from the end
(`placeOf`). It always starts where its first index says. Its end is not always where the second
index says: a positive end is turned into a count of nodes by taking the start off as it is written,
even where the start counts from the end, and a count below zero counts from the end of the list.
`reach` is the place where a slice does end, and `slice_exact_iff` says that the two places differ
in effect exactly for the indices that go `Astray`. The argument of `:slice` is read back as the
integers that it writes, so the pseudo-class keeps the same nodes.
-/

namespace TreeQuery

open Bounded

variable {length lower upper : Nat} {start i : Int} {stop? : Option Int} {nodes : List NodeId}

/-! ## Places -/

/-- The place that the end of a slice stands for, the end of the list if none is given. -/
def endOf (length : Nat) : Option Int → Nat
  | none => length
  | some stop => placeOf length stop

/-- The nodes at the places from `lower` up to `upper`, without the latter. -/
def nodesBetween (lower upper : Nat) (nodes : List NodeId) : List NodeId :=
  PseudoClass.keepPlaces (fun place => lower ≤ place && place < upper) nodes

/-- The place where a slice ends. -/
def reach (length : Nat) (start : Int) : Option Int → Nat
  | none => length
  | some stop =>
    if stop ≤ 0 then placeOf length stop
    -- To take off a negative start makes the count larger than the list.
    else if start < 0 then length
    else if start ≤ stop then placeOf length stop
    -- The count is negative, and so it is one from the end.
    else placeOf length (stop - start)

/-- The indices that make a slice end at a wrong place: the end is positive, and either the start
counts from the end and the end is inside the list, or the end is before the start and by less than
the nodes that follow the start. -/
def Astray (length : Nat) (start : Int) (stop? : Option Int) : Prop :=
  ∃ stop ∈ stop?, 0 < stop ∧
    (start < 0 ∧ stop < length ∨ stop < start ∧ start - stop < length - start)

/-- The nodes between two places are a piece of the list. -/
theorem nodesBetween_eq (lower upper : Nat) (nodes : List NodeId) :
    nodesBetween lower upper nodes = (nodes.drop lower).take (upper - lower) := by
  -- Behind the first `k` nodes of a list the places are counted from `k`.
  suffices h : ∀ k, ((nodes.zipIdx k).filter fun entry =>
      decide (lower ≤ entry.2) && decide (entry.2 < upper)).map (·.1) =
        (nodes.drop (lower - k)).take (upper - max lower k) by
    unfold nodesBetween PseudoClass.keepPlaces
    simpa using h 0
  induction nodes with
  | nil => simp
  | cons n nodes ih =>
    intro k
    rw [List.zipIdx_cons]
    obtain hlower | hlower := Nat.lt_or_ge k lower
    · -- The node stands in front of the piece.
      have hdrop : lower - k = lower - (k + 1) + 1 := by omega
      have hmax : max lower k = max lower (k + 1) := by omega
      rw [List.filter_cons_of_neg (by simp; omega), ih, hdrop, List.drop_succ_cons, hmax]
    · have hdrop : lower - k = 0 := by omega
      have hdrop' : lower - (k + 1) = 0 := by omega
      obtain hupper | hupper := Nat.lt_or_ge k upper
      · -- The node is in the piece.
        have htake : upper - max lower k = upper - max lower (k + 1) + 1 := by omega
        rw [List.filter_cons_of_pos (by simp; omega), List.map_cons, ih, hdrop, hdrop',
          List.drop_zero, List.drop_zero, htake, List.take_succ_cons]
      · -- The node stands behind the piece, as all that follow it do.
        have htake : upper - max lower k = 0 := by omega
        have htake' : upper - max lower (k + 1) = 0 := by omega
        rw [List.filter_cons_of_neg (by simp; omega), ih, htake, htake', List.take_zero,
          List.take_zero]

/-- Two pieces with one start are the same exactly if they end at the same place, as far as the
places from the start up to the end of the list are concerned. -/
theorem nodesBetween_eq_iff {upper' : Nat} :
    nodesBetween lower upper nodes = nodesBetween lower upper' nodes ↔
      min (max lower upper) (max lower nodes.length) =
        min (max lower upper') (max lower nodes.length) := by
  have hmax : ∀ place, max lower place = lower + (place - lower) := fun place => by omega
  rw [nodesBetween_eq, nodesBetween_eq, List.take_eq_take_iff, List.length_drop, hmax, hmax, hmax,
    Nat.add_min_add_left, Nat.add_min_add_left, Nat.add_left_cancel_iff]

/-! ## Slices -/

/-- The count that leads up to an index, over all integers. -/
theorem toInt_countUpTo (start : Int64) (stop : Option Int64) :
    (countUpTo start stop).map Int64.toInt =
      (stop.map Int64.toInt).map fun stop =>
        if 0 < stop then nearest (stop - start.toInt) else stop := by
  have hzero : (0 : Int64).toInt = 0 := rfl
  cases stop with
  | none => rfl
  | some stop =>
    simp only [countUpTo, Option.map_some, Int64.lt_iff_toInt_lt, hzero]
    split_ifs
    · rw [toInt_saturatingSub]
    · rfl

/-- A negative index counts from the end, and stays in the list. -/
theorem placeOf_of_neg (length : Nat) (hi : i < 0) :
    (placeOf length i : Int) = max 0 (length + i) := by
  rw [placeOf, if_pos hi]
  omega

/-- Another index counts from the start, and stays in the list. -/
theorem placeOf_of_nonneg (length : Nat) (hi : 0 ≤ i) :
    (placeOf length i : Int) = min i length := by
  rw [placeOf, if_neg (by omega)]
  omega

/-- A place is at most the length. -/
theorem placeOf_le (length : Nat) (i : Int) : placeOf length i ≤ length := by
  rw [placeOf]
  omega

/-- A piece that is given by the count up to an index ends where the slice does, as far as the
places from its start on are concerned. -/
theorem max_stopOf_eq_max_reach (hlength : length < 2 ^ 63) (start : Int)
    (stop? : Option Int) :
    max (placeOf length start) (stopOf length (placeOf length start)
        (stop?.map fun stop => if 0 < stop then nearest (stop - start) else stop)) =
      max (placeOf length start) (reach length start stop?) := by
  cases stop? with
  | none => rfl
  -- By the signs of the two indices. With a negative start the count is more than the indices say,
  -- and with an end in front of the start it is negative.
  | some stop =>
    have hplace := placeOf_le length start
    rw [Option.map_some, stopOf, reach]
    obtain hpos | hpos := Int.lt_or_le 0 stop
    · rw [if_pos hpos, if_neg (by omega : ¬ stop ≤ 0)]
      obtain hneg | hnonneg := Int.lt_or_le start 0
      · have hstart := placeOf_of_neg length hneg
        rw [if_pos hneg, nearest_of_nonneg (by omega), if_neg (by omega)]
        omega
      · have hstart := placeOf_of_nonneg length hnonneg
        rw [if_neg (by omega : ¬ start < 0)]
        obtain hback | hle := Int.lt_or_le stop start
        · have hstop := placeOf_of_neg length (by omega : stop - start < 0)
          rw [if_neg (by omega : ¬ start ≤ stop), nearest_of_neg (by omega), if_pos (by omega)]
          omega
        · have hstop := placeOf_of_nonneg length (Int.le_of_lt hpos)
          rw [if_pos hle, nearest_of_nonneg (by omega), if_neg (by omega)]
          omega
    · rw [if_neg (by omega : ¬ 0 < stop), if_pos hpos]
      split_ifs with hcount
      · have hstop := placeOf_of_neg length hcount
        omega
      · have hstop := placeOf_of_nonneg length (by omega : 0 ≤ stop)
        omega

/-- The piece between two indices ends where the slice does. -/
theorem pieceBetween_eq (hnodes : nodes.length < 2 ^ 63) (start : Int64) (stop : Option Int64) :
    pieceBetween nodes start stop =
      nodesBetween (placeOf nodes.length start.toInt)
        (reach nodes.length start.toInt (stop.map Int64.toInt)) nodes := by
  rw [pieceBetween, piece_eq hnodes, toInt_countUpTo, ← nodesBetween_eq, nodesBetween_eq_iff,
    max_stopOf_eq_max_reach hnodes]

/-- A slice ends where its second index says exactly if its indices do not go astray. -/
theorem nodesBetween_reach_iff :
    nodesBetween (placeOf nodes.length start) (reach nodes.length start stop?) nodes =
        nodesBetween (placeOf nodes.length start) (endOf nodes.length stop?) nodes ↔
      ¬ Astray nodes.length start stop? := by
  rw [nodesBetween_eq_iff]
  cases stop? with
  | none => simp [reach, endOf, Astray]
  | some stop =>
    have hplace := placeOf_le nodes.length start
    simp only [reach, endOf, Astray, Option.mem_def, Option.some.injEq, exists_eq_left']
    -- A positive end and a negative start go astray if the count leads past the place of the end.
    obtain hpos | hpos := Int.lt_or_le 0 stop
    · have hstop := placeOf_of_nonneg nodes.length (Int.le_of_lt hpos)
      rw [if_neg (by omega : ¬ stop ≤ 0)]
      obtain hneg | hnonneg := Int.lt_or_le start 0
      · have hstart := placeOf_of_neg nodes.length hneg
        rw [if_pos hneg]
        omega
      · have hstart := placeOf_of_nonneg nodes.length hnonneg
        rw [if_neg (by omega : ¬ start < 0)]
        obtain hback | hle := Int.lt_or_le stop start
        · have hback' := placeOf_of_neg nodes.length (by omega : stop - start < 0)
          rw [if_neg (by omega : ¬ start ≤ stop)]
          omega
        · rw [if_pos hle]
          omega
    · rw [if_pos hpos]
      omega

/-! ## The argument of `:slice` -/

/-- The text of the indices of a slice, with a gap behind the comma. -/
def sliceText (gap : List Char) (start : Int64) : Option Int64 → String
  | none => toString start.toInt
  | some stop => toString start.toInt ++ "," ++ String.ofList gap ++ toString stop.toInt

/-- Two indices are written with a comma and a gap between them. -/
theorem toList_sliceText_some (gap : List Char) (start stop : Int64) :
    (sliceText gap start (some stop)).toList =
      (toString start.toInt).toList ++ ',' :: (gap ++ (toString stop.toInt).toList) := by
  simp [sliceText]

/-- An index as it is read back: the least integer of 64 bits is read as the next one. -/
def readBack (index : Int64) : Int64 :=
  Bounded.read (toString index.toInt).toList

/-- An index that is written is read back, but for the least one. -/
theorem toInt_readBack (index : Int64) :
    (readBack index).toInt = max (-(2 ^ 63 - 1)) index.toInt := by
  have hlt := index.toInt_lt
  rw [readBack, toInt_read, integerAt_toString]
  omega

/-- An index that is so far below zero counts from in front of the list. -/
theorem placeOf_max (hlength : length < 2 ^ 63) (i : Int) :
    placeOf length (max (-(2 ^ 63 - 1)) i) = placeOf length i := by
  rw [placeOf, placeOf]
  split_ifs <;> omega

/-- Where a slice ends does not depend on the least index, which is not read back. -/
theorem reach_max (hlength : length < 2 ^ 63) (start : Int) (stop? : Option Int) :
    reach length (max (-(2 ^ 63 - 1)) start) (stop?.map (max (-(2 ^ 63 - 1)))) =
      reach length start stop? := by
  cases stop? with
  | none => rfl
  | some stop =>
    rw [Option.map_some, reach, reach, placeOf_max hlength]
    obtain hpos | hpos := Int.lt_or_le 0 stop
    · -- A positive end is left as it is, and so is a start that does not count from the end.
      rw [if_neg (by omega), if_neg (by omega : ¬ stop ≤ 0)]
      obtain hneg | hnonneg := Int.lt_or_le start 0
      · rw [if_pos (by omega), if_pos hneg]
      · have hstart : max (-(2 ^ 63 - 1)) start = start := by omega
        have hstop : max (-(2 ^ 63 - 1)) stop = stop := by omega
        rw [hstart, hstop]
    · rw [if_pos (by omega), if_pos hpos]

/-- The indices that a text writes give the same piece as the indices themselves. -/
theorem pieceBetween_readBack (hnodes : nodes.length < 2 ^ 63) (start : Int64)
    (stop : Option Int64) :
    pieceBetween nodes (readBack start) (stop.map readBack) = pieceBetween nodes start stop := by
  have hstop : (stop.map readBack).map Int64.toInt =
      (stop.map Int64.toInt).map (max (-(2 ^ 63 - 1))) := by
    cases stop with
    | none => rfl
    | some stop => exact congrArg some (toInt_readBack stop)
  rw [pieceBetween_eq hnodes, pieceBetween_eq hnodes, toInt_readBack, hstop, placeOf_max hnodes,
    reach_max hnodes]

namespace PseudoClass

/-- The text in front of a comma stays as it is. -/
theorem tightenCommas_append {front : List Char} (hfront : ',' ∉ front) (rest : List Char) :
    tightenCommas (front ++ rest) = front ++ tightenCommas rest := by
  induction front with
  | nil => rfl
  | cons c front ih =>
    rw [List.mem_cons, not_or] at hfront
    rw [List.cons_append, tightenCommas, ih hfront.2]
    · rfl
    · rintro cs rfl
      exact absurd rfl hfront.1

/-- Without commas a text stays as it is. -/
theorem tightenCommas_eq_self {cs : List Char} (hcs : ',' ∉ cs) : tightenCommas cs = cs := by
  simpa [tightenCommas] using tightenCommas_append hcs []

/-- Of the blanks behind a comma at most one is lost. -/
theorem tightenCommas_comma {gap cs : List Char} (hgap : ∀ c ∈ gap, Text.isBlank c = true)
    (hcomma : ',' ∉ cs) (hspace : ' ' ∉ cs) :
    ∃ gap', (∀ c ∈ gap', Text.isBlank c = true) ∧
      tightenCommas (',' :: (gap ++ cs)) = ',' :: (gap' ++ cs) := by
  have hgap' : ',' ∉ gap := fun hmem => absurd (hgap _ hmem) (by decide)
  have happend : ',' ∉ gap ++ cs := by simp [hgap', hcomma]
  obtain ⟨rest, rfl⟩ | hrest := em (∃ rest, gap = ' ' :: rest)
  · refine ⟨rest, fun c hc => hgap c (List.mem_cons_of_mem _ hc), ?_⟩
    rw [List.cons_append, tightenCommas, tightenCommas_eq_self]
    exact fun hmem => happend (List.mem_cons_of_mem _ hmem)
  · refine ⟨gap, hgap, ?_⟩
    rw [tightenCommas, tightenCommas_eq_self happend]
    -- The text behind the comma does not start with a space.
    rintro rest - hcons
    cases gap with
    | nil => exact hspace (by rw [← List.nil_append cs, hcons]; exact List.mem_cons_self)
    | cons c gap =>
      obtain ⟨rfl, -⟩ := List.cons.inj hcons
      exact hrest ⟨gap, rfl⟩

/-- A text of one index gives a piece without an end. -/
theorem sliceOf_of_not_mem {cs : List Char} (hcs : ',' ∉ cs) :
    sliceOf nodes cs = pieceBetween nodes (Bounded.read cs) none := by
  have hsplit : cs.splitOnP (· == ',') = [cs] :=
    List.splitOnP_eq_singleton fun c hc => beq_false_of_ne (ne_of_mem_of_not_mem hc hcs)
  rw [sliceOf, tightenCommas_eq_self hcs, hsplit]

/-- A text of two indices with a comma between them gives the piece between the two. -/
theorem sliceOf_comma {front back gap : List Char} (hfront : ',' ∉ front) (hback : ',' ∉ back)
    (hspace : ' ' ∉ back) (hgap : ∀ c ∈ gap, Text.isBlank c = true) :
    sliceOf nodes (front ++ ',' :: (gap ++ back)) =
      pieceBetween nodes (Bounded.read front) (some (Bounded.read back)) := by
  -- Blanks behind the comma are dropped, and those that are left in front of the number do not
  -- matter.
  obtain ⟨gap', hgap', htighten⟩ := tightenCommas_comma hgap hback hspace
  have hsplit : (gap' ++ back).splitOnP (· == ',') = [gap' ++ back] := by
    refine List.splitOnP_eq_singleton fun c hc => beq_false_of_ne ?_
    obtain hc | hc := List.mem_append.mp hc
    · rintro rfl
      exact absurd (hgap' _ hc) (by decide)
    · exact ne_of_mem_of_not_mem hc hback
  have hread : Bounded.read (gap' ++ back) = Bounded.read back := by
    rw [← Int64.toInt_inj, toInt_read, toInt_read, integerAt_append hgap']
  rw [sliceOf, tightenCommas_append hfront, htighten,
    List.splitOnP_append_cons_of_forall_mem
      (fun c hc => beq_false_of_ne (ne_of_mem_of_not_mem hc hfront)) _ rfl, hsplit]
  exact congrArg (fun stop => pieceBetween nodes _ (some stop)) hread

/-- An argument that is neither quoted nor in blanks is read as it is. -/
theorem argumentOf_eq_toList {text : String}
    (hhead : ∀ c ∈ text.toList.head?, Text.isBlank c = false ∧ c ≠ '"' ∧ c ≠ '\'')
    (hlast : ∀ c ∈ text.toList.getLast?, Text.isBlank c = false) :
    argumentOf (some text) = text.toList := by
  change Text.unquote (Text.trim text.toList) = text.toList
  rw [Text.trim_eq_self (fun c hc => (hhead c hc).1) hlast]
  obtain hself | ⟨mark, hmark, hcs⟩ := Text.unquote_cases text.toList
  · exact hself
  · have hne := hhead mark (by rw [hcs]; rfl)
    exact absurd hmark (not_or.mpr hne.2)

/-- A character of a number is none of those that have a meaning around numbers. -/
theorem ne_of_mem_toString {c : Char} (hc : c ∈ (toString i).toList) :
    Text.isBlank c = false ∧ c ≠ '"' ∧ c ≠ '\'' ∧ c ≠ ',' ∧ c ≠ ' ' := by
  obtain rfl | hdigit := of_mem_toString hc
  · decide
  · refine ⟨isBlank_eq_false_of_isDigit hdigit, ?_, ?_, ?_, ?_⟩ <;>
    · rintro rfl
      exact absurd hdigit (by decide)

/-- A number is written without commas and spaces. -/
theorem not_mem_toString (i : Int) :
    ',' ∉ (toString i).toList ∧ ' ' ∉ (toString i).toList :=
  ⟨fun hc => (ne_of_mem_toString hc).2.2.2.1 rfl, fun hc => (ne_of_mem_toString hc).2.2.2.2 rfl⟩

/-- The text of indices starts and ends with a number. -/
theorem ends_sliceText (gap : List Char) (start : Int64) (stop : Option Int64) :
    (∃ i : Int, ∀ c ∈ (sliceText gap start stop).toList.head?, c ∈ (toString i).toList) ∧
      ∃ i : Int, ∀ c ∈ (sliceText gap start stop).toList.getLast?, c ∈ (toString i).toList := by
  -- A single index is the whole text.
  cases stop with
  | none =>
    exact ⟨⟨start.toInt, fun _ => List.mem_of_mem_head?⟩,
      ⟨start.toInt, fun _ => List.mem_of_mem_getLast?⟩⟩
  -- Of two indices, the text starts with the first one and ends with the second one.
  | some stop =>
    have hlast : (sliceText gap start (some stop)).toList =
        ((toString start.toInt).toList ++ ',' :: gap) ++ (toString stop.toInt).toList := by
      rw [toList_sliceText_some, List.append_assoc, List.cons_append]
    refine ⟨⟨start.toInt, ?_⟩, ⟨stop.toInt, ?_⟩⟩
    · rw [toList_sliceText_some, List.head?_append_of_ne_nil _ (toList_toString_ne_nil _)]
      exact fun _ => List.mem_of_mem_head?
    · rw [hlast, List.getLast?_append_of_ne_nil _ (toList_toString_ne_nil _)]
      exact fun _ => List.mem_of_mem_getLast?

/-- The text of indices is the argument that is read. -/
theorem argumentOf_sliceText (gap : List Char) (start : Int64) (stop : Option Int64) :
    argumentOf (some (sliceText gap start stop)) = (sliceText gap start stop).toList := by
  obtain ⟨⟨i, hhead⟩, j, hlast⟩ := ends_sliceText gap start stop
  refine argumentOf_eq_toList (fun c hc => ?_) fun c hc => (ne_of_mem_toString (hlast c hc)).1
  obtain ⟨hblank, hdouble, hsingle, -, -⟩ := ne_of_mem_toString (hhead c hc)
  exact ⟨hblank, hdouble, hsingle⟩

/-- The pieces that the argument of `:slice` gives are those between the indices that it writes. -/
theorem sliceOf_sliceText {gap : List Char} (hgap : ∀ c ∈ gap, Text.isBlank c = true)
    (start : Int64) (stop : Option Int64) :
    sliceOf nodes (sliceText gap start stop).toList =
      pieceBetween nodes (readBack start) (stop.map readBack) := by
  have hstart := not_mem_toString start.toInt
  cases stop with
  | none => exact sliceOf_of_not_mem hstart.1
  | some stop =>
    have hstop := not_mem_toString stop.toInt
    rw [toList_sliceText_some, sliceOf_comma hstart.1 hstop.1 hstop.2 hgap]
    rfl

end PseudoClass

/-- The pseudo-class keeps the piece between the indices in its argument. -/
theorem Query.narrow_slice {gap : List Char} (hgap : ∀ c ∈ gap, Text.isBlank c = true)
    (hnodes : nodes.length < 2 ^ 63) (settings : Settings) (start : Int64) (stop : Option Int64) :
    Query.narrow settings "slice" (some (sliceText gap start stop)) nodes =
      pure (pieceBetween nodes start stop) := by
  have hname : PseudoClass.ofName? "slice" = some .slice := by decide
  rw [Query.narrow, hname]
  change pure (PseudoClass.sliceOf nodes _) = _
  rw [PseudoClass.argumentOf_sliceText, PseudoClass.sliceOf_sliceText hgap,
    pieceBetween_readBack hnodes]

namespace Selection

/-- A slice and the pseudo-class for the same indices keep the nodes from the place that the start
stands for up to where a slice ends. These are the nodes up to the place that the end stands for
exactly if the indices do not go astray. -/
theorem slice_exact_iff (settings : Settings) (selection : Selection)
    (hnodes : selection.nodes.length < 2 ^ 63) (start : Int64) (stop : Option Int64)
    {gap : List Char} (hgap : ∀ c ∈ gap, Text.isBlank c = true) :
    let length := selection.nodes.length
    let lower := placeOf length start.toInt
    let stop? := stop.map Int64.toInt
    let sliced := (selection.slice start stop).nodes
    sliced = nodesBetween lower (reach length start.toInt stop?) selection.nodes ∧
      Query.narrow settings "slice" (some (sliceText gap start stop)) selection.nodes =
        pure sliced ∧
      (sliced = nodesBetween lower (endOf length stop?) selection.nodes ↔
        ¬ Astray length start.toInt stop?) := by
  -- A slice is the piece between its two indices, whose rules over all integers are known.
  have hsliced : (selection.slice start stop).nodes = pieceBetween selection.nodes start stop :=
    rfl
  have hpiece := pieceBetween_eq hnodes start stop
  refine ⟨hpiece, Query.narrow_slice hgap hnodes settings start stop, ?_⟩
  rw [hsliced, hpiece]
  exact nodesBetween_reach_iff

/-- Of six nodes those at the places 1 to 4 are taken, whichever way the indices are given. -/
theorem slice_exact_iff_six :
    ([1, 2, 3, 4, 5, 6] : List NodeId).length < 2 ^ 63 ∧
      (∀ c ∈ [' '], Text.isBlank c = true) ∧
      ((Selection.start [1, 2, 3, 4, 5, 6]).slice 1 (some (-1))).nodes = [2, 3, 4, 5] ∧
      Query.narrow .default "slice" (some "1, -1") [1, 2, 3, 4, 5, 6] = pure [2, 3, 4, 5] ∧
      ¬ Astray 6 1 (some (-1)) := by
  have hlength : ([1, 2, 3, 4, 5, 6] : List NodeId).length < 2 ^ 63 := by decide
  have hgap : ∀ c ∈ [' '], Text.isBlank c = true := List.forall_mem_singleton.mpr rfl
  obtain ⟨hpiece, hnarrow, hiff⟩ :=
    slice_exact_iff .default (Selection.start [1, 2, 3, 4, 5, 6]) hlength 1 (some (-1)) hgap
  -- The slice is computed, and the other claims follow from it.
  have hsliced : ((Selection.start [1, 2, 3, 4, 5, 6]).slice 1 (some (-1))).nodes =
      [2, 3, 4, 5] := by decide
  have htext : sliceText [' '] 1 (some (-1)) = "1, -1" := by decide
  rw [hsliced] at hnarrow hiff
  rw [htext] at hnarrow
  exact ⟨hlength, hgap, hsliced, hnarrow, hiff.mp (by decide)⟩

/-- The places 1 and 2 are meant, and the node at the place 3 is taken as well. With the start
behind the end no places are between the two, and yet a node is taken. -/
theorem slice_not_between :
    ((Selection.start [1, 2, 3, 4]).slice (-3) (some 3)).nodes = [2, 3, 4] ∧
      nodesBetween (placeOf 4 (-3)) (endOf 4 (some 3)) [1, 2, 3, 4] = [2, 3] ∧
      ((Selection.start [1, 2, 3, 4]).slice 2 (some 1)).nodes = [3] ∧
      nodesBetween (placeOf 4 2) (endOf 4 (some 1)) [1, 2, 3, 4] = [] := by
  decide

end Selection

end TreeQuery
