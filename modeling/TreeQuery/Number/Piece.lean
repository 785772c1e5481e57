import TreeQuery.Number.Bounded

/-!
# Pieces of a list

The piece of a list that an offset and a length give, either of which may count from the end, and
the piece between two indices.
-/

namespace TreeQuery

open Bounded

/-- The length of a list as an integer of 64 bits. -/
def boundedLength {α : Type} (items : List α) : Int64 :=
  saturate items.length

/-- Where a piece starts: a negative offset counts from the end. -/
def pieceStart (length offset : Int64) : Int64 :=
  if offset < 0 then max (length + offset) 0 else min offset length

/-- Where a piece ends: a negative count leaves out that many items at the end, and without a count
the piece reaches to the end. -/
def pieceEnd (length start : Int64) : Option Int64 → Int64
  | none => length
  | some count =>
    if count < 0 then max (length + count) start else min (saturatingAdd start count) length

/-- The piece of a list that starts at `offset` and has `count` items. -/
def piece {α : Type} (items : List α) (offset : Int64) (count : Option Int64) : List α :=
  let length := boundedLength items
  let start := pieceStart length offset
  let stop := pieceEnd length start count
  (items.drop start.toNatClampNeg).take (stop.toNatClampNeg - start.toNatClampNeg)

/-- The count of items up to an index: a positive index is taken relative to where the piece starts,
and any other is a count already. -/
def countUpTo (start : Int64) (stop : Option Int64) : Option Int64 :=
  stop.map fun stop => if 0 < stop then saturatingSub stop start else stop

/-- The piece of a list from the index `start` up to the index `stop`. -/
def pieceBetween {α : Type} (items : List α) (start : Int64) (stop : Option Int64) : List α :=
  piece items start (countUpTo start stop)

end TreeQuery
