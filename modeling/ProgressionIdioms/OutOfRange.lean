/-!
# Reads past the end

Every table of the library is indexed by plain numbers that nothing checks in advance. A
read at a position the table does not have stops the whole computation; this records where.
-/

namespace ProgressionIdioms

/-- A read at position `index` of a table holding `size` entries, with `size ≤ index`. -/
structure OutOfRange where
  /-- The number of entries the table held. -/
  size : Nat
  /-- The position that was read. -/
  index : Nat
deriving DecidableEq, Repr

/-- The message reported for a read past the end. -/
def OutOfRange.message (e : OutOfRange) : String :=
  "index out of bounds: the len is " ++ toString e.size ++ " but the index is " ++
    toString e.index

end ProgressionIdioms
