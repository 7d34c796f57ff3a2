import MovingHeap.Value

/-! The extent of a region: where it starts, how far it is allocated and where it ends. -/

namespace MovingHeap

/-- The words from `low` to before `cur` are allocated, those from `cur` to before `high` free. -/
structure RegionBounds where
  low : Address
  cur : Address
  high : Address
  deriving DecidableEq, Repr

namespace RegionBounds

/-- The bounds of a region that starts at offset zero. -/
def ofRegion (space : Space) (cursor capacity : Nat) : RegionBounds where
  low := .pack space 0
  cur := .pack space cursor
  high := .pack space capacity

/-- Whether `addr` lies in the allocated part; addresses are compared as words. -/
def contains (bounds : RegionBounds) (addr : Address) : Bool :=
  bounds.low.raw ≤ addr.raw && addr.raw < bounds.cur.raw

/-- The three bounds in order. -/
def toList (bounds : RegionBounds) : List Address := [bounds.low, bounds.cur, bounds.high]

/-- The bounds as a record. -/
def text (bounds : RegionBounds) : String :=
  s!"RegionBounds \x7b low: {bounds.low.text}, cur: {bounds.cur.text}, "
    ++ s!"high: {bounds.high.text} \x7d"

end RegionBounds

end MovingHeap
