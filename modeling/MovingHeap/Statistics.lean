import MovingHeap.ByteSize

/-! What a heap counts over its life and the snapshot of it that hosts read.
Sizes are in bytes.
-/

namespace MovingHeap

/-- What a heap counts as it runs. -/
structure Counters where
  minorCollections : Nat := 0
  fullCollections : Nat := 0
  /-- Bytes that minor collections copied out of the birth region. -/
  totalPromoted : Nat := 0
  /-- Bytes that the last collection of either kind copied. -/
  lastCopied : Nat := 0
  barrierRecords : Nat := 0
  /-- Barrier calls for slots that were among the last remembered ones. -/
  barrierDuplicates : Nat := 0
  fixedAllocated : Nat := 0
  fixedReclaimed : Nat := 0
  destructorsRun : Nat := 0
  deriving DecidableEq, Repr, Inhabited

/-- The counters together with what the regions hold at the moment. -/
structure Statistics extends Counters where
  fixedLive : Nat := 0
  fixedLiveBytes : Nat := 0
  birthUsed : Nat := 0
  birthCapacity : Nat := 0
  remembered : Nat := 0
  oldUsed : Nat := 0
  oldCapacity : Nat := 0
  deriving DecidableEq, Repr, Inhabited

/-- A snapshot as a table of lines. -/
def Statistics.text (s : Statistics) : String :=
  let size := ByteSize.text
  "Heap statistics:\n"
    ++ s!"  Birth region: {size s.birthUsed} of {size s.birthCapacity} "
    ++ s!"({s.remembered} remembered slots)\n"
    ++ s!"  Old region: {size s.oldUsed} of {size s.oldCapacity}\n"
    ++ s!"  Fixed region: {s.fixedLive} objects, {size s.fixedLiveBytes}\n"
    ++ s!"  Collections: {s.minorCollections} minor, {s.fullCollections} full\n"
    ++ s!"  Total promoted: {size s.totalPromoted} (last cycle copied {size s.lastCopied})\n"
    ++ s!"  Barrier records: {s.barrierRecords} ({s.barrierDuplicates} duplicates skipped)\n"
    ++ s!"  Fixed objects allocated: {s.fixedAllocated}, reclaimed: {s.fixedReclaimed}, "
    ++ s!"destructors run: {s.destructorsRun}\n"

end MovingHeap
