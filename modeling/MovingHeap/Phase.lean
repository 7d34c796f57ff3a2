/-! What the collector is doing and why it was started.
A phase other than idle outlives the operation only if a violation interrupted the collection.
-/

namespace MovingHeap

/-- The state of the collector; anything but idle means that a collection is running. -/
inductive Phase where
  | idle
  | scanningRoots
  | relocating
  | sweeping
  deriving DecidableEq, Repr, Inhabited

/-- The name of a phase in texts. -/
def Phase.text : Phase → String
  | idle => "Idle"
  | scanningRoots => "ScanningRoots"
  | relocating => "Relocating"
  | sweeping => "Sweeping"

/-- What a collection was started for. -/
inductive Reason where
  | requestedByUser
  | allocationFailure
  | storeBufferFull
  | oldSpaceFull
  | fixedSpaceGrowth
  deriving DecidableEq, Repr, Inhabited

/-- The name of a reason in texts. -/
def Reason.text : Reason → String
  | requestedByUser => "RequestedByUser"
  | allocationFailure => "AllocationFailure"
  | storeBufferFull => "StoreBufferFull"
  | oldSpaceFull => "OldSpaceFull"
  | fixedSpaceGrowth => "FixedSpaceGrowth"

end MovingHeap
