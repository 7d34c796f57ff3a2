import MovingHeap.Collector.Collection

/-! Memory for new objects, moving and fixed.
A moving object may need a collection first; a fixed one never does, but too many of them make a
full collection pending.
-/

namespace MovingHeap.World

variable {σ δ : Type}

/-- Memory is handed out only while no collection runs. -/
def ensureIdle : Action (World σ δ) Unit := do
  let phase := (← heapNow).phase
  if phase ≠ .idle then stop (.allocationInCollection phase)

/-- Collects if a full collection is pending or `words` do not fit. -/
def makeRoom (host : Host σ δ) (words : Nat) : Action (World σ δ) Unit := do
  let heap ← heapNow
  match heap.pendingFull with
  | some reason => Collector.collectFor host words true reason
  | none =>
      if !heap.regions.birth.fits words then
        Collector.collectFor host words false .allocationFailure

/-- Allocates `size` bytes at the next multiple of `stride` words. -/
def reserve (host : Host σ δ) (size stride : Nat) : Action (World σ δ) Address := do
  let words := max (wordsFor size) minObjectWords
  let room := words + (stride - 1)
  let most := (← heapNow).regions.birth.maxObjectWords
  if most < room then stop (.objectTooLarge size (most * wordBytes))
  else
    makeRoom host room
    let birth := (← heapNow).regions.birth
    let padded := birth.bump ((birth.padding? stride).getD 0)
    modifyRegions ({ · with birth := padded.bump words })
    return padded.next

/-- Allocates `size` bytes in the birth region; what the memory holds is left open. -/
def allocate (host : Host σ δ) (size : Nat) : Action (World σ δ) Address := do
  ensureIdle
  reserve host size 1

/-- Whether addresses can be aligned to so many bytes: to one word up to 32 words. -/
def isAlignment (align : Nat) : Bool :=
  isPowerOfTwo align && wordBytes ≤ align && align ≤ 32 * wordBytes

/-- Allocates `size` bytes in the birth region at a multiple of `align` bytes. -/
def allocateAligned (host : Host σ δ) (size align : Nat) : Action (World σ δ) Address := do
  ensureIdle
  if isAlignment align then reserve host size (align / wordBytes)
  else stop (.badAlignment align)

/-- Makes a full collection pending unless one is. -/
def requestFull (reason : Reason) : Action (World σ δ) Unit :=
  modifyHeap fun heap => { heap with pendingFull := heap.pendingFull <|> some reason }

/-- Allocates `size` zeroed bytes, a word at least, that never move. -/
def allocateFixed (size : Nat) (destructor : Option δ) (executable : Bool)
    : Action (World σ δ) Address := do
  ensureIdle
  let (start, fixed) := (← heapNow).regions.fixed.allocate (max (wordsFor size) 1) destructor
    executable
  modifyRegions ({ · with fixed })
  count fun counters => { counters with fixedAllocated := counters.fixedAllocated + 1 }
  let heap ← heapNow
  if heap.fixedThreshold < heap.regions.fixed.liveWords then requestFull .fixedSpaceGrowth
  return .pack .fixed start

/-- Gives up on a fixed object: the next full collection clears the references to it and frees it
without running its destructor.
-/
def forgetFixed (object : Address) : Action (World σ δ) Unit := do
  let space := (← heapNow).regions.fixed
  let forgotten := if object.space = .fixed then space.forget? object.offset else none
  let fixed ← require forgotten (.notFixed object)
  modifyRegions ({ · with fixed })

/-- The words of the fixed object that begins at `object`. -/
def fixedWords (world : World σ δ) (object : Address) : Option Nat :=
  if object.space = .fixed then
    (world.heap.regions.fixed.occupant? object.offset).map Occupant.words
  else none

end MovingHeap.World
