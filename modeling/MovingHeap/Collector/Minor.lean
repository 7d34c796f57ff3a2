import MovingHeap.Collector.Visiting

/-! The collection of young objects.
What is reachable from the roots is copied out of the birth region behind the old objects; then the
copies are scanned in order, which copies what they refer to behind them, until none is left.
-/

namespace MovingHeap.Collector

variable {σ δ : Type}

/-- Scans the objects of the old region from offset `scan` on. Scanning moves forward, so the words
behind `scan` bound the number of `objects`.
-/
def scanPromoted (host : Host σ δ) (phase : Phase) (space : Space)
    : (objects scan : Nat) → Action (Site σ δ) Unit
  | 0, _ => pure ()
  | objects + 1, scan => do
      if scan < (← get).regions.old.cursor then
        let object := Address.pack space scan
        let next ← runVisit host phase (host.scanMinor object)
        let scan ← checkNext space (← get).regions.old.cursor object next
        scanPromoted host phase space objects scan

/-- Numbers a collection. -/
def nextId : Action (World σ δ) Nat := do
  let id := (← World.heapNow).collections
  World.modifyHeap ({ · with collections := id + 1 })
  return id

/-- Visits everything that may refer to young objects from outside of the birth region. -/
def visitMinorRoots (host : Host σ δ) : Action (World σ δ) Unit := do
  visitRoots host (← World.heapNow).frameRoots
  visitRoots host (← World.heapNow).pendingRoots
  World.onSite (visitRemembered host (← World.heapNow).regions.birth.remembered)
  visitRoots host (← World.heapNow).changedModuleRoots
  visitRoots host (← World.heapNow).dirtyConstantRoots
  let fresh := (← World.heapNow).regions.fixed.freshObjects
  World.modifyRegions fun regions => { regions with fixed := regions.fixed.clearFresh }
  World.onSite (scanFixedList host (← World.heapNow).phase host.scanFixedMinor fresh)
  visit host host.extraMinorRoots

/-- Empties the birth region and forgets what changed since the last collection. -/
def resetYoung (heap : Heap δ) : Heap δ :=
  { heap with
    regions := { heap.regions with birth := heap.regions.birth.reset }
    modules := heap.modules.clearChanged
    constants := heap.constants.clearDirty }

/-- Promotes every young object that is reachable. -/
def minor (host : Host σ δ) (reason : Reason) : Action (World σ δ) Unit := do
  let id ← nextId
  let start := (← World.heapNow).regions.old
  World.modifyRegions ({ · with copied := 0 })
  World.enterPhase .scanningRoots
  visitMinorRoots host
  World.enterPhase .relocating
  World.onSite (scanPromoted host .relocating start.space start.free start.cursor)
  World.enterPhase .sweeping
  let promoted := (← World.heapNow).regions.copied * wordBytes
  World.modifyHeap resetYoung
  World.enterPhase .idle
  World.count fun counters => { counters with
    minorCollections := counters.minorCollections + 1
    totalPromoted := counters.totalPromoted + promoted
    lastCopied := promoted }
  World.report (.minorFinished id promoted)
  let heap ← World.heapNow
  if heap.config.verbose then
    World.report (.pausedYoung id reason promoted (heap.regions.old.cursor * wordBytes))

end MovingHeap.Collector
