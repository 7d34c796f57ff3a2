import MovingHeap.Collector.Minor

/-! The collection of everything.
Reachable birth and old objects are copied into a fresh semispace, which replaces the old one;
reachable fixed objects are marked and the others destroyed.
-/

namespace MovingHeap.Collector

variable {σ δ : Type}

/-- Scans the objects of the target from offset `scan` on and, whenever none is left, the fixed
object marked last. Every step scans a further word or an object that was just marked for the first
time, which bounds the number of `steps`.
-/
def scanSurvivors (host : Host σ δ) (phase : Phase) (space : Space)
    : (steps scan : Nat) → Action (Site σ δ) Unit
  | 0, _ => pure ()
  | steps + 1, scan => do
      let regions := (← get).regions
      if scan < regions.destination.cursor then
        let object := Address.pack space scan
        let next ← runVisit host phase (host.scanFull object)
        let scan ← checkNext space (← get).regions.destination.cursor object next
        scanSurvivors host phase space steps scan
      else
        match regions.unscanned with
        | [] => pure ()
        | start :: rest =>
            Site.modifyRegions ({ · with unscanned := rest })
            scanFixed host phase host.scanFixedFull start
            scanSurvivors host phase space steps scan

/-- The words of the next semispace: what is configured, and never less than all that is in use
and another birth region.
-/
def targetWords (heap : Heap δ) : Nat :=
  let regions := heap.regions
  max heap.config.oldWords
    (regions.old.cursor + regions.birth.cursor + regions.birth.capacity)

/-- Opens the semispace that survivors are copied to. -/
def openTarget (mapper : Mapper) : Action (World σ δ) Semispace := do
  let heap ← World.heapNow
  let capacity := targetWords heap
  let words ← World.require (mapper.map? capacity) (.regionMap (capacity * wordBytes))
  let target := { space := heap.regions.old.space.flipped, words }
  World.modifyRegions ({ · with target := some target, copied := 0 })
  return target

/-- Visits everything that keeps objects alive. -/
def visitFullRoots (host : Host σ δ) : Action (World σ δ) Unit := do
  visitRoots host (← World.heapNow).frameRoots
  visitRoots host (← World.heapNow).pendingRoots
  visitRoots host (← World.heapNow).moduleRoots
  visitRoots host (← World.heapNow).constantRoots
  visit host host.extraFullRoots

/-- Destroys the fixed objects that were not marked. -/
def sweepFixed (host : Host σ δ) : Action (Site σ δ) SweepOutcome := do
  let site ← get
  match site.regions.fixed.sweep host.destroy site.host with
  | .error start => Site.stop (.corruptFixedHeader start)
  | .ok swept =>
      Site.modifyRegions ({ · with fixed := swept.space })
      Site.accept { answer := swept.outcome, host := swept.host, notes := swept.notes }

/-- Replaces the old semispace by the target. -/
def adoptTarget (regions : Regions δ) : Regions δ :=
  { regions with
    old := regions.destination
    target := none
    fixed := regions.fixed.clearFresh }

/-- Lets the host know of a full collection. -/
def callHook (hook : σ → Reply σ Unit) : Action (Site σ δ) Unit := do
  Site.accept (hook (← get).host)

/-- Keeps what is reachable and nothing else. -/
def full (host : Host σ δ) (reason : Reason) : Action (World σ δ) Unit := do
  let id ← nextId
  World.onSite (callHook host.beforeFull)
  let before := (← World.heapNow).regions
  World.enterPhase .scanningRoots
  let target ← openTarget host.mapper
  visitFullRoots host
  World.enterPhase .relocating
  World.onSite (scanSurvivors host .relocating target.space
    (target.capacity + before.fixed.slots.length) 0)
  World.enterPhase .sweeping
  let copied := (← World.heapNow).regions.copied * wordBytes
  let outcome ← World.onSite (sweepFixed host)
  World.modifyRegions adoptTarget
  World.modifyHeap resetYoung
  let live := (← World.heapNow).regions.fixed.liveWords
  World.enterPhase .idle
  World.modifyHeap fun heap => { heap with
    pendingFull := none
    fixedThreshold := max heap.config.fixedThresholdWords (live * 2) }
  World.count fun counters => { counters with
    fullCollections := counters.fullCollections + 1
    lastCopied := copied
    fixedReclaimed := counters.fixedReclaimed + outcome.reclaimed
    destructorsRun := counters.destructorsRun + outcome.destroyed }
  World.onSite (callHook host.afterFull)
  World.report (.fullFinished id copied outcome.reclaimed)
  let heap ← World.heapNow
  if heap.config.verbose then
    World.report (.pausedFull id reason ((before.old.cursor + before.birth.cursor) * wordBytes)
      (heap.regions.old.cursor * wordBytes) outcome.reclaimed (live * wordBytes))

end MovingHeap.Collector
