import MovingHeap.Collector.Full

/-! Which collections run when memory is asked for.
A minor collection is followed by a full one if it leaves no room for promoting another birth
region.
-/

namespace MovingHeap

variable {σ δ : Type}

namespace Collector

/-- Collects so that `words` can be allocated in the birth region afterwards. -/
def collectFor (host : Host σ δ) (words : Nat) (wantsFull : Bool) (reason : Reason)
    : Action (World σ δ) Unit := do
  let heap ← World.heapNow
  let most := heap.regions.birth.maxObjectWords
  if heap.phase ≠ .idle then World.stop (.nestedCollection heap.phase)
  else if most < words then World.stop (.objectTooLarge (words * wordBytes) (most * wordBytes))
  else if wantsFull then full host reason
  else
    match heap.pendingFull with
    | some pending => full host pending
    | none =>
        minor host reason
        let regions := (← World.heapNow).regions
        if regions.old.free < regions.birth.capacity then full host .oldSpaceFull

end Collector

namespace World

/-- Makes room for `size` bytes, by a full collection if one is asked for or pending. -/
def collect (host : Host σ δ) (size : Nat) (wantsFull : Bool) : Action (World σ δ) Unit :=
  Collector.collectFor host (wordsFor size) wantsFull .requestedByUser

/-- Runs a minor collection, or a full one if one is pending. -/
def collectMinor (host : Host σ δ) : Action (World σ δ) Unit :=
  Collector.collectFor host 0 false .requestedByUser

/-- Runs a full collection. -/
def collectFull (host : Host σ δ) : Action (World σ δ) Unit :=
  Collector.collectFor host 0 true .requestedByUser

end World

end MovingHeap
