import MovingHeap.Collector.Collection

/-! Reading and writing managed memory.
References to young objects that are stored outside of the birth region have to be recorded, or the
next minor collection does not find them.
-/

namespace MovingHeap.World

variable {σ δ : Type}

/-- The word at an address. -/
def load (addr : Address) : Action (World σ δ) Word := do
  require ((← heapNow).regions.word? addr) (.danglingReference addr.raw)

/-- The value in a slot. -/
def read (slot : Address) : Action (World σ δ) Value := Value.mk <$> load slot

/-- Writes a word; references go through `write`. -/
def store (addr : Address) (word : Word) : Action (World σ δ) Unit := do
  let regions ← require ((← heapNow).regions.setWord? addr word) (.danglingReference addr.raw)
  modifyRegions fun _ => regions

/-- Records that a slot may hold a reference to a young object. Slots of the birth region need no
record; a slot recorded just before may be left out. A collection runs when records are about to
meet the allocated words.
-/
def notifyStore (host : Host σ δ) (slot : Address) : Action (World σ δ) Unit := do
  if slot.space ≠ .birth then
    let heap ← heapNow
    if heap.config.storeBufferDedup && heap.regions.birth.recentlyRemembered slot then
      count fun counters => { counters with barrierDuplicates := counters.barrierDuplicates + 1 }
    else
      report (.slotRemembered slot)
      count fun counters => { counters with barrierRecords := counters.barrierRecords + 1 }
      let birth := heap.regions.birth.remember slot
      modifyRegions ({ · with birth })
      if birth.nearlyFull then Collector.collectFor host 0 false .storeBufferFull

/-- Stores a value and records the slot if it needs to be. -/
def write (host : Host σ δ) (slot : Address) (value : Value) : Action (World σ δ) Unit := do
  store slot value.raw
  if value.address?.any (·.space == .birth) && slot.space != .birth then notifyStore host slot

end MovingHeap.World
