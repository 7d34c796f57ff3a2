import MovingHeap.Collector.Forwarding

/-! Visits made while a collection runs, to slots in managed memory and to roots outside of it.
Every reference is put back as soon as it is forwarded, so a violation leaves the earlier ones done.
-/

namespace MovingHeap.Collector

variable {σ δ α : Type}

/-- Reads a word; one that cannot be read dangles. -/
def loadWord (addr : Address) : Action (Site σ δ) Word := do
  Site.require ((← get).regions.word? addr) (.danglingReference addr.raw)

/-- Forwards the reference in a slot of managed memory; a slot is written only if its value
changes.
-/
def visitSlot (host : Host σ δ) (slot : Address) : Action (Site σ δ) Unit := do
  let value := Value.mk (← loadWord slot)
  let forwarded ← forward host value
  if forwarded ≠ value then
    let regions ← Site.require ((← get).regions.setWord? slot forwarded.raw)
      (.danglingReference slot.raw)
    Site.modifyRegions fun _ => regions

/-- Does what a visit asks for, step by step. -/
def runVisit (host : Host σ δ) (phase : Phase) : Visit σ α → Action (Site σ δ) α
  | .done result => pure result
  | .getHost next => do runVisit host phase (next (← get).host)
  | .setHost state next => do
      modify ({ · with host := state })
      runVisit host phase next
  | .note line next => do
      Site.report (.note line)
      runVisit host phase next
  | .isFull next => do runVisit host phase (next (← get).regions.isFull)
  | .load addr next => do runVisit host phase (next (← loadWord addr))
  | .words addr count next => do
      let words ← Site.require ((← get).regions.slice? addr count) (.danglingReference addr.raw)
      runVisit host phase (next words)
  | .visitSlot slot next => do
      visitSlot host slot
      runVisit host phase next
  | .visitValue value next => do runVisit host phase (next (← forward host value))
  | .allocate => Site.stop (.allocationInCollection phase)
  | .collect => Site.stop (.nestedCollection phase)
  | .fail violation => Site.stop violation

/-- Lets the host make a visit in the current phase. -/
def visit (host : Host σ δ) (program : Visit σ α) : Action (World σ δ) α := do
  World.onSite (runVisit host (← World.heapNow).phase program)

/-- Forwards what a root holds; a root is written only if its value changes. -/
def visitRoot (host : Host σ δ) (root : Root) : Action (World σ δ) Unit := do
  let value := (← World.heapNow).rootValue root
  let forwarded ← World.onSite (forward host value)
  if forwarded ≠ value then World.modifyHeap (·.setRoot root forwarded)

/-- Forwards what each of some roots holds, in order. -/
def visitRoots (host : Host σ δ) : List Root → Action (World σ δ) Unit
  | [] => pure ()
  | root :: roots => do
      visitRoot host root
      visitRoots host roots

/-- Visits the slots that the write barrier recorded. -/
def visitRemembered (host : Host σ δ) : List Word → Action (Site σ δ) Unit
  | [] => pure ()
  | raw :: words => do
      visitSlot host (← Site.require (Address.ofRaw? raw) (.danglingReference raw))
      visitRemembered host words

/-- Lets the host visit the live fixed object that begins at `start`. -/
def scanFixed (host : Host σ δ) (phase : Phase) (scan : Address → Nat → Visit σ Unit)
    (start : Nat)
    : Action (Site σ δ) Unit := do
  match (← get).regions.fixed.occupant? start with
  | some occupant => runVisit host phase (scan (.pack .fixed start) occupant.words)
  | none => pure ()

/-- Lets the host visit some fixed objects, in order. -/
def scanFixedList (host : Host σ δ) (phase : Phase) (scan : Address → Nat → Visit σ Unit)
    : List Nat → Action (Site σ δ) Unit
  | [] => pure ()
  | start :: starts => do
      scanFixed host phase scan start
      scanFixedList host phase scan starts

/-- The offset at which scanning goes on: behind the object and within the allocated words. -/
def checkNext (space : Space) (limit : Nat) (object next : Address) : Action (Site σ δ) Nat :=
  if next.space = space ∧ object.offset < next.offset ∧ next.offset ≤ limit then
    pure next.offset
  else Site.stop (.badScan object next limit)

end MovingHeap.Collector
