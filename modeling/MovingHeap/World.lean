import MovingHeap.Event
import MovingHeap.Heap
import MovingHeap.Host

/-! A heap together with its host and the log both write.
Operations are actions: what they did before a violation stopped them stays done.
-/

namespace MovingHeap

/-- A computation over the state `ω` that may stop with a violation; the state it reached is kept
in either case.
-/
abbrev Action (ω : Type) := EStateM Violation ω

/-- The part of a world that callbacks work on: memory, the host and the log. -/
structure Site (σ δ : Type) where
  regions : Regions δ
  host : σ
  /-- What was logged, the newest first. -/
  log : List Event

/-- A heap, the state of its host and what was logged, the newest first. -/
structure World (σ δ : Type) where
  heap : Heap δ
  host : σ
  log : List Event := []

namespace Site

variable {σ δ α : Type}

/-- Logs an event. -/
def report (event : Event) : Action (Site σ δ) Unit :=
  modify fun site => { site with log := event :: site.log }

/-- Stops with a violation, which is logged. -/
def stop (violation : Violation) : Action (Site σ δ) α := do
  report (.fatal violation)
  throw violation

/-- Answers what is there; what is not stops the operation. -/
def require (found : Option α) (violation : Violation) : Action (Site σ δ) α :=
  match found with
  | some result => pure result
  | none => stop violation

/-- Changes memory. -/
def modifyRegions (change : Regions δ → Regions δ) : Action (Site σ δ) Unit :=
  modify fun site => { site with regions := change site.regions }

/-- Takes over what a callback made of the host and logs its lines. -/
def accept (reply : Reply σ α) : Action (Site σ δ) α := do
  modify fun site => { site with
    host := reply.host, log := (reply.notes.map Event.note).reverse ++ site.log }
  return reply.answer

end Site

namespace World

variable {σ δ α : Type}

/-- A world with an empty heap. -/
def create (mapper : Mapper) (config : Config) (host : σ) : Except SetupError (World σ δ) :=
  (fun heap => { heap, host, log := [.initialized config.birthSize config.oldSize] })
    <$> Heap.create mapper config

/-- The part of the world that callbacks work on. -/
def site (world : World σ δ) : Site σ δ := ⟨world.heap.regions, world.host, world.log⟩

/-- Puts back the part of the world that callbacks worked on. -/
def withSite (world : World σ δ) (site : Site σ δ) : World σ δ where
  heap := { world.heap with regions := site.regions }
  host := site.host
  log := site.log

/-- Works on the part of the world that callbacks see. -/
def onSite (action : Action (Site σ δ) α) : Action (World σ δ) α := fun world =>
  match action world.site with
  | .ok result site => .ok result (world.withSite site)
  | .error violation site => .error violation (world.withSite site)

/-- Logs an event. -/
def report (event : Event) : Action (World σ δ) Unit := onSite (Site.report event)

/-- Stops with a violation, which is logged. -/
def stop (violation : Violation) : Action (World σ δ) α := onSite (Site.stop violation)

/-- Answers a result; a violation in its place stops the operation. -/
def check (result : Except Violation α) : Action (World σ δ) α :=
  match result with
  | .ok value => pure value
  | .error violation => stop violation

/-- Answers what is there; what is not stops the operation. -/
def require (found : Option α) (violation : Violation) : Action (World σ δ) α :=
  onSite (Site.require found violation)

/-- The heap as it is. -/
def heapNow : Action (World σ δ) (Heap δ) := World.heap <$> get

/-- Changes the heap. -/
def modifyHeap (change : Heap δ → Heap δ) : Action (World σ δ) Unit :=
  modify fun world => { world with heap := change world.heap }

/-- Changes what the heap counts. -/
def count (change : Counters → Counters) : Action (World σ δ) Unit :=
  modifyHeap fun heap => { heap with counters := change heap.counters }

/-- Changes memory. -/
def modifyRegions (change : Regions δ → Regions δ) : Action (World σ δ) Unit :=
  onSite (Site.modifyRegions change)

/-- Moves the collector to another phase. -/
def enterPhase (phase : Phase) : Action (World σ δ) Unit := do
  report (.phaseChanged (← heapNow).phase phase)
  modifyHeap ({ · with phase })

end World

end MovingHeap
