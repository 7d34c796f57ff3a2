import MovingHeap.Collector.Collection
import MovingHeap.Proofs.Evolution
import MovingHeap.Proofs.RootTables

/-! A collection as three parts: how it starts, how it traces and how it ends.
Only tracing asks the host anything about the graph of objects; the other parts are described by the
heap that they leave. Whatever the host does, tracing keeps the outline of memory and the tables of
roots.
-/

namespace MovingHeap

variable {σ δ α : Type}

-----------------------------------------------------------------------------------------
-- The parts of a minor collection
-----------------------------------------------------------------------------------------

namespace Collector

/-- How a minor collection traces. -/
def traceMinor (host : Host σ δ) (start : Semispace) : Action (World σ δ) Unit := do
  visitMinorRoots host
  World.enterPhase .relocating
  World.onSite (scanPromoted host .relocating start.space start.free start.cursor)

/-- The heap as a minor collection starts to trace. -/
def minorStart (heap : Heap δ) : Heap δ :=
  { heap with
    collections := heap.collections + 1
    regions := { heap.regions with copied := 0 }
    phase := .scanningRoots }

/-- The heap that a minor collection leaves, from the one it traced. -/
def minorEnd (heap : Heap δ) : Heap δ :=
  { resetYoung heap with
    phase := .idle
    counters :=
      { heap.counters with
        minorCollections := heap.counters.minorCollections + 1
        totalPromoted := heap.counters.totalPromoted + heap.regions.copied * wordBytes
        lastCopied := heap.regions.copied * wordBytes } }

/-- A minor collection is what it traces from the heap it starts with, and then an empty birth region,
nothing noted as changed and the words counted that were copied.
-/
theorem runs_minor_counted {host : Host σ δ} {reason : Reason} {world : World σ δ}
    {ended : Unit → World σ δ → Prop} {stopped : Violation → World σ δ → Prop}
    (traces
      : ∀ log,
          Runs (traceMinor host world.heap.regions.old)
            { heap := minorStart world.heap, host := world.host, log }
            (fun _ traced =>
              ∀ final : World σ δ,
                final.host = traced.host →
                final.heap = minorEnd traced.heap →
                ended () final)
            stopped)
    : Runs (minor host reason) world ended stopped := by
  simp only [minor, nextId, runs_bind, runs_pure, World.runs_heapNow, World.runs_modifyHeap,
    World.runs_modifyRegions, World.runs_enterPhase]
  have traced := traces (.phaseChanged world.heap.phase .scanningRoots :: world.log)
  simp only [traceMinor, runs_bind, World.runs_enterPhase] at traced
  refine Runs.mono traced (fun _ middle rest => ?_) fun _ _ => id
  refine Runs.mono rest (fun _ final done => ?_) fun _ _ => id
  simp only [World.runs_count, World.runs_report, runs_ite, runs_pure]
  split_ifs
  · exact done _ rfl rfl
  · exact done _ rfl rfl

/-- Whatever was counted, a minor collection leaves what it traced with an empty birth region. -/
theorem runs_minor {host : Host σ δ} {reason : Reason} {world : World σ δ}
    {ended : Unit → World σ δ → Prop} {stopped : Violation → World σ δ → Prop}
    (traces
      : ∀ log,
          Runs (traceMinor host world.heap.regions.old)
            { heap := minorStart world.heap, host := world.host, log }
            (fun _ traced =>
              ∀ final : World σ δ,
                final.host = traced.host →
                final.heap
                  = { resetYoung traced.heap with
                      phase := .idle, counters := final.heap.counters } →
                ended () final)
            stopped)
    : Runs (minor host reason) world ended stopped := by
  refine runs_minor_counted fun log => (traces log).mono (fun _ traced done => ?_) fun _ _ => id
  intro final kept heap
  refine done final kept ?_
  rw [heap]
  rfl

-----------------------------------------------------------------------------------------
-- The parts of a full collection
-----------------------------------------------------------------------------------------

/-- The semispace that a full collection opens over fresh memory. -/
def fullTarget (heap : Heap δ) (words : Arena) : Semispace :=
  { space := heap.regions.old.space.flipped, words }

/-- How a full collection traces. -/
def traceFull (host : Host σ δ) (target : Semispace) (slots : Nat) : Action (World σ δ) Unit := do
  visitFullRoots host
  World.enterPhase .relocating
  World.onSite (scanSurvivors host .relocating target.space (target.capacity + slots) 0)

/-- The heap as a full collection starts to trace. -/
def fullStart (heap : Heap δ) (words : Arena) : Heap δ :=
  { heap with
    collections := heap.collections + 1
    regions := { heap.regions with target := some (fullTarget heap words), copied := 0 }
    phase := .scanningRoots }

/-- The heap that a full collection leaves, from the one it traced and the fixed space it swept. -/
def fullEnd (heap : Heap δ) (fixed : FixedSpace δ) (counters : Counters) : Heap δ :=
  { resetYoung { heap with regions := adoptTarget { heap.regions with fixed } } with
    phase := .idle
    pendingFull := none
    fixedThreshold := max heap.config.fixedThresholdWords (fixed.liveWords * 2)
    counters }

/-- A full collection is what it traces from the heap it starts with, and then a sweep, after which
the target is the old semispace and the birth region is empty. Where the fixed space is corrupt it stops
with what it has traced; without memory for the target it stops before it traces.
-/
theorem runs_full_stops {host : Host σ δ} {reason : Reason} {world : World σ δ}
    {ended : Unit → World σ δ → Prop} {stopped : Violation → World σ δ → Prop}
    (traces
      : ∀ words,
          host.mapper.map? (targetWords world.heap) = some words →
          ∀ log,
            Runs (traceFull host (fullTarget world.heap words) world.heap.regions.fixed.slots.length)
              { heap := fullStart world.heap words, host := (host.beforeFull world.host).host, log }
              (fun _ traced =>
                match traced.heap.regions.fixed.sweep host.destroy traced.host with
                | .ok swept =>
                    ∀ final : World σ δ,
                      final.host = (host.afterFull swept.host).host →
                      final.heap = fullEnd traced.heap swept.space final.heap.counters →
                      ended () final
                | .error start =>
                    ∀ final : World σ δ,
                      final.heap = { traced.heap with phase := .sweeping } →
                      stopped (.corruptFixedHeader start) final)
              stopped)
    (refused
      : host.mapper.map? (targetWords world.heap) = none →
          ∀ final : World σ δ,
            final.heap
              = { world.heap with
                  collections := world.heap.collections + 1, phase := .scanningRoots } →
            stopped (.regionMap (targetWords world.heap * wordBytes)) final)
    : Runs (full host reason) world ended stopped := by
  simp only [full, nextId, openTarget, callHook, runs_bind, runs_pure, runs_get,
    World.runs_heapNow, World.runs_modifyHeap, World.runs_onSite, Site.runs_accept,
    World.runs_enterPhase, World.runs_require]
  split
  next words mapped =>
    simp only [World.runs_modifyRegions]
    have traced := traces words mapped (.phaseChanged world.heap.phase .scanningRoots
      :: ((host.beforeFull world.host).notes.map Event.note).reverse ++ world.log)
    simp only [traceFull, runs_bind, World.runs_enterPhase, World.runs_onSite] at traced
    refine Runs.mono traced (fun _ middle rest => ?_) fun _ _ => id
    refine Runs.mono rest (fun _ traced done => ?_) fun _ _ => id
    simp only [sweepFixed, runs_bind, runs_get]
    split
    next start corrupt =>
      simp only [World.site] at corrupt
      rw [Site.runs_stop]
      simp only [corrupt] at done
      exact done _ rfl
    next swept sweeps =>
      simp only [World.site] at sweeps
      simp only [sweeps] at done
      simp only [runs_bind, Site.runs_modifyRegions, Site.runs_accept, World.runs_count,
        World.runs_report, runs_ite, runs_pure]
      split_ifs
      · exact done _ rfl rfl
      · exact done _ rfl rfl
  next refusal =>
    exact refused refusal _ rfl

/-- A full collection, of which only the phase is told where it stops. -/
theorem runs_full {host : Host σ δ} {reason : Reason} {world : World σ δ}
    {ended : Unit → World σ δ → Prop} {stopped : Violation → World σ δ → Prop}
    (traces
      : ∀ words,
          host.mapper.map? (targetWords world.heap) = some words →
          ∀ log,
            Runs (traceFull host (fullTarget world.heap words) world.heap.regions.fixed.slots.length)
              { heap := fullStart world.heap words, host := (host.beforeFull world.host).host, log }
              (fun _ traced =>
                match traced.heap.regions.fixed.sweep host.destroy traced.host with
                | .ok swept =>
                    ∀ final : World σ δ,
                      final.host = (host.afterFull swept.host).host →
                      final.heap = fullEnd traced.heap swept.space final.heap.counters →
                      ended () final
                | .error start =>
                    ∀ final : World σ δ,
                      final.heap.phase = .sweeping → stopped (.corruptFixedHeader start) final)
              stopped)
    (refused
      : host.mapper.map? (targetWords world.heap) = none →
          ∀ final : World σ δ,
            final.heap.phase = .scanningRoots →
            stopped (.regionMap (targetWords world.heap * wordBytes)) final)
    : Runs (full host reason) world ended stopped := by
  apply runs_full_stops
  · intro words mapped log
    refine (traces words mapped log).mono (fun _ traced done => ?_) fun _ _ => id
    revert done
    split
    next => exact id
    next => exact fun stops final same => stops final (congrArg Heap.phase same)
  · exact fun refusal final same => refused refusal final (congrArg Heap.phase same)

end Collector

-----------------------------------------------------------------------------------------
-- What tracing leaves alone
-----------------------------------------------------------------------------------------

namespace World

/-- The world has come on while a collection runs: memory evolved, and what else there is of the heap
stayed the same but for what the roots hold.
-/
structure Comes (before now : World σ δ) : Prop where
  regions : before.heap.regions.Evolves now.heap.regions
  tables : before.heap.SameTables now.heap
  watermark : now.heap.modules.watermark = before.heap.modules.watermark
  dirty : now.heap.constants.dirty = before.heap.constants.dirty
  rest
    : now.heap
      = { before.heap with
          regions := now.heap.regions
          frames := now.heap.frames
          handlers := now.heap.handlers
          modules := now.heap.modules
          constants := now.heap.constants
          phase := now.heap.phase }
  busy : before.heap.phase ≠ .idle → now.heap.phase ≠ .idle

/-- The world has come on and the same fixed objects count as fresh. -/
structure Advances (before now : World σ δ) : Prop extends before.Comes now where
  recent : now.heap.regions.fixed.recent = before.heap.regions.fixed.recent
  phase : now.heap.phase = before.heap.phase

/-- Coming on in two steps is coming on. -/
theorem Comes.trans {before now later : World σ δ} (first : before.Comes now)
    (second : now.Comes later)
    : before.Comes later where
  regions := first.regions.trans second.regions
  tables := first.tables.trans second.tables
  watermark := second.watermark.trans first.watermark
  dirty := second.dirty.trans first.dirty
  rest := by rw [second.rest, first.rest]
  busy := second.busy ∘ first.busy

/-- Advancing in two steps is advancing. -/
theorem Advances.trans {before now later : World σ δ} (first : before.Advances now)
    (second : now.Advances later)
    : before.Advances later where
  toComes := first.toComes.trans second.toComes
  recent := second.recent.trans first.recent
  phase := second.phase.trans first.phase

/-- Nothing happening is advancing. -/
theorem Advances.refl (world : World σ δ) : world.Advances world where
  regions := .refl _
  tables := .refl _
  watermark := rfl
  dirty := rfl
  rest := rfl
  busy := id
  recent := rfl
  phase := rfl

/-- Where the part that callbacks see came on, the world did. -/
theorem advances_withSite {world : World σ δ} {site : Site σ δ}
    (advances : world.site.Advances site)
    : world.Advances (world.withSite site) where
  regions := advances.1
  tables := ⟨rfl, rfl, fun _ => rfl, rfl, rfl, rfl⟩
  watermark := rfl
  dirty := rfl
  rest := rfl
  busy := id
  recent := advances.2
  phase := rfl

/-- Updating a root is advancing. -/
theorem advances_setRoot (world : World σ δ) (root : Root) (value : Value)
    : world.Advances { world with heap := world.heap.setRoot root value } where
  regions := by
    rw [Heap.regions_setRoot]
    exact .refl _
  tables := Heap.sameTables_setRoot _ _ _
  watermark := Heap.watermark_setRoot _ _ _
  dirty := Heap.dirty_setRoot _ _ _
  rest := by cases root <;> rfl
  busy busy := by rwa [Heap.phase_setRoot]
  recent := by rw [Heap.regions_setRoot]
  phase := Heap.phase_setRoot _ _ _

end World

namespace Collector

/-- Wherever a part of the world that callbacks see came on, the world did. -/
theorem advances_onSite {action : Action (Site σ δ) α} (tends : Tends action) (world : World σ δ)
    : Runs (World.onSite action) world (fun _ final => world.Advances final)
        fun _ final => world.Advances final :=
  World.runs_onSite.mpr ((tends world.site).mono
    (fun _ _ => World.advances_withSite) fun _ _ => World.advances_withSite)

/-- Visiting roots advances, by one root after another. -/
theorem advances_visitRoots (host : Host σ δ) (roots : List Root) (world : World σ δ)
    : Runs (visitRoots host roots) world (fun _ final => world.Advances final)
        fun _ final => world.Advances final := by
  induction roots generalizing world with
  | nil => exact World.Advances.refl world
  | cons root roots ih =>
      simp only [visitRoots, visitRoot, runs_bind, World.runs_heapNow]
      refine (advances_onSite (tends_forward host _) world).mono (fun forwarded middle first => ?_)
        fun _ _ => id
      have onward : ∀ next, middle.Advances next →
          Runs (visitRoots host roots) next (fun _ final => world.Advances final)
            fun _ final => world.Advances final := fun next second =>
        (ih next).mono (fun _ _ => (first.trans second).trans)
          fun _ _ => (first.trans second).trans
      split_ifs
      · exact onward _ (World.advances_setRoot middle root forwarded)
      · exact onward middle (.refl middle)

/-- Moving on to another phase of the collection is coming on. -/
theorem comes_enterPhase {phase : Phase} (busy : phase ≠ .idle) (world : World σ δ)
    (log : List Event)
    : world.Comes { world with heap := { world.heap with phase }, log } :=
  ⟨.refl _, ⟨rfl, rfl, fun _ => rfl, rfl, rfl, rfl⟩, rfl, rfl, rfl, fun _ => busy⟩

/-- Forgetting which objects are fresh is coming on. -/
theorem comes_clearFresh (world : World σ δ)
    : world.Comes { world with
        heap := { world.heap with
          regions := { world.heap.regions with fixed := world.heap.regions.fixed.clearFresh } } } :=
  ⟨⟨rfl, Nat.le_refl _, id, fun _ => rfl, fun _ => ⟨rfl, rfl⟩, Nat.le_refl _⟩,
    ⟨rfl, rfl, fun _ => rfl, rfl, rfl, rfl⟩, rfl, rfl, rfl, id⟩

end Collector

/-- Wherever the action ends or is stopped, the world has come on. -/
def World.Tends (action : Action (World σ δ) α) : Prop :=
  ∀ world,
    Runs action world (fun _ final => world.Comes final) fun _ final => world.Comes final

namespace World.Tends

/-- One action after another. -/
theorem bind {β : Type} {action : Action (World σ δ) α} {next : α → Action (World σ δ) β}
    (first : Tends action) (second : ∀ result, Tends (next result))
    : Tends (action >>= next) := by
  intro world
  rw [runs_bind]
  refine (first world).mono (fun result middle comes => ?_) fun _ _ => id
  exact (second result middle).mono (fun _ _ => comes.trans) fun _ _ => comes.trans

/-- Looking at the heap. -/
theorem heapNow_bind {next : Heap δ → Action (World σ δ) α} (tends : ∀ heap, Tends (next heap))
    : Tends (World.heapNow >>= next) := by
  intro world
  rw [runs_bind, runs_heapNow]
  exact tends world.heap world

/-- What advances comes on. -/
theorem of_advances {action : Action (World σ δ) α}
    (advances
      : ∀ world,
          Runs action world (fun _ final => world.Advances final)
            fun _ final => world.Advances final)
    : Tends action :=
  fun world => (advances world).mono (fun _ _ => Advances.toComes) fun _ _ => Advances.toComes

end World.Tends

namespace Collector

/-- Visiting the roots of a minor collection. -/
theorem tends_visitMinorRoots (host : Host σ δ) : World.Tends (visitMinorRoots host) := by
  have roots := fun list => World.Tends.of_advances (advances_visitRoots host list)
  have onSite {β : Type} {action : Action (Site σ δ) β} (tends : Tends action) :=
    World.Tends.of_advances (advances_onSite tends)
  refine .heapNow_bind fun heap => .bind (roots _) fun _ => ?_
  refine .heapNow_bind fun heap => .bind (roots _) fun _ => ?_
  refine .heapNow_bind fun heap => .bind (onSite (tends_visitRemembered host _)) fun _ => ?_
  refine .heapNow_bind fun heap => .bind (roots _) fun _ => ?_
  refine .heapNow_bind fun heap => .bind (roots _) fun _ => ?_
  refine .heapNow_bind fun heap => .bind ?_ fun _ => ?_
  · intro world
    exact World.runs_modifyRegions.mpr (comes_clearFresh world)
  · refine .heapNow_bind fun heap => .bind (onSite (tends_scanFixedList host _ _ _)) fun _ => ?_
    exact .heapNow_bind fun heap => onSite (tends_runVisit host _ _)

/-- Visiting the roots of a full collection. -/
theorem tends_visitFullRoots (host : Host σ δ) : World.Tends (visitFullRoots host) := by
  have roots := fun list => World.Tends.of_advances (advances_visitRoots host list)
  refine .heapNow_bind fun heap => .bind (roots _) fun _ => ?_
  refine .heapNow_bind fun heap => .bind (roots _) fun _ => ?_
  refine .heapNow_bind fun heap => .bind (roots _) fun _ => ?_
  refine .heapNow_bind fun heap => .bind (roots _) fun _ => ?_
  exact .heapNow_bind fun heap => .of_advances (advances_onSite (tends_runVisit host _ _))

/-- Tracing in a minor collection. -/
theorem tends_traceMinor (host : Host σ δ) (start : Semispace)
    : World.Tends (traceMinor host start) := by
  refine .bind (tends_visitMinorRoots host) fun _ => .bind ?_ fun _ =>
    .of_advances (advances_onSite (tends_scanPromoted host _ _ _ _))
  intro world
  exact World.runs_enterPhase.mpr (comes_enterPhase (by decide) world _)

/-- Tracing in a full collection. -/
theorem comes_traceFull (host : Host σ δ) (target : Semispace) (slots : Nat)
    {world : World σ δ} (full : world.heap.regions.isFull)
    : Runs (traceFull host target slots) world (fun _ final => world.Comes final)
        fun _ final => world.Comes final := by
  simp only [traceFull, runs_bind]
  refine (tends_visitFullRoots host world).mono (fun _ middle first => ?_) fun _ _ => id
  rw [World.runs_enterPhase, World.runs_onSite]
  have through := first.trans (comes_enterPhase (show Phase.relocating ≠ .idle by decide) middle
    (.phaseChanged middle.heap.phase .relocating :: middle.log))
  exact (runs_scanSurvivors host _ _ _ _ (through.regions.isFull.trans full)).mono
    (fun _ _ advances => through.trans (World.advances_withSite advances).toComes)
    fun _ _ advances => through.trans (World.advances_withSite advances).toComes

end Collector

/-- Where a full collection begins if memory is collected on demand in `world`: right there, or where the
minor collection has ended that ran before it.
-/
inductive World.LaunchesFull (host : Host σ δ) (world : World σ δ) : World σ δ → Prop where
  | here : LaunchesFull host world world
  | promoted {reason : Reason} {middle : World σ δ}
      (ends : Collector.minor host reason world = .ok () middle)
      : LaunchesFull host world middle

end MovingHeap
