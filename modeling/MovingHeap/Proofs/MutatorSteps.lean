import MovingHeap.Mutator.Access
import MovingHeap.Mutator.Allocation
import MovingHeap.Mutator.Exceptions
import MovingHeap.Mutator.Frames
import MovingHeap.Mutator.Globals
import MovingHeap.Proofs.Regularity

/-! How the operations that may collect run.
Each is told by what happens if memory suffices and by what happens where a collection ran first, so
that whatever collections keep need not be shown again for every operation.
-/

namespace MovingHeap

variable {σ δ : Type}

namespace World

/-- The world with so many words allocated behind the padding that alignment needs. -/
def reserved (world : World σ δ) (words stride : Nat) : World σ δ :=
  let birth := world.heap.regions.birth
  { world with
    heap := { world.heap with
      regions := { world.heap.regions with
        birth := (birth.bump ((birth.padding? stride).getD 0)).bump words } } }

/-- The world with a slot recorded, its record counted and logged. -/
def recorded (world : World σ δ) (slot : Address) : World σ δ :=
  { world with
    heap := { world.heap with
      regions := { world.heap.regions with birth := world.heap.regions.birth.remember slot }
      counters :=
        { world.heap.counters with barrierRecords := world.heap.counters.barrierRecords + 1 } }
    log := .slotRemembered slot :: world.log }

/-- The world in which a slot was found to be recorded already. -/
def duplicated (world : World σ δ) : World σ δ :=
  { world with
    heap := { world.heap with
      counters :=
        { world.heap.counters with
          barrierDuplicates := world.heap.counters.barrierDuplicates + 1 } } }

section Rules

variable {host : Host σ δ} {world : World σ δ}

/-- Room is made by a collection unless there is room. -/
theorem runs_makeRoom {words : Nat} {ended : Unit → World σ δ → Prop}
    {stopped : Violation → World σ δ → Prop}
    (fits : world.heap.regions.birth.fits words → ended () world)
    (collects
      : ∀ wantsFull reason,
          Runs (Collector.collectFor host words wantsFull reason) world ended stopped)
    : Runs (makeRoom host words) world ended stopped := by
  simp only [makeRoom, runs_bind, runs_heapNow]
  split
  next reason _ => exact collects true reason
  next =>
    split_ifs with full
    · exact collects false _
    · exact fits (by simpa using full)

/-- Memory is handed out where there is room, after a collection if need be. -/
theorem runs_reserve {size stride : Nat} {ended : Address → World σ δ → Prop}
    {stopped : Violation → World σ δ → Prop}
    (tooLarge
      : ∀ log,
          stopped
            (.objectTooLarge size (world.heap.regions.birth.maxObjectWords * wordBytes))
            { world with log })
    (fits
      : world.heap.regions.birth.fits (max (wordsFor size) minObjectWords + (stride - 1)) →
        ended
          (world.heap.regions.birth.bump ((world.heap.regions.birth.padding? stride).getD 0)).next
          (world.reserved (max (wordsFor size) minObjectWords) stride))
    (collects
      : ∀ wantsFull reason,
          max (wordsFor size) minObjectWords + (stride - 1)
            ≤ world.heap.regions.birth.maxObjectWords →
          Runs
            (Collector.collectFor host (max (wordsFor size) minObjectWords + (stride - 1)) wantsFull
              reason)
            world
            (fun _ middle =>
              ended
                (middle.heap.regions.birth.bump
                  ((middle.heap.regions.birth.padding? stride).getD 0)).next
                (middle.reserved (max (wordsFor size) minObjectWords) stride))
            stopped)
    : Runs (reserve host size stride) world ended stopped := by
  simp only [reserve, runs_bind, runs_heapNow, runs_ite, runs_stop]
  split_ifs with large
  · exact tooLarge _
  · refine runs_makeRoom ?_ fun wantsFull reason => ?_
    · exact fits
    · exact collects wantsFull reason (by omega)

/-- A slot is recorded unless it needs no record, and a collection follows if records meet objects. -/
theorem runs_notifyStore {slot : Address} {ended : Unit → World σ δ → Prop}
    {stopped : Violation → World σ δ → Prop}
    (young : slot.space = .birth → ended () world)
    (known
      : slot.space ≠ .birth →
        world.heap.regions.birth.recentlyRemembered slot →
        ended () world.duplicated)
    (records
      : slot.space ≠ .birth →
        (world.heap.regions.birth.remember slot).nearlyFull = false →
        ended () (world.recorded slot))
    (collects
      : slot.space ≠ .birth →
        Runs (Collector.collectFor host 0 false .storeBufferFull) (world.recorded slot) ended stopped)
    : Runs (notifyStore host slot) world ended stopped := by
  simp only [notifyStore, runs_ite, runs_pure]
  split_ifs with later
  · simp only [runs_bind, runs_heapNow, runs_ite]
    split_ifs with recent full
    · simp only [Bool.and_eq_true] at recent
      exact known later recent.2
    · simp only [runs_report, runs_count, runs_modifyRegions]
      exact collects later
    · simp only [runs_report, runs_count, runs_modifyRegions, runs_pure]
      exact records later (by simpa using full)
  · exact young (by simpa using later)

/-- A word is stored where it may be. -/
theorem runs_store {addr : Address} {word : Word} {ended : Unit → World σ δ → Prop}
    {stopped : Violation → World σ δ → Prop}
    (dangles : ∀ log, stopped (.danglingReference addr.raw) { world with log })
    (stores
      : ∀ regions,
          world.heap.regions.setWord? addr word = some regions →
          ended () { world with heap := { world.heap with regions } })
    : Runs (store addr word) world ended stopped := by
  simp only [store, runs_bind, runs_heapNow, runs_require, runs_modifyRegions]
  split
  next regions done => exact stores regions done
  next => exact dangles _

end Rules

end World

namespace Collector

/-- Collecting in two steps is collecting. -/
theorem collects_trans {before middle after : World σ δ} (first : before.Collects middle)
    (second : middle.Collects after)
    : before.Collects after where
  steady := second.steady
  idle := second.idle
  empty := second.empty
  unrecorded := second.unrecorded
  capacity := second.capacity.trans first.capacity
  margin := second.margin.trans first.margin
  arena := second.arena.trans first.arena
  config := second.config.trans first.config
  tables := first.tables.trans second.tables
  watermark := second.watermark
  clean := second.clean

/-- Collecting on demand is one collection or two, unless it is refused because one runs or because
so many words never fit.
-/
theorem runs_collectFor {host : Host σ δ} {words : Nat} {wantsFull : Bool} {reason : Reason}
    {world : World σ δ} {ended : Unit → World σ δ → Prop}
    {stopped : Violation → World σ δ → Prop}
    (busy
      : world.heap.phase ≠ .idle →
        ∀ log, stopped (.nestedCollection world.heap.phase) { world with log })
    (tooLarge
      : world.heap.regions.birth.maxObjectWords < words →
        ∀ log,
          stopped
            (.objectTooLarge (words * wordBytes)
              (world.heap.regions.birth.maxObjectWords * wordBytes))
            { world with log })
    (fulls
      : world.heap.phase = .idle →
        words ≤ world.heap.regions.birth.maxObjectWords →
        ∀ reason, Runs (full host reason) world ended stopped)
    (minors
      : world.heap.phase = .idle →
        words ≤ world.heap.regions.birth.maxObjectWords →
        Runs (minor host reason) world
          (fun _ middle =>
            if middle.heap.regions.old.free < middle.heap.regions.birth.capacity then
              Runs (full host .oldSpaceFull) middle ended stopped
            else ended () middle)
          stopped)
    : Runs (collectFor host words wantsFull reason) world ended stopped := by
  simp only [collectFor, runs_bind, World.runs_heapNow, runs_ite, World.runs_stop]
  split_ifs with running large all
  · exact busy running _
  · exact tooLarge large _
  · exact fulls (by simpa using running) (by omega) reason
  · have idle : world.heap.phase = .idle := by simpa using running
    split
    next pending _ => exact fulls idle (by omega) pending
    next =>
      simp only [runs_bind, World.runs_heapNow, runs_ite, runs_pure]
      exact minors idle (by omega)

/-- Where no full collection is asked for or pending, collecting on demand is a minor one, and then a full
one if there is little room left.
-/
theorem runs_collectFor_minor {host : Host σ δ} {words : Nat} {reason : Reason} {world : World σ δ}
    {ended : Unit → World σ δ → Prop} {stopped : Violation → World σ δ → Prop}
    (idle : world.heap.phase = .idle) (small : words ≤ world.heap.regions.birth.maxObjectWords)
    (pending : world.heap.pendingFull = none)
    : Runs (collectFor host words false reason) world ended stopped
      ↔ Runs (minor host reason) world
          (fun _ middle =>
            if middle.heap.regions.old.free < middle.heap.regions.birth.capacity then
              Runs (full host .oldSpaceFull) middle ended stopped
            else ended () middle)
          stopped := by
  simp [collectFor, runs_ite, idle, Nat.not_lt.mpr small, pending]

/-- Collecting on demand leaves a steady heap; where it is stopped, nothing was done or the collection
stays stopped.
-/
theorem collects_collectFor (host : Host σ δ) (words : Nat) (wantsFull : Bool) (reason : Reason)
    {world : World σ δ} (regular : world.heap.Regular)
    : Runs (collectFor host words wantsFull reason) world
        (fun _ final => world.heap.phase = .idle ∧ world.Collects final)
        fun _ final =>
          final.heap.phase = .idle →
            world.heap.regions.birth.maxObjectWords < words ∧ final.heap = world.heap := by
  refine runs_collectFor (fun running _ idle => absurd idle running)
    (fun large _ _ => ⟨large, rfl⟩) (fun idle _ reason => ?_) fun idle _ => ?_
  · exact (collects_full host reason regular).mono (fun _ _ collects => ⟨idle, collects⟩)
      fun _ _ busy idle => absurd idle busy
  · refine (collects_minor host reason regular).mono (fun _ middle first => ?_)
      fun _ _ busy idle => absurd idle busy
    split_ifs
    · exact (collects_full host _ first.steady.toRegular).mono
        (fun _ _ second => ⟨idle, collects_trans first second⟩) fun _ _ busy idle => absurd idle busy
    · exact ⟨idle, first⟩

end Collector

end MovingHeap
