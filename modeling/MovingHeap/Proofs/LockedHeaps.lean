import MovingHeap.Proofs.Guarantees
import MovingHeap.Proofs.Routines

/-! Heaps whose collection was stopped in the middle.
The phase that such a collection leaves bars every demand for memory and for another collection, so the
heap stays as far as it had come, whatever is done with it later.
-/

namespace MovingHeap

variable {σ δ α β : Type}

-----------------------------------------------------------------------------------------
-- How far a heap has come
-----------------------------------------------------------------------------------------

/-- How far a heap has come: what only collections and the handing out of memory change. -/
structure Standing where
  phase : Phase
  birthCursor : Nat
  oldSpace : Space
  oldCursor : Nat
  /-- The words of the live fixed object at each start. -/
  fixedWords : Nat → Option Nat
  /-- Collections begun. -/
  collections : Nat
  minorCollections : Nat
  fullCollections : Nat

/-- How far the heap has come. -/
def Heap.standing (heap : Heap δ) : Standing where
  phase := heap.phase
  birthCursor := heap.regions.birth.cursor
  oldSpace := heap.regions.old.space
  oldCursor := heap.regions.old.cursor
  fixedWords := fun start => (heap.regions.fixed.occupant? start).map Occupant.words
  collections := heap.collections
  minorCollections := heap.counters.minorCollections
  fullCollections := heap.counters.fullCollections

namespace Heap

variable {before after : Heap δ}

theorem phase_of_standing (same : after.standing = before.standing) : after.phase = before.phase :=
  congrArg Standing.phase same

theorem collections_of_standing (same : after.standing = before.standing)
    : after.collections = before.collections :=
  congrArg Standing.collections same

/-- A word that is written anywhere brings the heap no further. -/
theorem standing_setWord? (heap : Heap δ) {addr : Address} {word : Word} {regions : Regions δ}
    (done : heap.regions.setWord? addr word = some regions)
    : standing { heap with regions } = heap.standing := by
  unfold Regions.setWord? at done
  cases space : addr.space with
  | birth | fixed =>
      simp only [space] at done
      split_ifs at done
      cases done
      rfl
  | oldA | oldB =>
      simp only [space] at done
      obtain ⟨region, found, written⟩ := Option.bind_eq_some_iff.mp done
      split_ifs at written
      cases written
      have named := Regions.space_of_oldSpace? found
      unfold Regions.oldSpace? at found
      unfold Regions.setOldSpace
      rw [show (region.setWord addr.offset word).space = region.space from rfl, named]
      split_ifs at found ⊢
      · cases found
        rfl
      · rfl

/-- Giving up on a fixed object frees it only in a later collection. -/
theorem standing_forget? (heap : Heap δ) {start : Nat} {fixed : FixedSpace δ}
    (done : heap.regions.fixed.forget? start = some fixed)
    : standing { heap with regions := { heap.regions with fixed } } = heap.standing := by
  obtain ⟨occupant, -, rfl⟩ := Option.map_eq_some_iff.mp done
  have words : ∀ other,
      ((heap.regions.fixed.updateOccupant start
          ({ · with destructor := none, forgotten := true })).occupant? other).map Occupant.words
        = (heap.regions.fixed.occupant? other).map Occupant.words := by
    intro other
    rw [FixedSpace.occupant?_updateOccupant]
    split_ifs
    · rw [Option.map_map]
      rfl
    · rfl
  simp only [standing, words]

end Heap

namespace World

/-- The action brings the heap no further, wherever it ends or is stopped. -/
def Still (action : Action (World σ δ) α) : Prop :=
  ∀ world,
    Runs action world (fun _ final => final.heap.standing = world.heap.standing)
      fun _ final => final.heap.standing = world.heap.standing

/-- An action that ends leaves the heap as far as it was, or it found and leaves it idle. One that is
stopped leaves the heap as far as it was, or it found it idle and leaves a collection in the middle.
-/
def Whole (action : Action (World σ δ) α) : Prop :=
  ∀ world,
    Runs action world
      (fun _ final =>
        final.heap.standing = world.heap.standing
        ∨ world.heap.phase = .idle ∧ final.heap.phase = .idle)
      fun _ final =>
        final.heap.standing = world.heap.standing
        ∨ world.heap.phase = .idle ∧ final.heap.phase ≠ .idle

variable {action : Action (World σ δ) α}

namespace Still

theorem pure (result : α) : Still (σ := σ) (δ := δ) (Pure.pure result) := fun _ => rfl

theorem stop (violation : Violation) : Still (World.stop violation : Action (World σ δ) α) :=
  fun _ => World.runs_stop.mpr rfl

theorem report (event : Event) : Still (σ := σ) (δ := δ) (World.report event) :=
  fun _ => World.runs_report.mpr rfl

theorem check (result : Except Violation α) : Still (σ := σ) (δ := δ) (World.check result) := by
  intro world
  rw [runs_check]
  cases result <;> rfl

theorem require (found : Option α) (violation : Violation)
    : Still (σ := σ) (δ := δ) (World.require found violation) := by
  intro world
  rw [runs_require]
  cases found <;> rfl

/-- Changing what only the mutator owns. -/
theorem modifyHeap {change : Heap δ → Heap δ}
    (same : ∀ heap, (change heap).standing = heap.standing)
    : Still (σ := σ) (World.modifyHeap change) :=
  fun world => same world.heap

theorem bind {next : α → Action (World σ δ) β} (first : Still action)
    (second : ∀ result, Still (next result))
    : Still (action >>= next) := by
  intro world
  rw [runs_bind]
  refine (first world).mono (fun result middle same => ?_) fun _ _ => id
  exact (second result middle).mono (fun _ _ later => later.trans same)
    fun _ _ later => later.trans same

theorem heapNow_bind {next : Heap δ → Action (World σ δ) α} (still : ∀ heap, Still (next heap))
    : Still (World.heapNow >>= next) := by
  intro world
  rw [runs_bind, runs_heapNow]
  exact still world.heap world

theorem map (still : Still action) (change : α → β) : Still (change <$> action) := by
  intro world
  rw [runs_map]
  exact still world

theorem ite {condition : Prop} [Decidable condition] {other : Action (World σ δ) α}
    (yes : Still action) (no : Still other)
    : Still (if condition then action else other) := by
  split_ifs
  · exact yes
  · exact no

theorem toWhole (still : Still action) : Whole action :=
  fun world => (still world).mono (fun _ _ => .inl) fun _ _ => .inl

end Still

namespace Whole

/-- What brings the heap no further may be done first. -/
theorem after_still {next : α → Action (World σ δ) β} (first : Still action)
    (second : ∀ result, Whole (next result))
    : Whole (action >>= next) := by
  intro world
  rw [runs_bind]
  refine (first world).mono (fun result middle same => ?_) fun _ _ => .inl
  rw [← same, ← Heap.phase_of_standing same]
  exact second result middle

theorem map (whole : Whole action) (change : α → β) : Whole (change <$> action) := by
  intro world
  rw [runs_map]
  exact whole world

theorem ite {condition : Prop} [Decidable condition] {other : Action (World σ δ) α}
    (yes : Whole action) (no : Whole other)
    : Whole (if condition then action else other) := by
  split_ifs
  · exact yes
  · exact no

end Whole

end World

-----------------------------------------------------------------------------------------
-- Collections
-----------------------------------------------------------------------------------------

namespace Collector

open World

/-- A minor collection ends idle, and wherever it is stopped it is not. -/
theorem idle_minor (host : Host σ δ) (reason : Reason) (world : World σ δ)
    : Runs (minor host reason) world (fun _ final => final.heap.phase = .idle)
        fun _ final => final.heap.phase ≠ .idle := by
  refine runs_minor fun log => ?_
  have busy : (minorStart world.heap).phase ≠ .idle := nofun
  refine (tends_traceMinor host _ _).mono (fun _ traced _ final _ heap => ?_)
    fun _ _ comes => comes.busy busy
  rw [heap]

/-- A full collection ends idle, and wherever it is stopped it is not. -/
theorem idle_full (host : Host σ δ) (reason : Reason) (world : World σ δ)
    : Runs (full host reason) world (fun _ final => final.heap.phase = .idle)
        fun _ final => final.heap.phase ≠ .idle := by
  refine runs_full (fun words _ log => ?_) fun _ final scanning => ?_
  · have busy : (fullStart world.heap words).phase ≠ .idle := nofun
    refine (comes_traceFull host _ _ rfl).mono (fun _ traced _ => ?_) fun _ _ comes => comes.busy busy
    split
    next swept _ =>
      intro final _ heap
      rw [heap]
      rfl
    next =>
      intro final sweeping
      rw [sweeping]
      nofun
  · rw [scanning]
    nofun

/-- Collecting on demand is refused while a collection runs. -/
theorem whole_collectFor (host : Host σ δ) (words : Nat) (wantsFull : Bool) (reason : Reason)
    : Whole (collectFor host words wantsFull reason) := by
  have fulls : ∀ (first middle : World σ δ) reason, first.heap.phase = .idle →
      Runs (full host reason) middle
        (fun _ final =>
          final.heap.standing = first.heap.standing
          ∨ first.heap.phase = .idle ∧ final.heap.phase = .idle)
        fun _ final =>
          final.heap.standing = first.heap.standing
          ∨ first.heap.phase = .idle ∧ final.heap.phase ≠ .idle := fun first middle reason idle =>
    (idle_full host reason middle).mono (fun _ _ rests => .inr ⟨idle, rests⟩)
      fun _ _ busy => .inr ⟨idle, busy⟩
  intro world
  refine runs_collectFor (fun _ _ => .inl rfl) (fun _ _ => .inl rfl)
    (fun idle _ reason => fulls world world reason idle) fun idle _ => ?_
  refine (idle_minor host reason world).mono (fun _ middle rests => ?_)
    fun _ _ busy => .inr ⟨idle, busy⟩
  split_ifs
  · exact fulls world middle _ idle
  · exact .inr ⟨idle, rests⟩

end Collector

-----------------------------------------------------------------------------------------
-- Operations
-----------------------------------------------------------------------------------------

/-- How a demand for memory or for a collection is refused while one runs. -/
def Operation.refusal? (phase : Phase) : Operation δ → Option Violation
  | .allocate _ | .allocateAligned .. | .allocateFixed .. => some (.allocationInCollection phase)
  | .collect .. | .collectMinor | .collectFull => some (.nestedCollection phase)
  | _ => none

namespace World

variable {world : World σ δ}

/-- A collection runs, and every demand for memory or for another one is refused on account of its phase
and leaves the whole world as it was, but for the line that is logged.
-/
def Locked (world : World σ δ) : Prop :=
  world.heap.phase ≠ .idle
  ∧ ∀ (host : Host σ δ) (operation : Operation δ) (violation : Violation),
      operation.refusal? world.heap.phase = some violation →
      Runs (operation.run host) world (fun _ _ => False) fun stopped final =>
        stopped = violation ∧ final = { world with log := .fatal violation :: world.log }

/-- A heap on which a collection runs is locked. -/
theorem locked_of_busy (busy : world.heap.phase ≠ .idle) : world.Locked := by
  refine ⟨busy, fun host operation violation refused => ?_⟩
  cases operation with
  | allocate | allocateAligned | allocateFixed =>
      cases refused
      simp only [Operation.run, allocate, allocateAligned, allocateFixed, ensureIdle, runs_map,
        runs_bind, runs_heapNow, runs_ite, runs_stop, busy, ne_eq, not_false_eq_true, if_true,
        and_self]
  | collect | collectMinor | collectFull =>
      cases refused
      simp only [Operation.run, collect, collectMinor, collectFull, Collector.collectFor, runs_bind,
        runs_heapNow, runs_ite, runs_stop, busy, ne_eq, not_false_eq_true, if_true, and_self]
  | _ => cases refused

/-- Storing writes one word, or none. -/
theorem still_store (addr : Address) (word : Word)
    : Still (σ := σ) (δ := δ) (World.store addr word) := by
  intro world
  exact runs_store (fun _ => rfl) fun _ done => Heap.standing_setWord? world.heap done

/-- Recording a slot may call for a collection. -/
theorem whole_notifyStore (host : Host σ δ) (slot : Address) : Whole (notifyStore host slot) := by
  intro world
  simp only [notifyStore, runs_ite, runs_pure, runs_bind, runs_heapNow, runs_count, runs_report,
    runs_modifyRegions]
  split_ifs
  · exact .inl rfl
  · exact Collector.whole_collectFor host _ _ _ _
  · exact .inl rfl
  · exact .inl trivial

/-- Memory is handed out only by an idle heap, and that heap is idle again afterwards. -/
theorem whole_reserve (host : Host σ δ) (size stride : Nat)
    : Whole (do ensureIdle; reserve host size stride) := by
  intro world
  simp only [ensureIdle, runs_bind, runs_heapNow, runs_ite, runs_stop, runs_pure]
  split_ifs with busy
  · exact .inl trivial
  · have idle : world.heap.phase = .idle := by simpa using busy
    refine runs_reserve (fun _ => .inl rfl) (fun _ => .inr ⟨idle, idle⟩) fun wantsFull reason _ => ?_
    refine (Collector.whole_collectFor host _ wantsFull reason world).mono (fun _ middle ended => ?_)
      fun _ _ => id
    rcases ended with same | ⟨-, rests⟩
    · exact .inr ⟨idle, (Heap.phase_of_standing same).trans idle⟩
    · exact .inr ⟨idle, rests⟩

/-- A fixed object needs an idle heap as well, but no collection. -/
theorem whole_allocateFixed (size : Nat) (destructor : Option δ) (executable : Bool)
    : Whole (σ := σ) (allocateFixed size destructor executable) := by
  intro world
  simp only [allocateFixed, ensureIdle, requestFull, runs_bind, runs_heapNow, runs_ite, runs_stop,
    runs_pure, runs_modifyRegions, runs_count, runs_modifyHeap]
  split_ifs with busy
  · exact .inl trivial
  all_goals
    have idle : world.heap.phase = .idle := by simpa using busy
    exact .inr ⟨idle, idle⟩

/-- What ends a block takes handlers and frames away. -/
theorem still_closeBlock (block : Block) (result : Except Thrown α)
    : Still (σ := σ) (δ := δ) (closeBlock block result) := by
  refine .heapNow_bind fun heap => .bind (.modifyHeap fun _ => rfl) fun _ => ?_
  cases result with
  | ok value => exact .heapNow_bind fun _ => .ite (.stop _) (.pure _)
  | error thrown =>
      refine .bind (.modifyHeap fun _ => rfl) fun _ => ?_
      exact .heapNow_bind fun _ => .ite (.stop _) (.pure _)

/-- Only a table of modules is changed. -/
theorem still_updateModules (result : Except ModuleError ModuleTable)
    : Still (σ := σ) (δ := δ) (updateModules result) := by
  cases result with
  | error error => exact .pure _
  | ok modules => exact .bind (.modifyHeap fun _ => rfl) fun _ => .pure _

/-- Every operation leaves the heap as far as it was unless it finds it idle, and if it ends, it leaves
an idle heap idle.
-/
theorem whole_operation (host : Host σ δ) (operation : Operation δ)
    : Whole (operation.run host) := by
  cases operation with
  | allocate size => exact .map (whole_reserve host size 1) _
  | allocateAligned size align =>
      intro world
      have reserves := (whole_reserve host size (align / wordBytes)).map (fun _ => ()) world
      simp only [Operation.run, allocateAligned, ensureIdle, runs_map, runs_bind, runs_heapNow,
        runs_ite, runs_stop, runs_pure] at reserves ⊢
      split_ifs at reserves ⊢
      · exact .inl trivial
      · exact reserves
      · exact .inl trivial
  | allocateFixed size destructor executable =>
      exact .map (whole_allocateFixed size destructor executable) _
  | forgetFixed object =>
      intro world
      simp only [Operation.run, forgetFixed, runs_bind, runs_heapNow, runs_require,
        runs_modifyRegions]
      split
      next fixed forgotten =>
        split_ifs at forgotten
        exact .inl (Heap.standing_forget? world.heap forgotten)
      next => exact .inl trivial
  | requestFull reason => exact (Still.modifyHeap fun _ => rfl).toWhole
  | load addr =>
      exact (Still.map (.heapNow_bind fun _ => .require _ _) _).toWhole
  | store addr word => exact (still_store addr word).toWhole
  | notifyStore slot => exact whole_notifyStore host slot
  | storeNotified slot value =>
      exact .after_still (still_store slot value.raw) fun _ => whole_notifyStore host slot
  | write slot value =>
      refine .after_still (still_store slot value.raw) fun _ => ?_
      exact .ite (whole_notifyStore host slot) (Still.pure _).toWhole
  | enterFrame descriptor params =>
      refine (Still.map (.heapNow_bind fun _ => .bind (.check _) fun _ => ?_) _).toWhole
      exact .bind (.modifyHeap fun _ => rfl) fun _ => .pure _
  | exitFrame id =>
      refine (Still.heapNow_bind fun _ => .bind (.check _) fun _ => ?_).toWhole
      exact .modifyHeap fun _ => rfl
  | frameDescriptor id => exact (Still.map (.heapNow_bind fun _ => .check _) _).toWhole
  | frameSlot id kind index => exact (Still.map (.heapNow_bind fun _ => .check _) _).toWhole
  | setFrameSlot id kind index value =>
      refine (Still.heapNow_bind fun _ => .bind (.check _) fun _ => ?_).toWhole
      exact .modifyHeap fun _ => rfl
  | openBlock =>
      refine (Still.map (.heapNow_bind fun _ => ?_) _).toWhole
      exact .bind (.modifyHeap fun _ => rfl) fun _ => .pure _
  | closeBlock block result => exact (Still.map (still_closeBlock block result) _).toWhole
  | throwException code payload =>
      refine (Still.map (.heapNow_bind fun _ => .bind (.require _ _) fun _ => ?_) _).toWhole
      exact .bind (.modifyHeap fun _ => rfl) fun _ => .pure _
  | loadModule loader name searchPath wanted =>
      refine (Still.map (.heapNow_bind fun heap => ?_) _).toWhole
      dsimp only
      split
      · exact .pure _
      · split
        · exact .bind (.report _) fun _ => .pure _
        · exact .bind (.report _) fun _ => .bind (.modifyHeap fun _ => rfl) fun _ => .pure _
  | unloadModule rank =>
      refine (Still.map (.heapNow_bind fun heap => ?_) _).toWhole
      split
      · exact .pure _
      · exact .bind (.report _) fun _ => .bind (.modifyHeap fun _ => rfl) fun _ => .pure _
  | setModuleConstant rank value =>
      exact (Still.map (.heapNow_bind fun _ => still_updateModules _) _).toWhole
  | setModuleExtra rank extra =>
      exact (Still.map (.heapNow_bind fun _ => still_updateModules _) _).toWhole
  | setConstant index value => exact (Still.modifyHeap fun _ => rfl).toWhole
  | collect size wantsFull => exact Collector.whole_collectFor host _ _ _
  | collectMinor => exact Collector.whole_collectFor host _ _ _
  | collectFull => exact Collector.whole_collectFor host _ _ _

end World

-----------------------------------------------------------------------------------------
-- Routines
-----------------------------------------------------------------------------------------

/-- From this world, the routine goes on after no violation. -/
def Routine.Unbroken {α : Type} : Routine σ δ α → World σ δ → Prop
  | done _, _ => True
  | look next, world => (next world).Unbroken world
  | change state next, world => next.Unbroken { world with host := state }
  | operate host operation _ next, world =>
      Runs (operation.run host) world (fun _ middle => next.Unbroken middle) fun _ _ => True
  | block body next, world =>
      body.Unbroken world.opened
      ∧ Runs (World.exceptBlock body.run) world
          (fun result middle => (next result).Unbroken middle) fun _ _ => True
  | caught body next, world =>
      body.Unbroken world
      ∧ Ends body.run world fun result middle => (next (.ok result)).Unbroken middle

namespace World

variable {world : World σ δ}

/-- The action brings a heap on which a collection runs no further. -/
def Barred (action : Action (World σ δ) α) : Prop :=
  ∀ world,
    world.heap.phase ≠ .idle →
    Runs action world (fun _ final => final.heap.standing = world.heap.standing)
      fun _ final => final.heap.standing = world.heap.standing

theorem Whole.barred {action : Action (World σ δ) α} (whole : Whole action) : Barred action := by
  intro world busy
  exact (whole world).mono (fun _ _ ended => ended.resolve_right fun idle => busy idle.1)
    fun _ _ stopped => stopped.resolve_right fun idle => busy idle.1

/-- What is done first leaves the phase, so what is done then finds a collection running as well. -/
theorem Barred.bind {action : Action (World σ δ) α} {next : α → Action (World σ δ) β}
    (first : Barred action) (second : ∀ result, Barred (next result))
    : Barred (action >>= next) := by
  intro world busy
  rw [runs_bind]
  refine (first world busy).mono (fun result middle same => ?_) fun _ _ => id
  have busy : middle.heap.phase ≠ .idle := by rwa [Heap.phase_of_standing same]
  exact (second result middle busy).mono (fun _ _ later => later.trans same)
    fun _ _ later => later.trans same

/-- A violation that is caught changes nothing. -/
theorem runs_catching {action : Action (World σ δ) α} {world : World σ δ}
    {ended : Except Violation α → World σ δ → Prop} {stopped : Violation → World σ δ → Prop}
    : Runs (catching action) world ended stopped
      ↔ Runs action world (fun result final => ended (.ok result) final)
          fun violation final => ended (.error violation) final := by
  unfold Runs catching
  cases action world <;> rfl

/-- Whatever a host does with a heap on which a collection runs, the heap comes no further. -/
theorem barred_run (routine : Routine σ δ α) : Barred routine.run := by
  induction routine with
  | done result => exact (Still.pure result).toWhole.barred
  | look next ih => exact fun world => ih world world
  | change state next ih => exact fun world => ih { world with host := state }
  | operate host operation _ next ih => exact .bind (whole_operation host operation).barred fun _ => ih
  | block body next first second =>
      have opens : Still (σ := σ) (δ := δ) openBlock :=
        .heapNow_bind fun _ => .bind (.modifyHeap fun _ => rfl) fun _ => .pure _
      refine .bind (.bind opens.toWhole.barred fun block => .bind first fun result => ?_) second
      exact (still_closeBlock block result).toWhole.barred
  | caught body next first second =>
      refine .bind (fun world busy => ?_) second
      exact runs_catching.mpr (first world busy)

/-- A block that ends on a heap that its body leaves idle leaves it idle. -/
theorem idle_exceptBlock {body : Action (World σ δ) (Except Thrown α)} (idle : world.heap.phase = .idle)
    (inside
      : world.opened.heap.phase = .idle →
        Runs body world.opened (fun _ middle => middle.heap.phase = .idle) fun _ _ => True)
    : Runs (exceptBlock body) world (fun _ final => final.heap.phase = .idle) fun _ _ => True := by
  simp only [exceptBlock, runs_bind]
  refine (inside idle).mono (fun result middle idle => ?_) fun _ _ => id
  refine (still_closeBlock world.block result middle).mono (fun _ _ same => ?_) fun _ _ _ => trivial
  exact (Heap.phase_of_standing same).trans idle

/-- Whatever a host does with an idle heap, unless it goes on after a violation, leaves the heap idle. -/
theorem idle_run (routine : Routine σ δ α) (idle : world.heap.phase = .idle)
    (unbroken : routine.Unbroken world)
    : Runs routine.run world (fun _ final => final.heap.phase = .idle) fun _ _ => True := by
  induction routine generalizing world with
  | done result => exact idle
  | look next ih => exact ih world idle unbroken
  | change state next ih =>
      have idle : { world with host := state }.heap.phase = .idle := idle
      exact ih idle unbroken
  | operate host operation _ next ih =>
      simp only [Routine.run, runs_bind]
      refine ((whole_operation host operation world).and unbroken).mono (fun _ middle ended => ?_)
        fun _ _ _ => trivial
      refine ih ?_ ended.2
      rcases ended.1 with same | ⟨-, rests⟩
      · exact (Heap.phase_of_standing same).trans idle
      · exact rests
  | block body next first second =>
      obtain ⟨inner, onward⟩ := unbroken
      have closes := idle_exceptBlock idle fun idle => first idle inner
      simp only [Routine.run, runs_bind]
      refine (closes.and onward).mono (fun result middle ended => ?_) fun _ _ _ => trivial
      exact second result ended.1 ended.2
  | caught body next first second =>
      obtain ⟨inner, onward⟩ := unbroken
      simp only [Routine.run, runs_bind, runs_catching]
      refine ((first idle inner).and onward).mono (fun result middle ended => ?_)
        fun _ _ never => never.2.elim
      exact second (.ok result) ended.1 ended.2

/-- A collection that a violation stopped locks the heap for good. An operation that is stopped on an idle
heap after it began a collection leaves the heap busy. Whatever a host does with a busy heap from then on,
the heap comes no further, and every demand for memory or for a collection is refused and changes nothing.
Every operation that ends on an idle heap leaves it idle, and so does everything that a host does without
going on after a violation.
-/
theorem stopped_collection_locks (world : World σ δ) (routine : Routine σ δ α)
    : (∀ (host : Host σ δ) (operation : Operation δ),
        world.heap.phase = .idle →
        Runs (operation.run host) world (fun _ final => final.heap.phase = .idle)
          fun _ final =>
            final.heap.phase = .idle → final.heap.collections = world.heap.collections)
      ∧ (world.heap.phase ≠ .idle →
        Runs routine.run world
          (fun _ final => final.heap.standing = world.heap.standing ∧ final.Locked)
          fun _ final => final.heap.standing = world.heap.standing ∧ final.Locked)
      ∧ (world.heap.phase = .idle →
        routine.Unbroken world →
        Runs routine.run world (fun _ final => final.heap.phase = .idle) fun _ _ => True) := by
  refine ⟨fun host operation idle => ?_, fun busy => ?_, idle_run routine⟩
  · refine (whole_operation host operation world).mono (fun _ final ended => ?_)
      fun _ final stopped rests => ?_
    · rcases ended with same | ⟨-, rests⟩
      · exact (Heap.phase_of_standing same).trans idle
      · exact rests
    · rcases stopped with same | ⟨-, busy⟩
      · exact Heap.collections_of_standing same
      · exact absurd rests busy
  · have locks : ∀ {final : World σ δ}, final.heap.standing = world.heap.standing →
        final.heap.standing = world.heap.standing ∧ final.Locked := fun same =>
      ⟨same, locked_of_busy (by rwa [Heap.phase_of_standing same])⟩
    exact (barred_run routine world busy).mono (fun _ _ => locks) fun _ _ => locks

end World

namespace Record

/-- Callbacks that copy no word of an object. -/
def carelessHost : Host HostState Destructor :=
  { host with copy := fun _ _ state => { answer := ⟨[], 0⟩, host := state } }

/-- A heap whose first object could not be copied. -/
def stalledWorld : World HostState Destructor := youngWorld.after (World.collectMinor carelessHost)

/-- Collects, whether or not that is refused, and then asks for memory. -/
def persistent : Routine HostState Destructor Unit :=
  .caught (.operate host .collectFull rfl (.done ())) fun _ =>
    .operate host (.allocateFixed 16 none true) rfl (.done ())

end Record

namespace World

/-- The heap whose object could not be copied refuses everything, also to a host that would copy it; the
heap from before does as that host asks.
-/
theorem stopped_collection_locks_stalled
    : Record.stalledWorld.heap.phase = .scanningRoots
      ∧ Runs Record.persistent.run Record.stalledWorld
          (fun _ final => final.heap.standing = Record.stalledWorld.heap.standing ∧ final.Locked)
          (fun _ final => final.heap.standing = Record.stalledWorld.heap.standing ∧ final.Locked)
      ∧ Record.youngWorld.heap.phase = .idle
      ∧ Record.persistent.Unbroken Record.youngWorld
      ∧ Runs Record.persistent.run Record.youngWorld (fun _ final => final.heap.phase = .idle)
          (fun _ _ => True)
      ∧ Runs ((Operation.collectMinor).run Record.carelessHost) Record.youngWorld
          (fun _ final => final.heap.phase = .idle)
          fun _ final =>
            final.heap.phase = .idle →
              final.heap.collections = Record.youngWorld.heap.collections := by
  have stalled : Record.stalledWorld.heap.phase = .scanningRoots := by decide +kernel
  have ends : Ends (Routine.run (.operate Record.host .collectFull rfl (.done ())))
      Record.youngWorld fun _ middle =>
        Runs ((Operation.allocateFixed 16 none true).run Record.host) middle (fun _ _ => True)
          fun _ _ => True := by
    decide +kernel
  have unbroken : Record.persistent.Unbroken Record.youngWorld := ⟨runs_anyhow _ _, ends⟩
  have busy := stopped_collection_locks Record.stalledWorld Record.persistent
  have idle := stopped_collection_locks Record.youngWorld Record.persistent
  refine ⟨stalled, busy.2.1 (by rw [stalled]; nofun), Record.idle_young, unbroken, ?_, ?_⟩
  · exact idle.2.2 Record.idle_young unbroken
  · exact idle.1 Record.carelessHost .collectMinor Record.idle_young

end World

end MovingHeap
