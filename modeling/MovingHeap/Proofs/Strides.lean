import Mathlib.Logic.Relation
import MovingHeap.Proofs.Steadiness

/-! What operations are made of.
On a steady heap every operation is a path of strides, each of which does one thing to memory, so that
what the strides keep is kept by all operations, in any order and with any host.
-/

namespace MovingHeap

variable {σ δ α β : Type}

/-- The event neither records a slot nor moves the collector to another phase. -/
def Event.isPlain : Event → Bool
  | phaseChanged .. | slotRemembered _ => false
  | _ => true

namespace World

-----------------------------------------------------------------------------------------
-- Strides
-----------------------------------------------------------------------------------------

/-- Memory and the collector are the same, and nothing about them was logged. -/
structure SameMemory (before after : World σ δ) : Prop where
  regions : after.heap.regions = before.heap.regions
  phase : after.heap.phase = before.heap.phase
  log : ∃ events, after.log = events ++ before.log ∧ ∀ event ∈ events, event.isPlain

/-- One thing that an operation does. A collection that a recorded slot makes run belongs to the
recording, and what is counted for a fixed object to its allocation; a collection may be stopped.
-/
inductive Stride (host : Host σ δ) (before : World σ δ) : World σ δ → Prop where
  | bookkeeping {after : World σ δ} (same : before.SameMemory after) : Stride host before after
  | store {addr : Address} {word : Word} {regions : Regions δ}
      (done : before.heap.regions.setWord? addr word = some regions)
      : Stride host before { before with heap := { before.heap with regions } }
  | reserve {words stride : Nat} (fits : before.heap.regions.birth.fits (words + (stride - 1)))
      : Stride host before (before.reserved words stride)
  | record {slot : Address} (outside : slot.space ≠ .birth)
      (room : (before.heap.regions.birth.remember slot).nearlyFull = false)
      : Stride host before (before.recorded slot)
  | flush {slot : Address} (outside : slot.space ≠ .birth)
      : Stride host before
          ((before.recorded slot).after (Collector.collectFor host 0 false .storeBufferFull))
  | collect (words : Nat) (wantsFull : Bool) (reason : Reason)
      : Stride host before (before.after (Collector.collectFor host words wantsFull reason))
  | lodge {words : Nat} {destructor : Option δ} {executable : Bool} {after : World σ δ}
      (positive : 0 < words)
      (same
        : SameMemory
            { before with
              heap := { before.heap with
                regions := { before.heap.regions with
                  fixed := (before.heap.regions.fixed.allocate words destructor executable).2 } } }
            after)
      : Stride host before after
  | forget {start : Nat} {fixed : FixedSpace δ}
      (done : before.heap.regions.fixed.forget? start = some fixed)
      : Stride host before
          { before with
            heap := { before.heap with regions := { before.heap.regions with fixed } } }

/-- Strides one after another, each on a steady heap on which no collection runs. -/
def Path (host : Host σ δ) : World σ δ → World σ δ → Prop :=
  Relation.ReflTransGen fun before after =>
    before.heap.Steady ∧ before.heap.phase = .idle ∧ Stride host before after

/-- Nothing happened to memory where tables and counters changed. -/
theorem SameMemory.of_heap {before after : World σ δ}
    (regions : after.heap.regions = before.heap.regions)
    (phase : after.heap.phase = before.heap.phase) (log : after.log = before.log)
    : before.SameMemory after :=
  ⟨regions, phase, [], by simpa using log, by simp⟩

/-- Memory is the same where an event that is not about it was logged besides. -/
theorem SameMemory.of_report {before after : World σ δ} {event : Event}
    (regions : after.heap.regions = before.heap.regions)
    (phase : after.heap.phase = before.heap.phase) (log : after.log = event :: before.log)
    (plain : event.isPlain)
    : before.SameMemory after :=
  ⟨regions, phase, [event], by simpa using log, by simpa using plain⟩

section Stride

variable {host : Host σ δ} {before after : World σ δ}

/-- One stride is a path. -/
theorem Stride.path (stride : Stride host before after) (steady : before.heap.Steady)
    (idle : before.heap.phase = .idle)
    : Path host before after :=
  .single ⟨steady, idle, stride⟩

/-- What strides on steady heaps keep is kept along paths, by induction over the path. -/
theorem Path.keeps {holds : World σ δ → Prop} (path : Path host before after)
    (keeps
      : ∀ former latter,
          former.heap.Steady →
          former.heap.phase = .idle →
          Stride host former latter →
          holds former →
          holds latter)
    (begins : holds before)
    : holds after := by
  induction path with
  | refl => exact begins
  | tail _ last ih => exact keeps _ _ last.1 last.2.1 last.2.2 ih

end Stride

-----------------------------------------------------------------------------------------
-- Actions that keep memory
-----------------------------------------------------------------------------------------

/-- Wherever the action ends or is stopped, memory is the same. -/
def Quiet (action : Action (World σ δ) α) : Prop :=
  ∀ world,
    Runs action world (fun _ final => world.SameMemory final) fun _ final => world.SameMemory final

section Quiet

theorem quiet_pure (result : α) : Quiet (σ := σ) (δ := δ) (pure result) :=
  fun _ => runs_pure.mpr (.of_heap rfl rfl rfl)

theorem quiet_stop (violation : Violation) : Quiet (σ := σ) (δ := δ) (α := α) (stop violation) :=
  fun _ => runs_stop.mpr (.of_report rfl rfl rfl rfl)

theorem quiet_check (look : Heap δ → Except Violation α)
    : Quiet (do check (look (← heapNow)) : Action (World σ δ) α) := by
  intro world
  simp only [runs_bind, runs_heapNow, runs_check]
  split
  · exact .of_heap rfl rfl rfl
  · exact .of_report rfl rfl rfl rfl

theorem quiet_load (addr : Address) : Quiet (load addr : Action (World σ δ) Word) := by
  intro world
  simp only [load, runs_bind, runs_heapNow, runs_require]
  split
  · exact .of_heap rfl rfl rfl
  · exact .of_report rfl rfl rfl rfl

theorem quiet_requestFull (reason : Reason)
    : Quiet (requestFull reason : Action (World σ δ) Unit) := fun _ =>
  .of_heap rfl rfl rfl

theorem quiet_enterFrame (descriptor : FrameDescriptor) (params : List Value)
    : Quiet (enterFrame descriptor params : Action (World σ δ) FrameId) := by
  intro world
  simp only [enterFrame, runs_bind, runs_heapNow, runs_check, runs_modifyHeap, runs_pure]
  split
  · exact .of_heap rfl rfl rfl
  · exact .of_report rfl rfl rfl rfl

theorem quiet_exitFrame (id : FrameId) : Quiet (exitFrame id : Action (World σ δ) Unit) := by
  intro world
  simp only [exitFrame, runs_bind, runs_heapNow, runs_check, runs_modifyHeap]
  split
  · exact .of_heap rfl rfl rfl
  · exact .of_report rfl rfl rfl rfl

theorem quiet_setFrameSlot (id : FrameId) (kind : SlotKind) (index : Nat) (value : Value)
    : Quiet (setFrameSlot id kind index value : Action (World σ δ) Unit) := by
  intro world
  simp only [setFrameSlot, runs_bind, runs_heapNow, runs_check, runs_modifyHeap]
  split
  · exact .of_heap rfl rfl rfl
  · exact .of_report rfl rfl rfl rfl

theorem quiet_openBlock : Quiet (openBlock : Action (World σ δ) Block) := by
  intro world
  simp only [openBlock, runs_bind, runs_heapNow, runs_modifyHeap, runs_pure]
  exact .of_heap rfl rfl rfl

theorem quiet_closeBlock (block : Block) (result : Except Thrown α)
    : Quiet (closeBlock block result : Action (World σ δ) (Except Thrown α)) := by
  intro world
  simp only [closeBlock, runs_bind, runs_heapNow, runs_modifyHeap]
  cases result with
  | ok value =>
      simp only [runs_bind, runs_heapNow, runs_ite, runs_stop, runs_pure]
      split_ifs
      · exact .of_report rfl rfl rfl rfl
      · exact .of_heap rfl rfl rfl
  | error thrown =>
      simp only [runs_bind, runs_heapNow, runs_modifyHeap, runs_ite, runs_stop, runs_pure]
      split_ifs
      · exact .of_report rfl rfl rfl rfl
      · exact .of_heap rfl rfl rfl

theorem quiet_throwException (code : Int) (payload : Value)
    : Quiet (throwException code payload : Action (World σ δ) Thrown) := by
  intro world
  simp only [throwException, runs_bind, runs_heapNow, runs_require]
  split
  · exact .of_heap rfl rfl rfl
  · exact .of_report rfl rfl rfl rfl

theorem quiet_loadModule (loader : Loader) (name searchPath : String) (wanted : Option Nat)
    : Quiet (loadModule loader name searchPath wanted
        : Action (World σ δ) (Except ModuleError Nat)) := by
  intro world
  simp only [loadModule, runs_bind, runs_heapNow]
  split
  next => exact .of_heap rfl rfl rfl
  next =>
    split
    · simp only [runs_bind, runs_report, runs_pure]
      exact .of_report rfl rfl rfl rfl
    · simp only [runs_bind, runs_report, runs_modifyHeap, runs_pure]
      exact .of_report rfl rfl rfl rfl

theorem quiet_unloadModule (rank : Nat)
    : Quiet (unloadModule rank : Action (World σ δ) (Except ModuleError Unit)) := by
  intro world
  simp only [unloadModule, runs_bind, runs_heapNow]
  split
  · exact .of_heap rfl rfl rfl
  · simp only [runs_bind, runs_report, runs_modifyHeap, runs_pure]
    exact .of_report rfl rfl rfl rfl

theorem quiet_updateModules (change : Heap δ → Except ModuleError ModuleTable)
    : Quiet (do updateModules (change (← heapNow))
        : Action (World σ δ) (Except ModuleError Unit)) := by
  intro world
  simp only [updateModules, runs_bind, runs_heapNow]
  split
  · exact .of_heap rfl rfl rfl
  · exact .of_heap rfl rfl rfl

theorem quiet_setConstant (index : Nat) (value : Value)
    : Quiet (setConstant index value : Action (World σ δ) Unit) := fun _ =>
  .of_heap rfl rfl rfl

end Quiet

-----------------------------------------------------------------------------------------
-- Operations as paths
-----------------------------------------------------------------------------------------

/-- Wherever the action leaves a heap on which no collection runs, it took a path there. -/
def Strides (host : Host σ δ) (action : Action (World σ δ) α) : Prop :=
  ∀ world,
    world.heap.Steady →
    Runs action world (fun _ final => final.heap.phase = .idle → Path host world final)
      fun _ final => final.heap.phase = .idle → Path host world final

namespace Strides

variable {host : Host σ δ}

/-- What keeps memory takes one stride. -/
theorem of_quiet {action : Action (World σ δ) α} (quiet : Quiet action) : Strides host action := by
  intro world steady
  have stride : ∀ final, world.SameMemory final → final.heap.phase = .idle →
      Path host world final := fun final same idle =>
    (Stride.bookkeeping same).path steady (same.phase ▸ idle)
  exact (quiet world).mono (fun _ => stride) fun _ => stride

theorem map {action : Action (World σ δ) α} (strides : Strides host action) (change : α → β)
    : Strides host (change <$> action) := by
  intro world steady
  rw [runs_map]
  exact strides world steady

/-- One path after another, as the first ends on a steady heap. -/
theorem bind {action : Action (World σ δ) α} {next : α → Action (World σ δ) β}
    (lasting : Lasting action) (first : Strides host action)
    (lastingNext : ∀ result, Lasting (next result)) (second : ∀ result, Strides host (next result))
    : Strides host (action >>= next) := by
  intro world steady
  rw [runs_bind]
  refine ((lasting world).and (first world steady)).mono (fun result middle reached => ?_)
    fun _ _ => And.right
  obtain ⟨lasts, path⟩ := reached
  by_cases idle : middle.heap.phase = .idle
  · have held := lasts.steady idle steady
    refine (second result middle held).mono ?_ ?_
    · exact fun _ final onward rests => (path idle).trans (onward rests)
    · exact fun _ final onward rests => (path idle).trans (onward rests)
  · refine (lastingNext result middle).mono ?_ ?_
    · exact fun _ final later rests => absurd (later.idle rests) idle
    · exact fun _ final later rests => absurd (later.idle rests) idle

end Strides

section Operations

variable {host : Host σ δ}

/-- What holds of the world an action leaves holds wherever it ends or is stopped. -/
theorem everywhere_of_after {action : Action (World σ δ) α} {world : World σ δ}
    {holds : World σ δ → Prop} (there : holds (world.after action))
    : Runs action world (fun _ final => holds final) fun _ final => holds final := by
  unfold after at there
  unfold Runs
  cases ran : action world with
  | ok result final => simpa [ran] using there
  | error violation final => simpa [ran] using there

/-- An action that takes one stride takes a path, as no collection ran before if none runs after. -/
theorem strides_of_stride {action : Action (World σ δ) α} (lasting : Lasting action)
    (strides
      : ∀ world,
          Runs action world (fun _ final => Stride host world final)
            fun _ final => Stride host world final)
    : Strides host action := by
  intro world steady
  refine ((lasting world).and (strides world)).mono ?_ ?_
  · exact fun _ final reached idle => reached.2.path steady (reached.1.idle idle)
  · exact fun _ final reached idle => reached.2.path steady (reached.1.idle idle)

theorem strides_collectFor (words : Nat) (wantsFull : Bool) (reason : Reason)
    : Strides host (Collector.collectFor host words wantsFull reason) := by
  apply strides_of_stride (lasting_collectFor host words wantsFull reason)
  exact fun world => everywhere_of_after (.collect words wantsFull reason)

theorem strides_ensureIdle : Strides host (ensureIdle : Action (World σ δ) Unit) := by
  apply Strides.of_quiet
  intro world
  simp only [ensureIdle, runs_bind, runs_heapNow, runs_ite, runs_stop, runs_pure]
  split_ifs
  · exact .of_report rfl rfl rfl rfl
  · exact .of_heap rfl rfl rfl

theorem strides_store (addr : Address) (word : Word)
    : Strides host (store addr word : Action (World σ δ) Unit) := by
  apply strides_of_stride (lasting_store addr word)
  intro world
  simp only [store, runs_bind, runs_heapNow, runs_require, runs_modifyRegions]
  split
  next regions done => exact .store done
  next => exact .bookkeeping (.of_report rfl rfl rfl rfl)

/-- Memory is handed out in one stride, or in two if a collection makes room. -/
theorem strides_reserve (size stride : Nat) : Strides host (reserve host size stride) := by
  intro world steady
  simp only [reserve, runs_bind, runs_heapNow, runs_ite, runs_stop]
  split_ifs with large
  · intro idle
    refine Stride.path (.bookkeeping ?_) steady idle
    exact .of_report rfl rfl rfl rfl
  · apply runs_makeRoom
    · exact fun fits idle => (Stride.reserve fits).path steady idle
    · intro wantsFull reason
      have small := Nat.le_of_not_lt large
      refine ((lasts_collectFor host _ wantsFull reason world).and
        (strides_collectFor _ wantsFull reason world steady)).mono ?_ fun _ _ => And.right
      intro _ middle reached idle
      obtain ⟨⟨-, collects⟩, path⟩ := reached
      have fits := fits_of_collects (collects steady) steady.toRegular small
      exact (path idle).tail ⟨(collects steady).steady, idle, .reserve fits⟩

theorem strides_allocate (size : Nat) : Strides host (allocate host size) :=
  .bind lasting_ensureIdle strides_ensureIdle (fun _ => lasting_reserve host size 1)
    fun _ => strides_reserve size 1

theorem strides_allocateAligned (size align : Nat)
    : Strides host (allocateAligned host size align) := by
  apply Strides.bind lasting_ensureIdle strides_ensureIdle
  · intro _
    split_ifs
    · exact lasting_reserve host size _
    · exact .stop _
  · intro _
    split_ifs
    · exact strides_reserve size _
    · exact .of_quiet (quiet_stop _)

/-- A slot is recorded in one stride, together with the collection that may follow. -/
theorem strides_notifyStore (slot : Address) : Strides host (notifyStore host slot) := by
  apply strides_of_stride (lasting_notifyStore slot)
  intro world
  apply runs_notifyStore
  · exact fun _ => .bookkeeping (.of_heap rfl rfl rfl)
  · exact fun _ _ => .bookkeeping (.of_heap rfl rfl rfl)
  · exact fun outside room => .record outside room
  · exact fun outside => everywhere_of_after (.flush outside)

theorem strides_write (slot : Address) (value : Value) : Strides host (write host slot value) := by
  apply Strides.bind (lasting_store slot value.raw) (strides_store slot value.raw)
  · intro _
    split_ifs
    · exact lasting_notifyStore slot
    · exact .pure ()
  · intro _
    split_ifs
    · exact strides_notifyStore slot
    · exact .of_quiet (quiet_pure ())

theorem strides_allocateFixed (size : Nat) (destructor : Option δ) (executable : Bool)
    : Strides host (allocateFixed size destructor executable : Action (World σ δ) Address) := by
  apply strides_of_stride (lasting_allocateFixed size destructor executable)
  intro world
  have positive : 0 < max (wordsFor size) 1 := by omega
  simp only [allocateFixed, ensureIdle, requestFull, runs_bind, runs_heapNow, runs_ite, runs_stop,
    runs_pure, runs_modifyRegions, runs_count, runs_modifyHeap]
  split_ifs
  · exact .bookkeeping (.of_report rfl rfl rfl rfl)
  · exact .lodge positive (.of_heap rfl rfl rfl)
  · exact .lodge positive (.of_heap rfl rfl rfl)

theorem strides_forgetFixed (object : Address)
    : Strides host (forgetFixed object : Action (World σ δ) Unit) := by
  apply strides_of_stride (lasting_forgetFixed object)
  intro world
  simp only [forgetFixed, runs_bind, runs_heapNow, runs_require, runs_modifyRegions]
  split
  next fixed found =>
    split_ifs at found
    exact .forget found
  next => exact .bookkeeping (.of_report rfl rfl rfl rfl)

end Operations

/-- Every operation takes a path, whatever its host does. -/
theorem strides_run (host : Host σ δ) (operation : Operation δ)
    : Strides host (operation.run host) := by
  cases operation with
  | allocate size => exact (strides_allocate size).map _
  | allocateAligned size align => exact (strides_allocateAligned size align).map _
  | allocateFixed size destructor executable =>
      exact (strides_allocateFixed size destructor executable).map _
  | forgetFixed object => exact strides_forgetFixed object
  | requestFull reason => exact .of_quiet (quiet_requestFull reason)
  | load addr => exact (Strides.of_quiet (quiet_load addr)).map _
  | store addr word => exact strides_store addr word
  | notifyStore slot => exact strides_notifyStore slot
  | storeNotified slot value =>
      exact .bind (lasting_store slot value.raw) (strides_store slot value.raw)
        (fun _ => lasting_notifyStore slot) fun _ => strides_notifyStore slot
  | write slot value => exact strides_write slot value
  | enterFrame descriptor params =>
      exact (Strides.of_quiet (quiet_enterFrame descriptor params)).map _
  | exitFrame id => exact .of_quiet (quiet_exitFrame id)
  | frameDescriptor id =>
      exact (Strides.of_quiet (quiet_check fun heap => heap.frames.descriptor id)).map _
  | frameSlot id kind index =>
      exact (Strides.of_quiet (quiet_check fun heap => heap.frames.get id kind index)).map _
  | setFrameSlot id kind index value => exact .of_quiet (quiet_setFrameSlot id kind index value)
  | openBlock => exact (Strides.of_quiet quiet_openBlock).map _
  | closeBlock block result => exact (Strides.of_quiet (quiet_closeBlock block result)).map _
  | throwException code payload =>
      exact (Strides.of_quiet (quiet_throwException code payload)).map _
  | loadModule loader name searchPath wanted =>
      exact (Strides.of_quiet (quiet_loadModule loader name searchPath wanted)).map _
  | unloadModule rank => exact (Strides.of_quiet (quiet_unloadModule rank)).map _
  | setModuleConstant rank value =>
      exact (Strides.of_quiet
        (quiet_updateModules fun heap => heap.modules.setConstant rank value)).map _
  | setModuleExtra rank extra =>
      exact (Strides.of_quiet
        (quiet_updateModules fun heap => heap.modules.setExtra rank extra)).map _
  | setConstant index value => exact .of_quiet (quiet_setConstant index value)
  | collect size wantsFull => exact strides_collectFor _ wantsFull _
  | collectMinor => exact strides_collectFor 0 false _
  | collectFull => exact strides_collectFor 0 true _

/-- A collection on demand that is stopped was refused and left memory as it was, or stays stopped. -/
theorem refused_collectFor (host : Host σ δ) (words : Nat) (wantsFull : Bool) (reason : Reason)
    {world : World σ δ} (regular : world.heap.Regular)
    : Runs (Collector.collectFor host words wantsFull reason) world (fun _ _ => True)
        fun _ final => final.heap.phase = .idle → world.SameMemory final := by
  have fulls : ∀ reason (begun : World σ δ), begun.heap.Regular →
      Runs (Collector.full host reason) begun (fun _ _ => True)
        fun _ final => final.heap.phase = .idle → world.SameMemory final := by
    intro reason begun regular
    apply (Collector.collects_full host reason regular).mono
    · exact fun _ _ _ => trivial
    · exact fun _ _ busy idle => absurd idle busy
  simp only [Collector.collectFor, runs_bind, runs_heapNow, runs_ite, runs_stop]
  split_ifs
  · exact fun _ => .of_report rfl rfl rfl rfl
  · exact fun _ => .of_report rfl rfl rfl rfl
  · exact fulls reason world regular
  · split
    · exact fulls _ world regular
    · simp only [runs_bind, runs_heapNow, runs_ite, runs_pure]
      apply (Collector.collects_minor host reason regular).mono
      · intro _ middle collects
        split_ifs
        exact fulls _ middle collects.steady.toRegular
      · exact fun _ _ busy idle => absurd idle busy

/-- What depends on memory only and holds wherever a collection on demand ends holds of the world that
it leaves, unless it is stopped in the middle.
-/
theorem holds_after_collectFor {holds : World σ δ → Prop}
    (alike : ∀ before after : World σ δ, before.SameMemory after → holds before → holds after)
    {host : Host σ δ} {words : Nat} {wantsFull : Bool} {reason : Reason} {world : World σ δ}
    (regular : world.heap.Regular) (here : holds world)
    (ends
      : Runs (Collector.collectFor host words wantsFull reason) world (fun _ final => holds final)
          fun _ _ => True)
    (idle : (world.after (Collector.collectFor host words wantsFull reason)).heap.phase = .idle)
    : holds (world.after (Collector.collectFor host words wantsFull reason)) := by
  have runs : Runs (Collector.collectFor host words wantsFull reason) world
      (fun _ final => final.heap.phase = .idle → holds final)
      fun _ final => final.heap.phase = .idle → holds final := by
    refine (ends.and (refused_collectFor host words wantsFull reason regular)).mono ?_ ?_
    · exact fun _ _ reached _ => reached.1
    · exact fun _ final stopped idle => alike world final (stopped.2 idle) here
  exact after_of_runs runs idle

/-- What strides keep of steady heaps on which no collection runs is so in all runs, if it is so when a
heap is set up.
-/
theorem Reachable.keeps (holds : World σ δ → Prop)
    (created
      : ∀ (mapper : Mapper) (config : Config) (state : σ) (world : World σ δ),
          World.create mapper config state = .ok world → holds world)
    (keeps
      : ∀ (host : Host σ δ) (before after : World σ δ),
          before.heap.Steady →
          before.heap.phase = .idle →
          Stride host before after →
          holds before →
          holds after)
    (changed : ∀ (world : World σ δ) (state : σ), holds world → holds { world with host := state })
    {world : World σ δ} (reachable : world.Reachable) (idle : world.heap.phase = .idle)
    : holds world := by
  induction reachable with
  | create done => exact created _ _ _ _ done
  | @operate world host operation reachable ih =>
      have former := (lasts_after host operation world).idle idle
      have path := after_of_runs (strides_run host operation world (reachable.steady former))
      exact (path idle).keeps (keeps host) (ih former)
  | change state _ ih => exact changed _ state (ih idle)

-----------------------------------------------------------------------------------------
-- Where collections start
-----------------------------------------------------------------------------------------

/-- A collection that an operation on `world` runs may start there, behind a slot that the operation
recorded, or where a minor collection has ended before it.
-/
inductive Launches (world : World σ δ) : World σ δ → Prop where
  | here : Launches world world
  | recorded {slot : Address} (outside : slot.space ≠ .birth) : Launches world (world.recorded slot)
  | promoted {host : Host σ δ} {reason : Reason} {begun middle : World σ δ}
      (launches : Launches world begun) (ends : Collector.minor host reason begun = .ok () middle)
      : Launches world middle

/-- Collections start on regular heaps on which no other one runs. -/
theorem Launches.ready {world begun : World σ δ} (launches : world.Launches begun)
    (reachable : world.Reachable) (idle : world.heap.phase = .idle)
    : begun.heap.Regular ∧ begun.heap.phase = .idle := by
  have steady := reachable.steady idle
  induction launches with
  | here => exact ⟨steady.toRegular, idle⟩
  | recorded => exact ⟨regular_recorded steady _, idle⟩
  | @promoted host reason begun middle launches ends ih =>
      have collects := (Collector.collects_minor host reason ih.1).of_ok ends
      exact ⟨collects.steady.toRegular, collects.idle⟩

end World

end MovingHeap
