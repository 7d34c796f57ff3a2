import MovingHeap.Proofs.Conformance

/-! How an operation comes from one world to the next.
Either no collection runs, and all that the operation is not about stays the same, or one does, and
the operation only stores and records before it and takes memory behind it.
-/

namespace MovingHeap

variable {σ δ α : Type}

namespace Operation

/-- Whether the operation is about handlers. -/
def isHandling : Operation δ → Bool
  | .openBlock | .closeBlock .. | .throwException .. => true
  | _ => false

/-- Whether the operation is about fixed objects. -/
def isFixing : Operation δ → Bool
  | .allocateFixed .. | .forgetFixed .. => true
  | _ => false

/-- Whether the operation may let a collection run: it asks for memory or for a collection, or records a
slot, which it may have stored to before.
-/
def Asks (world : World σ δ) : Operation δ → Prop
  | .allocate _ | .allocateAligned .. | .collect .. | .collectMinor | .collectFull => True
  | .notifyStore slot => slot.space ≠ .birth
  | .storeNotified slot value =>
      slot.space ≠ .birth ∧ (world.heap.regions.setWord? slot value.raw).isSome
  | .write slot value =>
      value.isBirth
      ∧ slot.space ≠ .birth
      ∧ (world.heap.regions.setWord? slot value.raw).isSome
  | _ => False

/-- What the operation leaves alone while no collection runs. -/
structure Spares (operation : Operation δ) (before after : World σ δ) : Prop where
  phase : after.heap.phase = before.heap.phase
  collections : after.heap.collections = before.heap.collections
  fulls : after.heap.counters.fullCollections = before.heap.counters.fullCollections
  host : after.host = before.host
  handlers : operation.isHandling = false → after.heap.handlers = before.heap.handlers
  fixed
    : operation.isFixing = false →
        after.heap.regions.fixed.slots = before.heap.regions.fixed.slots

/-- The world in which an operation lets a collection run, if it does: it has stored and recorded. -/
def start (world : World σ δ) : Operation δ → World σ δ
  | .notifyStore slot => world.recorded slot
  | .storeNotified slot value => (world.after (World.store slot value.raw)).recorded slot
  | .write slot value => (world.after (World.store slot value.raw)).recorded slot
  | _ => world

/-- What the operation does with the world that a collection leaves: it takes the memory it needs. -/
def finish (world : World σ δ) : Operation δ → World σ δ
  | .allocate size => world.reserved (max (wordsFor size) minObjectWords) 1
  | .allocateAligned size align =>
      world.reserved (max (wordsFor size) minObjectWords) (align / wordBytes)
  | _ => world

/-- How the operation came from a sound world to another one. -/
inductive Course (contract : Contract σ) (host : Host σ δ) (operation : Operation δ)
    (world : World σ δ)
    : World σ δ → Prop where
  | direct {final : World σ δ} (spares : operation.Spares world final)
      : Course contract host operation world final
  | collected {words : Nat} {wantsFull : Bool} {reason : Reason} {middle : World σ δ}
      (asks : operation.Asks world) (sound : (operation.start world).Sound contract)
      (addressable : (operation.start world).Addressable)
      (ran
        : Collector.collectFor host words wantsFull reason (operation.start world) = .ok () middle)
      : Course contract host operation world (operation.finish middle)

/-- Wherever the action ends, or is stopped while no collection runs, the operation took its course. -/
def Takes (contract : Contract σ) (host : Host σ δ) (operation : Operation δ)
    (action : Action (World σ δ) α) (world : World σ δ)
    : Prop :=
  Runs action world (fun _ final => operation.Course contract host world final)
    fun _ final => final.heap.phase = .idle → operation.Course contract host world final

section Courses

variable {contract : Contract σ} {host : Host σ δ} {operation : Operation δ}
  {world final : World σ δ}

/-- An operation that left memory, handlers and host alone took its course. -/
theorem Course.of_same (phase : final.heap.phase = world.heap.phase)
    (collections : final.heap.collections = world.heap.collections)
    (fulls : final.heap.counters.fullCollections = world.heap.counters.fullCollections)
    (host' : final.host = world.host) (handlers : final.heap.handlers = world.heap.handlers)
    (fixed : final.heap.regions.fixed.slots = world.heap.regions.fixed.slots)
    : operation.Course contract host world final :=
  .direct ⟨phase, collections, fulls, host', fun _ => handlers, fun _ => fixed⟩

/-- An operation about handlers took its course if it left memory and host alone. -/
theorem Course.of_handling (handling : operation.isHandling)
    (phase : final.heap.phase = world.heap.phase)
    (collections : final.heap.collections = world.heap.collections)
    (fulls : final.heap.counters.fullCollections = world.heap.counters.fullCollections)
    (host' : final.host = world.host)
    (fixed : final.heap.regions.fixed.slots = world.heap.regions.fixed.slots)
    : operation.Course contract host world final :=
  .direct ⟨phase, collections, fulls, host', fun not => by simp [handling] at not, fun _ => fixed⟩

/-- An operation about fixed objects took its course if it left handlers and host alone. -/
theorem Course.of_fixing (fixing : operation.isFixing)
    (phase : final.heap.phase = world.heap.phase)
    (collections : final.heap.collections = world.heap.collections)
    (fulls : final.heap.counters.fullCollections = world.heap.counters.fullCollections)
    (host' : final.host = world.host) (handlers : final.heap.handlers = world.heap.handlers)
    : operation.Course contract host world final :=
  .direct ⟨phase, collections, fulls, host', fun _ => handlers, fun not => by simp [fixing] at not⟩

/-- Once an operation lets a collection run, it takes its course. -/
theorem Takes.collect (asks : operation.Asks world)
    (sound : (operation.start world).Sound contract)
    (addressable : (operation.start world).Addressable) (faithful : host.Faithful contract)
    (spares : operation.Spares world (operation.start world)) (words : Nat) (wantsFull : Bool)
    (reason : Reason)
    : Runs (Collector.collectFor host words wantsFull reason) (operation.start world)
        (fun _ middle => operation.Course contract host world (operation.finish middle))
        fun _ final => final.heap.phase = .idle → operation.Course contract host world final := by
  have collects := sound.collectFor addressable faithful words wantsFull reason
  refine collects.with_ok.mono (fun _ middle reached => ?_) fun _ final stopped idle => ?_
  · exact .collected asks sound addressable reached.1
  · obtain ⟨heap, host'⟩ := stopped.2 idle
    refine .direct ⟨?_, ?_, ?_, host'.trans spares.host, fun not => ?_, fun not => ?_⟩
    · rw [heap]
      exact spares.phase
    · rw [heap]
      exact spares.collections
    · rw [heap]
      exact spares.fulls
    · rw [heap]
      exact spares.handlers not
    · rw [heap]
      exact spares.fixed not

/-- Handing out memory takes its course. -/
theorem Takes.reserve (asks : operation.Asks world) (sound : world.Sound contract)
    (addressable : world.Addressable) (faithful : host.Faithful contract) {size stride : Nat}
    (begins : operation.start world = world)
    (finishes
      : ∀ middle : World σ δ,
          operation.finish middle
          = middle.reserved (max (wordsFor size) minObjectWords) stride)
    : operation.Takes contract host (World.reserve host size stride) world := by
  refine World.runs_reserve (fun _ _ => .of_same rfl rfl rfl rfl rfl rfl)
    (fun _ => .of_same rfl rfl rfl rfl rfl rfl) fun wantsFull reason _ => ?_
  have spares : operation.Spares world (operation.start world) := by
    rw [begins]
    exact ⟨rfl, rfl, rfl, rfl, fun _ => rfl, fun _ => rfl⟩
  rw [← begins] at sound addressable
  have takes := Takes.collect asks sound addressable faithful spares
    (max (wordsFor size) minObjectWords + (stride - 1)) wantsFull reason
  rw [begins] at takes
  refine takes.mono (fun _ middle course => ?_) fun _ _ => id
  rwa [finishes] at course

/-- Nothing is done on a heap that is busy. -/
theorem Takes.ensureIdle {next : Unit → Action (World σ δ) α}
    (takes : operation.Takes contract host (next ()) world)
    : operation.Takes contract host (World.ensureIdle >>= next) world := by
  unfold Takes
  simp only [World.ensureIdle, runs_bind, World.runs_heapNow, runs_ite, World.runs_stop, runs_pure]
  split_ifs
  · exact fun _ => .of_same rfl rfl rfl rfl rfl rfl
  · exact takes

/-- Looking something up takes its course. -/
theorem Takes.look (look : Heap δ → Except Violation α)
    : operation.Takes contract host (do World.check (look (← World.heapNow))) world := by
  unfold Takes
  rw [runs_bind, World.runs_heapNow, World.runs_check]
  split
  · exact .of_same rfl rfl rfl rfl rfl rfl
  · exact fun _ => .of_same rfl rfl rfl rfl rfl rfl

/-- Taking over modules takes its course. -/
theorem Takes.updateModules (result : Except ModuleError ModuleTable)
    : operation.Takes contract host (World.updateModules result) world := by
  cases result with
  | error => exact Course.of_same rfl rfl rfl rfl rfl rfl
  | ok modules => exact Course.of_same rfl rfl rfl rfl rfl rfl

theorem Takes.map {β : Type} {action : Action (World σ δ) α}
    (takes : operation.Takes contract host action world) (change : α → β)
    : operation.Takes contract host (change <$> action) world := by
  unfold Takes
  rw [runs_map]
  exact takes

/-- Recording a slot takes its course, after a store perhaps. -/
theorem Takes.notifyStore {stored : World σ δ} {slot : Address}
    (but : World.SoundBut contract slot stored) (steady : stored.heap.Steady)
    (addressable : stored.Addressable) (faithful : host.Faithful contract)
    (recordable : slot.space ≠ .birth → World.Recordable contract stored slot)
    (asks : slot.space ≠ .birth → operation.Asks world)
    (begins : slot.space ≠ .birth → operation.start world = stored.recorded slot)
    (finishes : ∀ middle : World σ δ, operation.finish middle = middle)
    (spares : operation.Spares world stored)
    : Runs (World.notifyStore host slot) stored
        (fun _ final => operation.Course contract host world final)
        fun _ final => final.heap.phase = .idle → operation.Course contract host world final := by
  have counted : operation.Spares world stored.duplicated :=
    ⟨spares.phase, spares.collections, spares.fulls, spares.host, spares.handlers, spares.fixed⟩
  have recorded : operation.Spares world (stored.recorded slot) :=
    ⟨spares.phase, spares.collections, spares.fulls, spares.host, spares.handlers, spares.fixed⟩
  refine World.runs_notifyStore (fun _ => .direct spares) (fun _ _ => .direct counted)
    (fun _ _ => .direct recorded) fun later => ?_
  have sound := but.recorded steady (recordable later)
  rw [← begins later] at sound recorded ⊢
  have reaches : (operation.start world).Addressable := by
    rw [begins later]
    exact addressable
  refine (Takes.collect (asks later) sound reaches faithful recorded 0 false .storeBufferFull).mono ?_
    fun _ _ => id
  intro _ middle course
  rwa [finishes] at course

/-- A store that is done leaves everything but the word. -/
theorem spares_stored {addr : Address} {word : Word} {regions : Regions δ}
    (done : world.heap.regions.setWord? addr word = some regions)
    : operation.Spares world (world.withRegions regions) :=
  ⟨rfl, rfl, rfl, rfl, fun _ => rfl, fun _ => (Collector.frame_setWord? done).2.1⟩

/-- Storing takes its course if what is done then does. -/
theorem Takes.store {addr : Address} {word : Word} {next : Unit → Action (World σ δ) α}
    (takes
      : ∀ regions,
          world.heap.regions.setWord? addr word = some regions →
          Runs (next ()) (world.withRegions regions)
            (fun _ final => operation.Course contract host world final)
            fun _ final => final.heap.phase = .idle → operation.Course contract host world final)
    : operation.Takes contract host (World.store addr word >>= next) world := by
  unfold Takes
  rw [runs_bind]
  exact World.runs_store (fun _ _ => .of_same rfl rfl rfl rfl rfl rfl) takes

/-- The world as a store that is done leaves it. -/
theorem after_store {addr : Address} {word : Word} {regions : Regions δ}
    (done : world.heap.regions.setWord? addr word = some regions)
    : world.after (World.store addr word) = world.withRegions regions := by
  have ran : Runs (World.store addr word) world (fun _ final => final = world.withRegions regions)
      fun _ final => final = world.withRegions regions := by
    simp only [World.store, runs_bind, World.runs_heapNow, World.runs_require, done,
      World.runs_modifyRegions]
    rfl
  exact World.after_of_runs ran

/-- All that happens before a collection happens to memory, and not to the slots of the fixed space. No
collection is counted.
-/
theorem start_eq (operation : Operation δ) (world : World σ δ)
    : ∃ regions counters log,
        regions.fixed.slots = world.heap.regions.fixed.slots
        ∧ counters.fullCollections = world.heap.counters.fullCollections
        ∧ operation.start world
          = { world with heap := { world.heap with regions, counters }, log } := by
  have stored : ∀ addr word, ∃ regions log,
      regions.fixed.slots = world.heap.regions.fixed.slots
      ∧ world.after (World.store addr word)
        = { world with heap := { world.heap with regions }, log } := by
    intro addr word
    have runs : Runs (World.store addr word) world
        (fun _ final => ∃ regions log,
          regions.fixed.slots = world.heap.regions.fixed.slots
          ∧ final = { world with heap := { world.heap with regions }, log })
        fun _ final => ∃ regions log,
          regions.fixed.slots = world.heap.regions.fixed.slots
          ∧ final = { world with heap := { world.heap with regions }, log } :=
      World.runs_store (fun _ => ⟨world.heap.regions, _, rfl, rfl⟩)
        fun regions done => ⟨regions, _, (Collector.frame_setWord? done).2.1, rfl⟩
    exact World.after_of_runs runs
  cases operation with
  | notifyStore slot =>
      refine ⟨_, _, _, ?_, ?_, rfl⟩
      · rfl
      · rfl
  | storeNotified slot value | write slot value =>
      obtain ⟨regions, log, slots, same⟩ := stored slot value.raw
      simp only [start, same]
      refine ⟨_, _, _, ?_, ?_, rfl⟩
      · exact slots
      · rfl
  | _ => exact ⟨_, _, _, rfl, rfl, rfl⟩

/-- All that happens behind a collection is that memory of the birth region is taken. -/
theorem finish_eq (operation : Operation δ) (world : World σ δ)
    : ∃ birth,
        operation.finish world
        = { world with
            heap := { world.heap with regions := { world.heap.regions with birth } } } := by
  cases operation <;> exact ⟨_, rfl⟩

/-- A collection that an operation lets run starts on a sound heap. -/
theorem Asks.sound (asks : operation.Asks world) (sound : world.Sound contract)
    (steady : world.heap.Steady) (addressable : world.Addressable)
    (permitted : operation.Permitted contract world)
    : (operation.start world).Sound contract ∧ (operation.start world).Addressable := by
  cases operation with
  | allocate | allocateAligned | collect | collectMinor | collectFull => exact ⟨sound, addressable⟩
  | notifyStore slot => exact ⟨(sound.but slot).recorded steady (permitted asks), addressable⟩
  | storeNotified slot value =>
      obtain ⟨later, stored⟩ := asks
      obtain ⟨regions, done⟩ := Option.isSome_iff_exists.mp stored
      obtain ⟨stores, recordable⟩ := permitted regions done
      have still := World.addressable_stored addressable done
      rw [start, after_store done]
      exact ⟨(sound.stored done stores).recorded (World.steady_stored steady done) (recordable later),
        still⟩
  | write slot value =>
      obtain ⟨young, later, stored⟩ := asks
      obtain ⟨regions, done⟩ := Option.isSome_iff_exists.mp stored
      obtain ⟨stores, recordable⟩ := permitted regions done
      have still := World.addressable_stored addressable done
      rw [start, after_store done]
      exact ⟨(sound.stored done stores).recorded (World.steady_stored steady done)
        (recordable young later), still⟩
  | _ => exact asks.elim

/-- Whatever a host may ask of a sound heap takes its course. -/
theorem takes_run (sound : world.Sound contract) (steady : world.heap.Steady)
    (addressable : world.Addressable) (faithful : host.Faithful contract)
    (permitted : operation.Permitted contract world)
    : operation.Takes contract host (operation.run host) world := by
  have spares : operation.Spares world world := ⟨rfl, rfl, rfl, rfl, fun _ => rfl, fun _ => rfl⟩
  cases operation with
  | allocate size =>
      exact .map (.ensureIdle (.reserve (by trivial) sound addressable faithful rfl fun _ => rfl)) _
  | allocateAligned size align =>
      refine .map (.ensureIdle ?_) _
      split_ifs
      · exact .reserve (by trivial) sound addressable faithful rfl fun _ => rfl
      · exact fun _ => .of_same rfl rfl rfl rfl rfl rfl
  | allocateFixed size destructor executable =>
      refine .map (.ensureIdle ?_) _
      unfold Takes
      simp only [runs_bind, World.runs_heapNow, World.runs_modifyRegions, World.runs_count, runs_ite,
        World.requestFull, World.runs_modifyHeap, runs_pure]
      split_ifs
      · exact .of_fixing rfl rfl rfl rfl rfl rfl
      · exact .of_fixing rfl rfl rfl rfl rfl rfl
  | forgetFixed object =>
      simp only [Takes, run, World.forgetFixed, runs_bind, World.runs_heapNow, World.runs_require,
        World.runs_modifyRegions]
      split
      · exact .of_fixing rfl rfl rfl rfl rfl rfl
      · exact fun _ => .of_same rfl rfl rfl rfl rfl rfl
  | requestFull reason => exact Course.of_same rfl rfl rfl rfl rfl rfl
  | load addr =>
      refine .map ?_ _
      simp only [Takes, World.load, runs_bind, World.runs_heapNow, World.runs_require]
      split
      · exact .direct spares
      · exact fun _ => .of_same rfl rfl rfl rfl rfl rfl
  | store addr word =>
      exact World.runs_store (fun _ _ => .of_same rfl rfl rfl rfl rfl rfl)
        fun regions done => .direct (spares_stored done)
  | notifyStore slot =>
      exact .notifyStore (sound.but slot) steady addressable faithful permitted id (fun _ => rfl)
        (fun _ => rfl) spares
  | storeNotified slot value =>
      refine .store fun regions done => ?_
      obtain ⟨stores, recordable⟩ := permitted regions done
      refine Takes.notifyStore (sound.stored done stores) (World.steady_stored steady done)
        (World.addressable_stored addressable done) faithful recordable
        (fun later => ⟨later, by rw [done]; rfl⟩) (fun _ => ?_) (fun _ => rfl) (spares_stored done)
      rw [start, after_store done]
  | write slot value =>
      refine .store fun regions done => ?_
      obtain ⟨stores, recordable⟩ := permitted regions done
      simp only [runs_ite, runs_pure]
      split_ifs with young
      · simp only [Bool.and_eq_true, bne_iff_ne] at young
        refine Takes.notifyStore (sound.stored done stores) (World.steady_stored steady done)
          (World.addressable_stored addressable done) faithful (recordable young.1)
          (fun later => ⟨young.1, later, by rw [done]; rfl⟩) (fun _ => ?_) (fun _ => rfl)
          (spares_stored done)
        rw [start, after_store done]
      · exact .direct (spares_stored done)
  | enterFrame descriptor params =>
      refine .map ?_ _
      simp only [Takes, World.enterFrame, runs_bind, World.runs_heapNow, World.runs_check,
        World.runs_modifyHeap, runs_pure]
      split
      · exact .of_same rfl rfl rfl rfl rfl rfl
      · exact fun _ => .of_same rfl rfl rfl rfl rfl rfl
  | exitFrame id =>
      simp only [Takes, run, World.exitFrame, runs_bind, World.runs_heapNow, World.runs_check,
        World.runs_modifyHeap]
      split
      · exact .of_same rfl rfl rfl rfl rfl rfl
      · exact fun _ => .of_same rfl rfl rfl rfl rfl rfl
  | frameDescriptor id => exact .map (.look fun heap => heap.frames.descriptor id) _
  | frameSlot id kind index => exact .map (.look fun heap => heap.frames.get id kind index) _
  | setFrameSlot id kind index value =>
      simp only [Takes, run, World.setFrameSlot, runs_bind, World.runs_heapNow, World.runs_check,
        World.runs_modifyHeap]
      split
      · exact .of_same rfl rfl rfl rfl rfl rfl
      · exact fun _ => .of_same rfl rfl rfl rfl rfl rfl
  | openBlock => exact Course.of_handling rfl rfl rfl rfl rfl rfl
  | closeBlock block result =>
      refine .map ?_ _
      simp only [Takes, World.closeBlock, runs_bind, World.runs_heapNow, World.runs_modifyHeap]
      cases result with
      | ok value =>
          simp only [runs_bind, World.runs_heapNow, runs_ite, World.runs_stop, runs_pure]
          split_ifs
          · exact fun _ => .of_handling rfl rfl rfl rfl rfl rfl
          · exact .of_handling rfl rfl rfl rfl rfl rfl
      | error thrown =>
          simp only [runs_bind, World.runs_heapNow, World.runs_modifyHeap, runs_ite, World.runs_stop,
            runs_pure]
          split_ifs
          · exact fun _ => .of_handling rfl rfl rfl rfl rfl rfl
          · exact .of_handling rfl rfl rfl rfl rfl rfl
  | throwException code payload =>
      refine .map ?_ _
      simp only [Takes, World.throwException, runs_bind, World.runs_heapNow, World.runs_require,
        World.runs_modifyHeap, runs_pure]
      split
      · exact .of_handling rfl rfl rfl rfl rfl rfl
      · exact fun _ => .of_same rfl rfl rfl rfl rfl rfl
  | loadModule loader name searchPath wanted =>
      refine .map ?_ _
      simp only [Takes, World.loadModule, runs_bind, World.runs_heapNow]
      split
      · exact .direct spares
      · split
        · exact .of_same rfl rfl rfl rfl rfl rfl
        · exact .of_same rfl rfl rfl rfl rfl rfl
  | unloadModule rank =>
      refine .map ?_ _
      simp only [Takes, World.unloadModule, runs_bind, World.runs_heapNow]
      split
      · exact .direct spares
      · exact .of_same rfl rfl rfl rfl rfl rfl
  | setModuleConstant rank value =>
      refine .map ?_ _
      simp only [Takes, World.setModuleConstant, runs_bind, World.runs_heapNow]
      exact Takes.updateModules _
  | setModuleExtra rank extra =>
      refine .map ?_ _
      simp only [Takes, World.setModuleExtra, runs_bind, World.runs_heapNow]
      exact Takes.updateModules _
  | setConstant index value => exact Course.of_same rfl rfl rfl rfl rfl rfl
  | collect size wantsFull =>
      exact @Takes.collect σ δ contract host (.collect size wantsFull) world trivial sound addressable
        faithful spares _ wantsFull _
  | collectMinor =>
      exact @Takes.collect σ δ contract host .collectMinor world trivial sound addressable faithful
        spares 0 false _
  | collectFull =>
      exact @Takes.collect σ δ contract host .collectFull world trivial sound addressable faithful
        spares 0 true _

/-- What a host asks of a sound heap takes its course if no collection runs afterwards. -/
theorem course (sound : world.Sound contract) (steady : world.heap.Steady)
    (addressable : world.Addressable) (faithful : host.Faithful contract)
    (permitted : operation.Permitted contract world)
    (idle : (world.after (operation.run host)).heap.phase = .idle)
    : operation.Course contract host world (world.after (operation.run host)) := by
  have takes : Runs (operation.run host) world
      (fun _ final => final.heap.phase = .idle → operation.Course contract host world final)
      fun _ final => final.heap.phase = .idle → operation.Course contract host world final :=
    (takes_run sound steady addressable faithful permitted).mono (fun _ _ course _ => course)
      fun _ _ => id
  exact World.after_of_runs takes idle

end Courses

end Operation

end MovingHeap
