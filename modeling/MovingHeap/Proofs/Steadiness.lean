import MovingHeap.Proofs.Lasting

/-! Every operation leaves a steady heap if no collection runs afterwards, so every run does.
Tables stay in order whatever is put into them, and a word that is recorded leaves room for another
one or makes a collection run.
-/

namespace MovingHeap

variable {σ δ α : Type}

-----------------------------------------------------------------------------------------
-- Tables in order
-----------------------------------------------------------------------------------------

/-- From one group on, the next power of two is a number of groups. -/
theorem ConstantTable.groups_nextPowerOfTwo {size : Nat} (large : groupSize ≤ size)
    : nextPowerOfTwo size = nextPowerOfTwo size / groupSize * groupSize := by
  simp only [groupSize] at large
  have high : 2 ≤ (size - 1).log2 := (Nat.le_log2 (by omega)).mpr (by omega)
  have divides : groupSize ∣ nextPowerOfTwo size := by
    rw [nextPowerOfTwo, if_neg (by omega), Nat.one_shiftLeft]
    exact pow_dvd_pow 2 (show 3 ≤ (size - 1).log2 + 1 by omega)
  exact (Nat.div_mul_cancel divides).symm

/-- A new table is as large as its groups. -/
theorem ConstantTable.capacity_withCapacity (capacity : Nat)
    : (ConstantTable.withCapacity capacity).capacity
        = (ConstantTable.withCapacity capacity).dirty.size * ConstantTable.groupSize
      ∧ 0 < (ConstantTable.withCapacity capacity).dirty.size := by
  have large : ConstantTable.groupSize ≤ max capacity ConstantTable.groupSize := Nat.le_max_right _ _
  have whole := ConstantTable.groups_nextPowerOfTwo large
  have above := le_nextPowerOfTwo (max capacity ConstantTable.groupSize)
  refine ⟨by simpa [ConstantTable.withCapacity, ConstantTable.capacity, Arena.zeroed] using whole, ?_⟩
  simp only [ConstantTable.withCapacity, Array.size_replicate]
  exact Nat.div_pos (large.trans above) (by decide)

/-- A table stays as large as its groups when it grows. -/
theorem ConstantTable.groups_grownFor {table : ConstantTable}
    (groups : table.capacity = table.dirty.size * groupSize) (grouped : 0 < table.dirty.size)
    (index : Nat)
    : (table.grownFor index).capacity = (table.grownFor index).dirty.size * groupSize
      ∧ table.dirty.size ≤ (table.grownFor index).dirty.size := by
  unfold grownFor
  split_ifs with inside
  · exact ⟨groups, Nat.le_refl _⟩
  · have one : 1 * groupSize ≤ table.dirty.size * groupSize := Nat.mul_le_mul_right _ grouped
    have large : groupSize ≤ index + 1 := by omega
    have whole := groups_nextPowerOfTwo large
    have above := le_nextPowerOfTwo (index + 1)
    have fewer : table.dirty.size ≤ nextPowerOfTwo (index + 1) / groupSize := by
      rw [Nat.le_div_iff_mul_le (by decide)]
      omega
    have wide : table.slots.size ≤ nextPowerOfTwo (index + 1) := by
      simp only [capacity] at inside
      omega
    simp only [capacity, Arena.grow, Arena.clear, Array.size_append, Array.size_replicate]
    rw [Nat.add_sub_of_le wide, Nat.add_sub_of_le fewer]
    exact ⟨whole, fewer⟩

/-- A rank that can be claimed is not 0. -/
theorem ModuleTable.ne_zero_of_claim {table : ModuleTable} {wanted : Option Nat} {rank : Nat}
    (claimed : table.claim wanted = .ok rank)
    : rank ≠ 0 := by
  unfold claim at claimed
  split at claimed
  next rank' =>
    split_ifs at claimed with outside
    cases claimed
    exact fun zero => outside (Or.inl zero)
  next =>
    split at claimed
    next found unused =>
      cases claimed
      have above := (firstUnused?_eq_some unused).1
      omega
    next => cases claimed

/-- Where a module is registered, the first of its candidates that opens is put at the rank. -/
theorem ModuleTable.eq_of_register {table modules : ModuleTable} {loader : Loader}
    {name searchPath : String} {rank : Nat}
    (registered : table.register loader name searchPath rank = .ok modules)
    : ∃ path library,
        openFirst? loader name searchPath = some (path, library)
        ∧ modules = (table.put rank { name, path, library }).touch rank := by
  unfold register at registered
  split at registered
  next path library opened =>
    cases registered
    exact ⟨path, library, opened, rfl⟩
  next => split_ifs at registered

/-- Where a module is unloaded, its rank is cleared. -/
theorem ModuleTable.eq_of_unload {table modules : ModuleTable} {entry : Module} {rank : Nat}
    (unloaded : table.unload rank = .ok (entry, modules))
    : modules = { table with entries := table.entries.erase rank } := by
  unfold unload at unloaded
  cases found : table.get rank with
  | error fault =>
      rw [found] at unloaded
      cases unloaded
  | ok resident =>
      rw [found] at unloaded
      cases unloaded
      rfl

/-- Touching a rank changes no module. -/
theorem ModuleTable.get?_touch (table : ModuleTable) (rank other : Nat)
    : (table.touch rank).get? other = table.get? other := by
  unfold touch
  split_ifs <;> rfl

/-- In an empty fixed space nothing is in disorder. -/
theorem FixedSpace.consistent_empty : ({} : FixedSpace δ).Consistent where
  stacked := rfl
  fits := nofun
  vacantNodup _ _ := by simp [FreeLists.get]
  mem_vacant _ _ _ := by simp [FreeLists.get]

namespace Heap

variable {heap : Heap δ} (ordered : heap.Ordered)

include ordered

/-- Frames that were entered in order are in order in the heap. -/
theorem Ordered.ofFrames {frames : FrameStack}
    (entered : frames.frames.Pairwise fun newer older => older.id.number < newer.id.number)
    (numbered : ∀ frame ∈ frames.frames, frame.id.number < frames.nextNumber)
    : { heap with frames }.Ordered :=
  ⟨entered, numbered, ordered.ranks, ordered.groups, ordered.grouped⟩

/-- Leaving frames keeps the others in order. -/
theorem Ordered.ofSublist {frames : List Frame} (fewer : frames.Sublist heap.frames.frames)
    : { heap with frames := { heap.frames with frames } }.Ordered :=
  ordered.ofFrames (ordered.entered.sublist fewer) fun frame member =>
    ordered.numbered frame (fewer.subset member)

theorem Ordered.push {descriptor : FrameDescriptor} {params : List Value} {id : FrameId}
    {frames : FrameStack} (entered : heap.frames.push descriptor params = .ok (id, frames))
    : { heap with frames }.Ordered := by
  unfold FrameStack.push at entered
  split_ifs at entered
  cases entered
  refine ordered.ofFrames ?_ ?_
  · exact List.pairwise_cons.mpr ⟨ordered.numbered, ordered.entered⟩
  · intro frame member
    rcases List.mem_cons.mp member with rfl | older
    · exact Nat.lt_succ_self _
    · exact Nat.lt_succ_of_lt (ordered.numbered frame older)

theorem Ordered.pop {id : FrameId} {frames : FrameStack}
    (left : heap.frames.pop id = .ok frames)
    : { heap with frames }.Ordered := by
  unfold FrameStack.pop at left
  split at left
  next top rest listed =>
    split_ifs at left
    cases left
    exact ordered.ofSublist (by rw [listed]; exact List.sublist_cons_self top rest)
  next => cases left

theorem Ordered.unwindTo (saved : Option FrameId)
    : { heap with frames := heap.frames.unwindTo saved }.Ordered :=
  ordered.ofSublist (List.dropWhile_sublist _)

theorem Ordered.set {id : FrameId} {kind : SlotKind} {index : Nat} {value : Value}
    {frames : FrameStack} (done : heap.frames.set id kind index value = .ok frames)
    : { heap with frames }.Ordered := by
  unfold FrameStack.set at done
  cases position : heap.frames.position id kind index with
  | error violation =>
      rw [position] at done
      cases done
  | ok position' =>
      rw [position] at done
      cases done
      exact (sameTables_setRoot heap (.slot id position') value).ordered ordered

/-- Modules are put at ranks other than 0. -/
theorem Ordered.ofModules {modules : ModuleTable}
    (ranks : ∀ rank, (modules.get? rank).isSome → rank ≠ 0)
    : { heap with modules }.Ordered :=
  ⟨ordered.entered, ordered.numbered, ranks, ordered.groups, ordered.grouped⟩

theorem Ordered.put {rank : Nat} (used : rank ≠ 0) (entry : Module)
    : ∀ other, ((heap.modules.put rank entry).get? other).isSome → other ≠ 0 := by
  intro other found
  rw [ModuleTable.get?_put] at found
  split_ifs at found with same
  · rwa [← same]
  · exact ordered.ranks other found

theorem Ordered.setConstant (index : Nat) (value : Value)
    : { heap with constants := heap.constants.set index value }.Ordered := by
  obtain ⟨groups, more⟩ :=
    ConstantTable.groups_grownFor ordered.groups ordered.grouped index
  refine ⟨ordered.entered, ordered.numbered, ordered.ranks, ?_, ?_⟩
  · simpa [ConstantTable.set, ConstantTable.replace, ConstantTable.capacity, Arena.set] using groups
  · have grouped := ordered.grouped
    simp only [ConstantTable.set, ConstantTable.replace, Array.size_setIfInBounds]
    omega

end Heap

-----------------------------------------------------------------------------------------
-- Operations
-----------------------------------------------------------------------------------------

namespace World

section Operations

variable {host : Host σ δ}

theorem lasting_ensureIdle : Lasting (ensureIdle : Action (World σ δ) Unit) := by
  refine .heapNow_bind fun heap => ?_
  dsimp only
  split_ifs
  · exact .stop _
  · exact .pure ()

theorem lasting_allocate (size : Nat) : Lasting (allocate host size) :=
  .bind lasting_ensureIdle fun _ => lasting_reserve host size 1

theorem lasting_allocateAligned (size align : Nat) : Lasting (allocateAligned host size align) := by
  refine .bind lasting_ensureIdle fun _ => ?_
  split_ifs
  · exact lasting_reserve host size _
  · exact .stop _

/-- Storing a word lasts, as memory keeps its outline. -/
theorem lasting_store (addr : Address) (word : Word)
    : Lasting (store addr word : Action (World σ δ) Unit) := by
  intro world
  refine runs_store (fun _ => .of_heap rfl) fun regions done => ?_
  have evolves := Regions.Evolves.setWord? done
  refine .of_memory rfl (fun ordered => ⟨ordered.entered, ordered.numbered, ordered.ranks,
    ordered.groups, ordered.grouped⟩) fun steady => ⟨steady.toResting.evolves evolves, ?_, ?_⟩
  · have cursor : regions.birth.cursor = world.heap.regions.birth.cursor := evolves.birthCursor
    have bufferStart : regions.birth.bufferStart = world.heap.regions.birth.bufferStart :=
      evolves.bufferStart
    have spare := steady.spare
    dsimp only
    omega
  · have size : regions.fixed.arena.size = world.heap.regions.fixed.arena.size := evolves.fixedSize
    exact Nat.le_of_eq size.symm

/-- Recording a slot in a steady heap leaves a regular one. -/
theorem regular_recorded {world : World σ δ} (steady : world.heap.Steady) (slot : Address)
    : (world.recorded slot).heap.Regular := by
  have spare := steady.spare
  have inside := steady.birthInside
  refine ⟨steady.toResting.birth rfl rfl ?_ ?_, steady.entered, steady.numbered, steady.ranks,
    steady.groups, steady.grouped⟩
  · simp only [BirthRegion.remember]
    omega
  · exact (Nat.sub_le _ _).trans inside

/-- Recording a slot lasts, as a collection follows where there is no room for another. -/
theorem lasting_notifyStore (slot : Address) : Lasting (notifyStore host slot) := by
  intro world
  refine runs_notifyStore (fun _ => .of_heap rfl) (fun _ _ => .of_tables rfl rfl
    fun ordered => ⟨ordered.entered, ordered.numbered, ordered.ranks, ordered.groups,
      ordered.grouped⟩) (fun _ room => ?_) fun _ => ?_
  · refine ⟨id, fun _ steady => ⟨regular_recorded steady slot, ?_⟩, fun _ _ => Nat.le_refl _⟩
    have wide : ¬ (world.heap.regions.birth.remember slot).bufferStart
        - (world.heap.regions.birth.remember slot).cursor ≤ storeBufferSlack := by
      simpa [BirthRegion.nearlyFull] using room
    simp only [recorded]
    omega
  · by_cases steady : world.heap.Steady
    · have regular := regular_recorded steady slot
      refine (Collector.collects_collectFor host 0 false .storeBufferFull regular).mono ?_ ?_
      · intro _ final reached
        obtain ⟨idle, collects⟩ := reached
        exact ⟨fun _ => idle, fun _ _ => collects.steady,
          fun _ _ => Nat.le_of_eq collects.arena.symm⟩
      · intro _ final stays
        have busy : final.heap.phase ≠ .idle := fun idle =>
          absurd (stays idle).1 (Nat.not_lt_zero _)
        exact ⟨fun idle => absurd idle busy, fun idle => absurd idle busy,
          fun idle => absurd idle busy⟩
    · refine (idle_of_collectFor host 0 false .storeBufferFull (world.recorded slot)).mono ?_ ?_
      · intro _ final idle
        exact ⟨fun _ => idle, fun _ held => absurd held steady, fun _ held => absurd held steady⟩
      · intro _ final idle
        exact ⟨idle, fun _ held => absurd held steady, fun _ held => absurd held steady⟩

theorem lasting_write (slot : Address) (value : Value) : Lasting (write host slot value) := by
  refine .bind (lasting_store slot value.raw) fun _ => ?_
  split_ifs
  · exact lasting_notifyStore slot
  · exact .pure ()

/-- Reserving fixed memory lasts, and the fixed space does not become smaller. -/
theorem lasting_allocateFixed (size : Nat) (destructor : Option δ) (executable : Bool)
    : Lasting (allocateFixed size destructor executable : Action (World σ δ) Address) := by
  refine .bind lasting_ensureIdle fun _ world => ?_
  have reserved : ∀ pendingFull counters, world.Lasts
      { world with
        heap := { world.heap with
          regions := { world.heap.regions with
            fixed := (world.heap.regions.fixed.allocate (max (wordsFor size) 1) destructor
              executable).2 }
          pendingFull
          counters } } := by
    intro pendingFull counters
    refine .of_memory rfl (fun ordered => ⟨ordered.entered, ordered.numbered, ordered.ranks,
      ordered.groups, ordered.grouped⟩) fun steady => ?_
    have positive : 0 < max (wordsFor size) 1 := by omega
    obtain ⟨slot, -, held, reserves⟩ := steady.consistent.reserves_allocate positive destructor
      executable
    refine ⟨steady.toResting.fixed reserves.consistent ?_, steady.spare, reserves.size_le⟩
    intro other member occupant holds
    rcases (reserves.mem_slots other).mp member with rfl | ⟨former, -⟩
    · rw [held, Option.some.injEq] at holds
      rw [← holds]
    · exact steady.noneMarked other former occupant holds
  simp only [runs_bind, runs_heapNow, runs_modifyRegions, runs_count, runs_ite, requestFull,
    runs_modifyHeap, runs_pure]
  split_ifs
  · exact reserved _ _
  · exact reserved _ _

theorem lasting_forgetFixed (object : Address)
    : Lasting (forgetFixed object : Action (World σ δ) Unit) := by
  intro world
  simp only [forgetFixed, runs_bind, runs_heapNow, runs_require, runs_modifyRegions]
  split
  next fixed found =>
    split_ifs at found
    refine .of_memory rfl (fun ordered => ⟨ordered.entered, ordered.numbered, ordered.ranks,
      ordered.groups, ordered.grouped⟩) fun steady => ⟨steady.toResting.fixed
        (steady.consistent.forget? found) (steady.noneMarked.forget? found), steady.spare, ?_⟩
    obtain ⟨_, -, same⟩ := Option.map_eq_some_iff.mp found
    rw [← same]
    exact Nat.le_refl _
  next => exact .of_heap rfl

theorem lasting_requestFull (reason : Reason)
    : Lasting (requestFull reason : Action (World σ δ) Unit) := fun _ =>
  .of_tables rfl rfl fun ordered => ⟨ordered.entered, ordered.numbered, ordered.ranks,
    ordered.groups, ordered.grouped⟩

theorem lasting_enterFrame (descriptor : FrameDescriptor) (params : List Value)
    : Lasting (enterFrame descriptor params : Action (World σ δ) FrameId) := by
  intro world
  simp only [enterFrame, runs_bind, runs_heapNow, runs_check, runs_modifyHeap, runs_pure]
  split
  next entered done =>
    obtain ⟨id, frames⟩ := entered
    exact .of_tables rfl rfl fun ordered => ordered.push done
  next => exact .of_heap rfl

theorem lasting_exitFrame (id : FrameId)
    : Lasting (exitFrame id : Action (World σ δ) Unit) := by
  intro world
  simp only [exitFrame, runs_bind, runs_heapNow, runs_check, runs_modifyHeap]
  split
  next frames done => exact .of_tables rfl rfl fun ordered => ordered.pop done
  next => exact .of_heap rfl

theorem lasting_setFrameSlot (id : FrameId) (kind : SlotKind) (index : Nat) (value : Value)
    : Lasting (setFrameSlot id kind index value : Action (World σ δ) Unit) := by
  intro world
  simp only [setFrameSlot, runs_bind, runs_heapNow, runs_check, runs_modifyHeap]
  split
  next frames done => exact .of_tables rfl rfl fun ordered => ordered.set done
  next => exact .of_heap rfl

/-- Handlers may change at will. -/
theorem lasts_handlers (world : World σ δ) (handlers : ExceptStack)
    : world.Lasts { world with heap := { world.heap with handlers } } :=
  .of_tables rfl rfl fun ordered => ⟨ordered.entered, ordered.numbered, ordered.ranks,
    ordered.groups, ordered.grouped⟩

/-- Leaving frames keeps the others in order. -/
theorem lasts_unwindTo (world : World σ δ) (saved : Option FrameId)
    : world.Lasts
        { world with
          heap := { world.heap with frames := world.heap.frames.unwindTo saved } } :=
  .of_tables rfl rfl fun ordered => ordered.unwindTo saved

theorem lasting_openBlock : Lasting (openBlock : Action (World σ δ) Block) := by
  intro world
  simp only [openBlock, runs_bind, runs_heapNow, runs_modifyHeap, runs_pure]
  exact lasts_handlers _ _

theorem lasting_closeBlock (block : Block) (result : Except Thrown α)
    : Lasting (closeBlock block result : Action (World σ δ) (Except Thrown α)) := by
  intro world
  simp only [closeBlock, runs_bind, runs_heapNow, runs_modifyHeap]
  have closed := lasts_handlers world (world.heap.handlers.popTo block.depth).2
  cases result with
  | ok value =>
      simp only [runs_bind, runs_heapNow, runs_ite, runs_stop, runs_pure]
      split_ifs
      · exact closed.trans (.of_heap rfl)
      · exact closed
  | error thrown =>
      simp only [runs_bind, runs_heapNow, runs_modifyHeap, runs_ite, runs_stop, runs_pure]
      have unwound := closed.trans (lasts_unwindTo _
        ((world.heap.handlers.popTo block.depth).1.getD block.handler).frame)
      split_ifs
      · exact unwound.trans (.of_heap rfl)
      · exact unwound

theorem lasting_throwException (code : Int) (payload : Value)
    : Lasting (throwException code payload : Action (World σ δ) Thrown) := by
  intro world
  simp only [throwException, runs_bind, runs_heapNow, runs_require]
  split
  next handlers _ =>
    simp only [runs_modifyHeap, runs_pure]
    exact lasts_handlers _ _
  next => exact .of_heap rfl

theorem lasting_loadModule (loader : Loader) (name searchPath : String) (wanted : Option Nat)
    : Lasting (loadModule loader name searchPath wanted
        : Action (World σ δ) (Except ModuleError Nat)) := by
  intro world
  simp only [loadModule, runs_bind, runs_heapNow]
  split
  next => exact .of_heap rfl
  next rank claimed =>
    split
    next =>
      simp only [runs_bind, runs_report, runs_pure]
      exact .of_heap rfl
    next modules registered =>
      simp only [runs_bind, runs_report, runs_modifyHeap, runs_pure]
      obtain ⟨path, library, -, rfl⟩ := ModuleTable.eq_of_register registered
      refine .of_tables rfl rfl fun ordered => ordered.ofModules fun other found => ?_
      rw [ModuleTable.get?_touch] at found
      exact ordered.put (ModuleTable.ne_zero_of_claim claimed) _ other found

theorem lasting_unloadModule (rank : Nat)
    : Lasting (unloadModule rank : Action (World σ δ) (Except ModuleError Unit)) := by
  intro world
  simp only [unloadModule, runs_bind, runs_heapNow]
  split
  next => exact .of_heap rfl
  next entry modules unloaded =>
    simp only [runs_bind, runs_report, runs_modifyHeap, runs_pure]
    obtain rfl := ModuleTable.eq_of_unload unloaded
    refine .of_tables rfl rfl fun ordered => ordered.ofModules fun other found => ?_
    refine ordered.ranks other ?_
    simp only [ModuleTable.get?, Std.TreeMap.getElem?_erase] at found ⊢
    split_ifs at found with same
    · cases found
    · exact found

/-- A module that is changed in its place leaves the ranks in use as they were. -/
theorem lasting_updateModules {world : World σ δ} {rank : Nat} {change : Module → Module}
    {touched : ModuleTable → ModuleTable}
    (same : ∀ table other, (touched table).get? other = table.get? other)
    : Runs
        (updateModules ((fun entry => touched (world.heap.modules.put rank (change entry)))
          <$> world.heap.modules.get rank))
        world (fun _ final => world.Lasts final) fun _ final => world.Lasts final := by
  unfold ModuleTable.get
  cases found : world.heap.modules.get? rank with
  | none => exact .of_heap rfl
  | some entry =>
      refine .of_tables rfl rfl fun ordered => ordered.ofModules fun other used => ?_
      rw [same] at used
      exact ordered.put (ordered.ranks rank (by rw [found]; rfl)) _ other used

theorem lasting_setModuleConstant (rank : Nat) (value : Value)
    : Lasting (setModuleConstant rank value : Action (World σ δ) (Except ModuleError Unit)) := by
  intro world
  rw [setModuleConstant, runs_bind, runs_heapNow]
  exact lasting_updateModules fun table other => ModuleTable.get?_touch table rank other

theorem lasting_setModuleExtra (rank extra : Nat)
    : Lasting (setModuleExtra rank extra : Action (World σ δ) (Except ModuleError Unit)) := by
  intro world
  rw [setModuleExtra, runs_bind, runs_heapNow]
  have same : ∀ (table : ModuleTable) (other : Nat), (id table).get? other = table.get? other :=
    fun _ _ => rfl
  exact lasting_updateModules same

theorem lasting_setConstant (index : Nat) (value : Value)
    : Lasting (setConstant index value : Action (World σ δ) Unit) := fun _ =>
  .of_tables rfl rfl fun ordered => ordered.setConstant index value

end Operations

/-- Every operation lasts, whatever its host does. -/
theorem lasting_run (host : Host σ δ) (operation : Operation δ) : Lasting (operation.run host) := by
  have looks : ∀ {β : Type} (look : Heap δ → Except Violation β),
      Lasting ((do World.check (look (← World.heapNow)) : Action (World σ δ) β)) := fun look =>
    .heapNow_bind fun heap => .check (look heap)
  cases operation with
  | allocate size => exact (lasting_allocate size).map _
  | allocateAligned size align => exact (lasting_allocateAligned size align).map _
  | allocateFixed size destructor executable =>
      exact (lasting_allocateFixed size destructor executable).map _
  | forgetFixed object => exact lasting_forgetFixed object
  | requestFull reason => exact lasting_requestFull reason
  | load addr => exact (Lasting.heapNow_bind fun heap => .require _ _).map _
  | store addr word => exact lasting_store addr word
  | notifyStore slot => exact lasting_notifyStore slot
  | storeNotified slot value =>
      exact .bind (lasting_store slot value.raw) fun _ => lasting_notifyStore slot
  | write slot value => exact lasting_write slot value
  | enterFrame descriptor params => exact (lasting_enterFrame descriptor params).map _
  | exitFrame id => exact lasting_exitFrame id
  | frameDescriptor id => exact (looks fun heap => heap.frames.descriptor id).map _
  | frameSlot id kind index => exact (looks fun heap => heap.frames.get id kind index).map _
  | setFrameSlot id kind index value => exact lasting_setFrameSlot id kind index value
  | openBlock => exact lasting_openBlock.map _
  | closeBlock block result => exact (lasting_closeBlock block result).map _
  | throwException code payload => exact (lasting_throwException code payload).map _
  | loadModule loader name searchPath wanted =>
      exact (lasting_loadModule loader name searchPath wanted).map _
  | unloadModule rank => exact (lasting_unloadModule rank).map _
  | setModuleConstant rank value => exact (lasting_setModuleConstant rank value).map _
  | setModuleExtra rank extra => exact (lasting_setModuleExtra rank extra).map _
  | setConstant index value => exact lasting_setConstant index value
  | collect size wantsFull => exact lasting_collectFor host _ wantsFull _
  | collectMinor => exact lasting_collectFor host 0 false _
  | collectFull => exact lasting_collectFor host 0 true _

/-- What an operation leaves lasts from before it, whether or not a violation stopped it. -/
theorem lasts_after (host : Host σ δ) (operation : Operation δ) (world : World σ δ)
    : world.Lasts (world.after (operation.run host)) :=
  after_of_runs (lasting_run host operation world)

-----------------------------------------------------------------------------------------
-- Runs
-----------------------------------------------------------------------------------------

/-- What setting up a heap leaves, if the configuration was accepted. -/
structure Created (config : Config) (world : World σ δ) : Prop where
  steady : world.heap.Steady
  idle : world.heap.phase = .idle
  room : world.heap.regions.birth.capacity ≤ world.heap.regions.old.free
  birth : world.heap.regions.birth.cursor = 0
  unrecorded : world.heap.regions.birth.bufferStart = world.heap.regions.birth.capacity
  old : world.heap.regions.old.cursor = 0
  fixed : world.heap.regions.fixed = {}
  frames : world.heap.frames = {}
  handlers : world.heap.handlers = {}
  modules : world.heap.modules = { limit := config.maxModules }
  constants : world.heap.constants = .withCapacity config.constantCapacity

/-- A heap is set up over fresh memory for its two regions if its configuration has no fault. -/
theorem eq_of_create {mapper : Mapper} {config : Config} {state : σ} {world : World σ δ}
    (created : create mapper config state = .ok world)
    : config.fault? = none
      ∧ ∃ birth old,
          mapper.map? config.birthWords = some birth
          ∧ mapper.map? config.oldWords = some old
          ∧ world
            = { heap :=
                  { config
                    regions :=
                      { birth := .ofArena birth config.safetyMargin
                        old := { space := .oldA, words := old } }
                    modules := { limit := config.maxModules }
                    constants := .withCapacity config.constantCapacity
                    fixedThreshold := config.fixedThresholdWords }
                host := state
                log := [.initialized config.birthSize config.oldSize] } := by
  simp only [create, Heap.create, Config.validate] at created
  cases fault : config.fault? with
  | some fault =>
      rw [fault] at created
      cases created
  | none =>
      rw [fault] at created
      refine ⟨rfl, ?_⟩
      cases birth : mapper.map? config.birthWords with
      | none =>
          rw [birth] at created
          cases created
      | some birthWords =>
          cases old : mapper.map? config.oldWords with
          | none =>
              rw [birth, old] at created
              cases created
          | some oldWords =>
              rw [birth, old] at created
              cases created
              exact ⟨birthWords, oldWords, rfl, rfl, rfl⟩

/-- Setting up a heap leaves it empty and steady. -/
theorem created_of_create {mapper : Mapper} {config : Config} {state : σ} {world : World σ δ}
    (created : create mapper config state = .ok world)
    : world.Created config ∧ world.host = state := by
  obtain ⟨fault, birth, old, mappedBirth, mappedOld, rfl⟩ := eq_of_create created
  simp only [Config.fault?] at fault
  split_ifs at fault with narrow small below large uneven few
  obtain ⟨birthWords, birthSmall⟩ := Mapper.size_of_map? mappedBirth
  obtain ⟨oldWords, oldSmall⟩ := Mapper.size_of_map? mappedOld
  have room : config.birthWords ≤ config.oldWords :=
    Nat.div_le_div_right (by omega)
  have slack : 0 + storeBufferSlack < config.birthWords := by
    simp only [storeBufferSlack, minSafetyMargin] at narrow ⊢
    omega
  obtain ⟨whole, grouped⟩ := ConstantTable.capacity_withCapacity config.constantCapacity
  subst birthWords oldWords
  refine ⟨⟨⟨⟨⟨⟨rfl, fun _ found => absurd found.symm (Option.some_ne_none _)⟩, rfl, rfl, slack.le,
    Nat.le_refl _, birthSmall, ?_, ?_, Nat.zero_le _, oldSmall, FixedSpace.consistent_empty,
    fun _ member => absurd member List.not_mem_nil⟩, .nil,
    fun _ member => absurd member List.not_mem_nil, fun rank used => ?_, whole, grouped⟩, slack⟩,
    rfl, room, rfl, rfl, rfl, rfl, rfl, rfl, rfl, rfl⟩, rfl⟩
  · exact Nat.le_of_not_lt narrow
  · exact Nat.le_of_not_lt small
  · simp [ModuleTable.get?] at used

/-- On a heap on which no collection runs, all that was asked of it has left it steady. -/
theorem Reachable.steady {world : World σ δ} (reachable : world.Reachable)
    (idle : world.heap.phase = .idle)
    : world.heap.Steady := by
  induction reachable with
  | create created => exact (created_of_create created).1.steady
  | @operate world host operation _ ih =>
      have lasts := lasts_after host operation world
      exact lasts.steady idle (ih (lasts.idle idle))
  | change state _ ih => exact ih idle

end World

end MovingHeap
