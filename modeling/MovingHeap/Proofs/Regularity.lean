import MovingHeap.Proofs.CollectionSteps
import MovingHeap.Proofs.FixedLifetime
import MovingHeap.Proofs.Tracing

/-! What holds of a heap whenever no collection runs, whatever the host did before.
Regions keep within their sizes, nothing is marked or left to scan, and the tables of roots are in
order. A collection either leaves the heap like that or is stopped in the middle and stays there.
-/

namespace MovingHeap

variable {σ δ : Type}

/-- Memory is as a collection expects it: none is running, and every region keeps within its size. -/
structure Regions.Resting (regions : Regions δ) : Prop where
  apart : regions.Apart
  target : regions.target = none
  unscanned : regions.unscanned = []
  slack : regions.birth.cursor + storeBufferSlack ≤ regions.birth.bufferStart
  birthInside : regions.birth.bufferStart ≤ regions.birth.capacity
  birthSmall : regions.birth.capacity ≤ maxOffsetWords
  leastMargin : minSafetyMargin ≤ regions.birth.margin
  margin : 2 * regions.birth.margin ≤ regions.birth.capacity
  oldInside : regions.old.cursor ≤ regions.old.capacity
  oldSmall : regions.old.capacity ≤ maxOffsetWords
  consistent : regions.fixed.Consistent
  noneMarked : regions.fixed.NoneMarked

/-- The tables of roots are in order. -/
structure Heap.Ordered (heap : Heap δ) : Prop where
  entered
    : heap.frames.frames.Pairwise fun newer older => older.id.number < newer.id.number
  numbered : ∀ frame ∈ heap.frames.frames, frame.id.number < heap.frames.nextNumber
  ranks : ∀ rank, (heap.modules.get? rank).isSome → rank ≠ 0
  groups : heap.constants.capacity = heap.constants.dirty.size * ConstantTable.groupSize
  grouped : 0 < heap.constants.dirty.size

/-- Memory and tables are as a collection expects them. -/
structure Heap.Regular (heap : Heap δ) : Prop extends heap.regions.Resting, heap.Ordered

/-- Memory and tables are as operations expect them while no collection runs: one more slot can be
recorded.
-/
structure Heap.Steady (heap : Heap δ) : Prop extends heap.Regular where
  spare : heap.regions.birth.cursor + storeBufferSlack < heap.regions.birth.bufferStart

/-- Memory that was granted can be told by addresses. -/
theorem Mapper.size_of_map? {mapper : Mapper} {size : Nat} {words : Arena}
    (mapped : mapper.map? size = some words)
    : words = .zeroed size ∧ size ≤ maxOffsetWords := by
  have small := mapper.bounded mapped
  simp only [addressLimit, wordBytes] at small
  exact ⟨mapper.fresh mapped, by simp only [maxOffsetWords]; omega⟩

/-- The tables of roots are in order in every heap with the same tables. -/
theorem Heap.SameTables.ordered {before now : Heap δ} (same : before.SameTables now)
    (ordered : before.Ordered)
    : now.Ordered := by
  have next : now.frames.nextNumber = before.frames.nextNumber :=
    (congrArg FrameStack.nextNumber same.frames :)
  have ids : now.frames.frames.map (·.id.number) = before.frames.frames.map (·.id.number) := by
    have outlines := congrArg (fun stack => stack.frames.map (·.id.number)) same.frames
    simpa [FrameStack.outline, Frame.outline, Function.comp_def] using outlines
  refine ⟨?_, ?_, fun rank used => ?_, ?_, ?_⟩
  · have numbers : ∀ frames : List Frame,
        (frames.Pairwise fun newer older => older.id.number < newer.id.number)
        ↔ (frames.map (·.id.number)).Pairwise fun newer older => older < newer := by
      intro frames
      rw [List.pairwise_map]
    rw [numbers, ids, ← numbers]
    exact ordered.entered
  · intro frame member
    have listed : frame.id.number ∈ before.frames.frames.map (·.id.number) := by
      rw [← ids]
      exact List.mem_map_of_mem member
    obtain ⟨former, inside, number⟩ := List.mem_map.mp listed
    have bound := ordered.numbered former inside
    omega
  · rw [same.isSome_get?] at used
    exact ordered.ranks rank used
  · rw [same.capacity, same.groups]
    exact ordered.groups
  · rw [same.groups]
    exact ordered.grouped

/-- What every collection does that is not stopped, whatever its host does. -/
structure World.Collects (before after : World σ δ) : Prop where
  steady : after.heap.Steady
  idle : after.heap.phase = .idle
  empty : after.heap.regions.birth.cursor = 0
  unrecorded : after.heap.regions.birth.bufferStart = after.heap.regions.birth.capacity
  capacity : after.heap.regions.birth.capacity = before.heap.regions.birth.capacity
  margin : after.heap.regions.birth.margin = before.heap.regions.birth.margin
  arena : after.heap.regions.fixed.arena.size = before.heap.regions.fixed.arena.size
  config : after.heap.config = before.heap.config
  tables : before.heap.SameTables after.heap
  watermark : after.heap.modules.watermark = 0
  clean : ∀ index, after.heap.constants.isDirty index = false

namespace Collector

/-- Forgetting what changed keeps the tables. -/
theorem sameTables_resetYoung (heap : Heap δ) : heap.SameTables (resetYoung heap) :=
  ⟨rfl, rfl, fun _ => rfl, rfl, rfl, by simp [resetYoung, ConstantTable.clearDirty]⟩

/-- What tracing leaves is regular once the birth region was emptied and nothing counts as changed. -/
theorem collects_of_reset {before after : World σ δ} (traced : World σ δ)
    (regular : before.heap.Regular)
    (tables : before.heap.SameTables traced.heap)
    (config : traced.heap.config = before.heap.config)
    (birth
      : traced.heap.regions.birth.capacity = before.heap.regions.birth.capacity
        ∧ traced.heap.regions.birth.margin = before.heap.regions.birth.margin)
    (arena : traced.heap.regions.fixed.arena.size = before.heap.regions.fixed.arena.size)
    (apart : traced.heap.regions.Apart) (target : traced.heap.regions.target = none)
    (unscanned : traced.heap.regions.unscanned = [])
    (inside : traced.heap.regions.old.cursor ≤ traced.heap.regions.old.capacity)
    (small : traced.heap.regions.old.capacity ≤ maxOffsetWords)
    (consistent : traced.heap.regions.fixed.Consistent)
    (noneMarked : traced.heap.regions.fixed.NoneMarked)
    (same
      : after.heap
        = { resetYoung traced.heap with
            phase := .idle
            pendingFull := after.heap.pendingFull
            fixedThreshold := after.heap.fixedThreshold
            counters := after.heap.counters })
    : before.Collects after := by
  have least := regular.leastMargin
  have margin := regular.margin
  have birthSmall := regular.birthSmall
  obtain ⟨capacity, sameMargin⟩ := birth
  have regions : after.heap.regions
      = { traced.heap.regions with birth := traced.heap.regions.birth.reset } := by
    rw [same]
    rfl
  have reset : before.heap.SameTables after.heap := by
    refine tables.trans ((sameTables_resetYoung traced.heap).trans ?_)
    rw [same]
    exact ⟨rfl, rfl, fun _ => rfl, rfl, rfl, rfl⟩
  have ordered := reset.ordered regular.toOrdered
  have empty : after.heap.regions.birth.cursor = 0 := by
    rw [regions]
    rfl
  have whole : after.heap.regions.birth.capacity = before.heap.regions.birth.capacity := by
    rw [regions]
    exact capacity
  have unrecorded : after.heap.regions.birth.bufferStart = after.heap.regions.birth.capacity := by
    rw [regions]
    rfl
  have keptMargin : after.heap.regions.birth.margin = before.heap.regions.birth.margin := by
    rw [regions]
    exact sameMargin
  have spare : after.heap.regions.birth.cursor + storeBufferSlack
      < after.heap.regions.birth.bufferStart := by
    simp only [minSafetyMargin, storeBufferSlack] at least ⊢
    omega
  refine ⟨⟨⟨⟨?_, ?_, ?_, Nat.le_of_lt spare, ?_, ?_, ?_, ?_, ?_, ?_, ?_, ?_⟩, ordered⟩, spare⟩, ?_,
    empty, unrecorded, whole, keptMargin, ?_, ?_, reset, ?_, ?_⟩
  · rw [regions]
    exact ⟨apart.old, apart.target⟩
  · rw [regions]
    exact target
  · rw [regions]
    exact unscanned
  · omega
  · omega
  · rwa [keptMargin]
  · rwa [keptMargin, whole]
  · rw [regions]
    exact inside
  · rw [regions]
    exact small
  · rw [regions]
    exact consistent
  · rw [regions]
    exact noneMarked
  · rw [same]
  · rw [regions]
    exact arena
  · rw [same]
    exact config
  · rw [same]
    rfl
  · intro index
    rw [same]
    exact ConstantTable.isDirty_clearDirty _ index

/-- A minor collection that is not stopped leaves a regular heap; one that is stopped stays stopped. -/
theorem collects_minor (host : Host σ δ) (reason : Reason) {world : World σ δ}
    (regular : world.heap.Regular)
    : Runs (minor host reason) world (fun _ final => world.Collects final)
        fun _ final => final.heap.phase ≠ .idle := by
  refine runs_minor fun log => ?_
  refine (tends_traceMinor host _ _).mono (fun _ traced comes final _ ends => ?_)
    fun _ traced comes => comes.busy (by simp [minorStart])
  have evolves := comes.regions
  have minor : (minorStart world.heap).regions.isFull = false := by
    simp [minorStart, Regions.isFull, regular.target]
  obtain ⟨slots, unscanned⟩ := evolves.unmarked minor
  have gone : traced.heap.regions.target = none := by
    have isFull := evolves.isFull.trans minor
    simpa [Regions.isFull] using isFull
  have destination : traced.heap.regions.destination = traced.heap.regions.old := by
    simp [Regions.destination, gone]
  have former : (minorStart world.heap).regions.destination = world.heap.regions.old := by
    simp [minorStart, Regions.destination, regular.target]
  have inside := evolves.inside
  simp only [former, destination] at inside
  have small := regular.oldSmall
  have size : traced.heap.regions.old.capacity = world.heap.regions.old.capacity :=
    evolves.oldSize
  refine collects_of_reset traced regular ?_ ?_ ⟨evolves.birthSize, evolves.margin⟩ evolves.fixedSize
    (evolves.apart ⟨regular.apart.old, regular.apart.target⟩) gone ?_ (inside regular.oldInside)
    (by omega) (evolves.consistent regular.consistent) ?_ ?_
  · exact ⟨comes.tables.frames, comes.tables.handlers, comes.tables.modules, comes.tables.limit,
      comes.tables.capacity, comes.tables.groups⟩
  · rw [comes.rest]
    rfl
  · rw [unscanned]
    exact regular.unscanned
  · intro slot member
    rw [slots] at member
    exact regular.noneMarked slot member
  · rw [ends]

/-- A minor collection is counted. -/
theorem numbered_minor (host : Host σ δ) (reason : Reason) (world : World σ δ)
    : Runs (minor host reason) world
        (fun _ final => final.heap.collections = world.heap.collections + 1) fun _ _ => True := by
  refine runs_minor fun log => ?_
  refine (tends_traceMinor host _ _).mono (fun _ traced comes final _ ends => ?_) fun _ _ _ => trivial
  rw [ends]
  exact congrArg Heap.collections comes.rest

/-- A full collection is counted. -/
theorem numbered_full (host : Host σ δ) (reason : Reason) (world : World σ δ)
    : Runs (full host reason) world
        (fun _ final => final.heap.collections = world.heap.collections + 1) fun _ _ => True := by
  refine runs_full (fun words _ log => ?_) fun _ _ _ => trivial
  have isFull : (fullStart world.heap words).regions.isFull := rfl
  refine (comes_traceFull host _ _ isFull).mono (fun _ traced comes => ?_) fun _ _ _ => trivial
  split
  · intro final _ ends
    rw [ends]
    exact congrArg Heap.collections comes.rest
  · exact fun _ _ => trivial

/-- The steps of a full collection cover all words of the target and all fixed objects. -/
theorem steps_traceFull {world begun middle : World σ δ} (regular : world.heap.Regular)
    {mapper : Mapper} {words : Arena} (mapped : mapper.map? (targetWords world.heap) = some words)
    (same : begun.heap = fullStart world.heap words) (comes : begun.Comes middle)
    : middle.heap.regions.destination.words.size ≤ maxOffsetWords
      ∧ middle.heap.regions.destination.words.size + middle.heap.regions.pendingWork
        ≤ (fullTarget world.heap words).capacity + world.heap.regions.fixed.slots.length := by
  obtain ⟨zeroed, small⟩ := Mapper.size_of_map? mapped
  have evolves := comes.regions
  rw [same] at evolves
  have capacity : middle.heap.regions.destination.words.size = words.size :=
    evolves.destinationSize
  have size : words.size = targetWords world.heap := by
    rw [zeroed]
    rfl
  have work : middle.heap.regions.pendingWork
      ≤ world.heap.regions.unscanned.length + world.heap.regions.fixed.unmarkedCount :=
    evolves.work
  have fewer : world.heap.regions.fixed.unmarkedCount
      ≤ world.heap.regions.fixed.slots.length := List.countP_le_length
  have behind : (fullTarget world.heap words).capacity = words.size := rfl
  rw [regular.unscanned, List.length_nil] at work
  omega

/-- A full collection leaves nothing to scan, as the number of its steps covers all there is. -/
theorem unscanned_traceFull (host : Host σ δ) {world : World σ δ} (regular : world.heap.Regular)
    {words : Arena} (mapped : host.mapper.map? (targetWords world.heap) = some words) (state : σ)
    (log : List Event)
    : Runs (traceFull host (fullTarget world.heap words) world.heap.regions.fixed.slots.length)
        { heap := fullStart world.heap words, host := state, log }
        (fun _ final => final.heap.regions.unscanned = []) fun _ _ => True := by
  simp only [traceFull, runs_bind, World.runs_enterPhase]
  refine (tends_visitFullRoots host _).mono (fun _ middle comes => ?_) fun _ _ _ => trivial
  rw [World.runs_onSite]
  have evolves := comes.regions
  obtain ⟨small, enough⟩ := steps_traceFull regular mapped rfl comes
  have steps : middle.heap.regions.destination.capacity - 0 + middle.heap.regions.pendingWork
      ≤ (fullTarget world.heap words).capacity + world.heap.regions.fixed.slots.length := enough
  exact unscanned_scanSurvivors host _ _ _ _ (evolves.isFull.trans rfl)
    (evolves.inside (Nat.zero_le _)) small steps

/-- A full collection that is not stopped leaves a regular heap; one that is stopped stays stopped. -/
theorem collects_full (host : Host σ δ) (reason : Reason) {world : World σ δ}
    (regular : world.heap.Regular)
    : Runs (full host reason) world (fun _ final => world.Collects final)
        fun _ final => final.heap.phase ≠ .idle := by
  refine runs_full (fun words mapped log => ?_) fun _ _ phase => by simp [phase]
  obtain ⟨zeroed, small⟩ := Mapper.size_of_map? mapped
  have isFull : (fullStart world.heap words).regions.isFull := rfl
  refine Runs.mono ((comes_traceFull host _ _ isFull).and
    (unscanned_traceFull host regular mapped _ log)) (fun _ traced reached => ?_)
    fun _ traced stopped => stopped.1.busy (by simp [fullStart])
  obtain ⟨comes, unscanned⟩ := reached
  have evolves := comes.regions
  have consistent := evolves.consistent regular.consistent
  obtain ⟨swept, sweep, sweeps, -⟩ := consistent.sweep host.destroy traced.host
  rw [sweep]
  intro final _ ends
  have apart := evolves.apart ⟨regular.apart.old, fun target found => by
    simp only [fullStart, Option.some.injEq] at found
    rw [← found]
    rfl⟩
  have old := apart.isOld_destination
  have capacity : traced.heap.regions.destination.capacity = words.size :=
    evolves.destinationSize
  have size : words.size = targetWords world.heap := by
    rw [zeroed]
    rfl
  refine collects_of_reset
    { traced with
      heap := { traced.heap with
        regions := adoptTarget { traced.heap.regions with fixed := swept.space } } }
    regular ?_ ?_ ⟨evolves.birthSize, evolves.margin⟩ ?_ ⟨old, nofun⟩ rfl unscanned
    (evolves.inside (Nat.zero_le _)) ?_ ?_ ?_ ?_
  · exact ⟨comes.tables.frames, comes.tables.handlers, comes.tables.modules, comes.tables.limit,
      comes.tables.capacity, comes.tables.groups⟩
  · have config := congrArg Heap.config comes.rest
    exact config
  · exact sweeps.size.trans evolves.fixedSize
  · exact (Nat.le_of_eq (capacity.trans size)).trans small
  · exact ⟨sweeps.consistent.stacked, sweeps.consistent.fits, sweeps.consistent.vacantNodup,
      sweeps.consistent.mem_vacant⟩
  · exact sweeps.noneMarked
  · rw [ends]
    rfl

end Collector

end MovingHeap
