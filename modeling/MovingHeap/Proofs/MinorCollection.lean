import MovingHeap.Proofs.CollectionOutcome
import MovingHeap.Proofs.Soundness

/-! The minor collection of a sound heap.
A birth reference that is held outside of the birth region is noted, so tracing from the roots and the
noted cells meets every birth object that can be reached, and afterwards no slot outside holds one.
-/

namespace MovingHeap

variable {σ δ : Type}

namespace Pass

/-- A minor collection: it starts from the roots and the noted cells. -/
def ofMinor (contract : Contract σ) (world : World σ δ) : Pass σ δ where
  contract
  before := world.heap.regions
  start := world.Starts contract []
  handles := world.heap.regions.Noted

section Minor

variable {contract : Contract σ} {world : World σ δ}

/-- What is noted is a slot. -/
theorem slot_of_noted (wellFormed : world.WellFormed contract []) {space : Space} {offset : Nat}
    (noted : world.heap.regions.Noted space offset)
    : world.heap.regions.Slot contract.layout space offset := by
  cases noted with
  | @recorded recorded valid member =>
      obtain ⟨slot, same, -, isSlot⟩ := wellFormed.recorded _ member
      obtain rfl : slot = recorded := congrArg Address.mk same
      exact isSlot
  | fresh recent found inside => exact .fixed found inside

/-- What a minor collection meets is met by following all references. -/
theorem met_ofMinor {value : Value} (traced : (ofMinor contract world).Traced value)
    : world.Met contract [] value :=
  traced.whole

variable (sound : world.Sound contract)

include sound

theorem full_ofMinor : (ofMinor contract world).full = false := by
  simp [full, ofMinor, Regions.isFull, sound.regular.target]

theorem destination_ofMinor
    : (ofMinor contract world).before.destination = world.heap.regions.old := by
  simp [ofMinor, Regions.destination, sound.regular.target]

theorem moves_ofMinor {space : Space}
    : (ofMinor contract world).moves space ↔ space = .birth := by
  rw [moves_iff, full_ofMinor sound]
  simp

/-- A minor collection of a sound heap can trace. -/
theorem ready_ofMinor (addressable : world.Addressable) : (ofMinor contract world).Ready where
  apart := sound.regular.apart
  birthInside := by
    have slack := sound.regular.slack
    have inside := sound.regular.birthInside
    have below : world.heap.regions.birth.cursor ≤ world.heap.regions.birth.capacity := by omega
    exact below
  oldInside := sound.regular.oldInside
  birthSmall := sound.regular.birthSmall
  oldSmall := sound.regular.oldSmall
  destinationSmall := by
    rw [destination_ofMinor sound]
    exact sound.regular.oldSmall
  fixedSmall := addressable
  consistent := sound.regular.consistent
  noneMarked := sound.regular.noneMarked
  unscanned := sound.regular.unscanned
  room := by
    have slack := sound.regular.slack
    have inside := sound.regular.birthInside
    have room := sound.room
    have oldInside := sound.regular.oldInside
    rw [base, destination_ofMinor sound, full_ofMinor sound]
    simp only [Semispace.free, Semispace.capacity] at room oldInside
    simp only [ofMinor, Bool.false_eq_true, if_false]
    omega
  object addr valid traced moves := by
    have birth := (moves_ofMinor sound).mp moves
    have notFixed : addr.space ≠ .fixed := by simp [birth]
    exact (sound.wellFormed.coherent.object addr valid (met_ofMinor traced) notFixed).2
  separate first second valid valid' traced traced' same moves := by
    have birth := (moves_ofMinor sound).mp moves
    have notFixed : first.space ≠ .fixed := by simp [birth]
    exact sound.wellFormed.coherent.apart first second valid valid' (met_ofMinor traced)
      (met_ofMinor traced') same notFixed
  known isFull := by
    rw [full_ofMinor sound] at isFull
    cases isFull
  handled space offset noted := by
    refine ⟨.start (.noted noted), ?_⟩
    rcases (slot_of_noted sound.wellFormed noted).inside sound.regular.consistent with
      fixed | ⟨same, below⟩
    · exact Or.inl fixed
    · refine Or.inr ⟨full_ofMinor sound, same, ?_⟩
      rwa [base, destination_ofMinor sound]

/-- The recorded slots are not overwritten while a minor collection traces. -/
theorem remembered_ofMinor {trail : Trail} {now : Regions δ}
    (progress : (ofMinor contract world).Progress trail now)
    : now.birth.remembered = world.heap.regions.birth.remembered := by
  have evolves : world.heap.regions.Evolves now := progress.evolves
  have start := evolves.bufferStart
  have size : now.birth.capacity = world.heap.regions.birth.capacity := evolves.birthSize
  simp only [BirthRegion.remembered, BirthRegion.rememberedCount, start, size]
  refine Arena.words_congr fun index above _ => ?_
  have slack := sound.regular.slack
  exact progress.unused index (show world.heap.regions.birth.cursor ≤ index by omega)

/-- The recorded slots are looked at by a minor collection, wherever it has come to. -/
theorem remembered_handled {trail : Trail} {now : Regions δ}
    (progress : (ofMinor contract world).Progress trail now)
    : ∀ raw ∈ now.birth.remembered, ∃ slot : Address,
        slot.raw = raw ∧ slot.Decodes ∧ (ofMinor contract world).handles slot.space slot.offset := by
  intro raw member
  rw [remembered_ofMinor sound progress] at member
  obtain ⟨slot, rfl, valid, -⟩ := sound.wellFormed.recorded raw member
  exact ⟨slot, rfl, valid, .recorded valid member⟩

omit sound in
/-- The fresh fixed objects are looked at by a minor collection as long as they count as fresh. -/
theorem fresh_handled {now : Regions δ}
    (recent : now.fixed.recent = world.heap.regions.fixed.recent)
    : ∀ start ∈ now.fixed.freshObjects, (ofMinor contract world).HandlesObject start := by
  intro start member occupant found index inside
  rw [FixedSpace.freshObjects, List.mem_reverse, recent] at member
  exact .fresh member found inside

/-- In a minor collection a value that does not lead into the birth region stays what it is. -/
theorem still_of_not_birth {trail : Trail} {value : Value} (rests : value.isBirth = false)
    : (ofMinor contract world).Still trail value := by
  intro addr found
  refine ⟨?_, fun isFull => ?_⟩
  · rw [Bool.eq_false_iff]
    intro moves
    simp [Value.isBirth, found, (moves_ofMinor sound).mp moves] at rests
  · rw [full_ofMinor sound] at isFull
    cases isFull

/-- A slot outside of the birth region that is not noted holds nothing that needs forwarding. -/
theorem still_of_unnoted {trail : Trail} {space : Space} {offset : Nat}
    (slot : world.heap.regions.Slot contract.layout space offset)
    (unnoted : ¬ world.heap.regions.Noted space offset)
    : (ofMinor contract world).Still trail ⟨world.heap.regions.cell space offset⟩ := by
  refine still_of_not_birth sound ?_
  rw [Bool.eq_false_iff]
  exact fun young => unnoted (sound.generational.slots space offset slot young)

/-- In a minor collection the slots outside of the birth region stay where they are. -/
theorem stays_of_slot {space : Space} {offset : Nat}
    (slot : world.heap.regions.Slot contract.layout space offset)
    : (ofMinor contract world).Stays space offset := by
  rcases slot.inside sound.regular.consistent with fixed | ⟨rfl, below⟩
  · exact Or.inl fixed
  · refine Or.inr ⟨full_ofMinor sound, rfl, ?_⟩
    rwa [base, destination_ofMinor sound]

/-- A slot of an old object that was met is one outside of the birth region. -/
theorem slot_of_old {object : Address} (valid : object.Decodes)
    (met : world.Met contract [] object.toValue)
    (old : object.space = world.heap.regions.old.space) {index : Nat}
    (slot : contract.layout.IsSlot (world.heap.regions.field object) index)
    : world.heap.regions.Slot contract.layout object.space (object.offset + index) := by
  obtain ⟨starts, tiles, listed⟩ := sound.wellFormed.tiled
  have field : world.heap.regions.field object
      = world.heap.regions.wordsAt world.heap.regions.old.space object.offset := by
    rw [← old]
    rfl
  rw [field] at slot
  rw [old]
  exact .old tiles (listed object valid met old) slot

/-- The world as a minor collection starts to trace. -/
theorem standing_ofMinor (addressable : world.Addressable) (log : List Event)
    : (ofMinor contract world).Standing world.heap (contract.roots world.host) {}
        { heap := Collector.minorStart world.heap, host := world.host, log } where
  moment := by
    refine ⟨?_, sound.wellFormed.upholds, rfl⟩
    have ready := ready_ofMinor sound addressable
    exact ready.progress.alike (Regions.Evolves.count _ 0)
      (fun space offset => by cases space <;> rfl) rfl rfl fun _ => id
  carried root := Or.inl (by cases root <;> rfl)

-----------------------------------------------------------------------------------------
-- Visiting the roots
-----------------------------------------------------------------------------------------

/-- A root of a kind that holds something is visited, or does not lead into the birth region. -/
theorem covers_ofMinor {begun now : World σ δ}
    (watermark : begun.heap.modules.watermark = world.heap.modules.watermark)
    (dirty : begun.heap.constants.dirty = world.heap.constants.dirty) (comes : begun.Comes now)
    (root : Root) {kind : RootKind} (same : root.kind = kind)
    (present : now.heap.rootValue root ≠ .null)
    : root ∈ now.heap.youngRootsOf kind
      ∨ ∀ later, (ofMinor contract world).Still later (world.heap.rootValue root) := by
  subst same
  cases young : (world.heap.rootValue root).isBirth with
  | false => exact Or.inr fun later => still_of_not_birth sound young
  | true =>
      refine Or.inl ?_
      cases root with
      | slot frame position => exact Heap.slot_mem_frameRoots present
      | pending handler => exact Heap.pending_mem_pendingRoots present
      | module rank =>
          obtain ⟨marked, above⟩ := sound.generational.modules rank young
          rw [← watermark, ← comes.watermark] at marked above
          exact Heap.module_mem_changedModuleRoots present marked above
      | constant index =>
          have noted := sound.generational.constants index young
          rw [ConstantTable.isDirty, ← dirty, ← comes.dirty] at noted
          exact Heap.constant_mem_dirtyConstantRoots noted

section Visits

variable {begun now : World σ δ} {kept : List Value} {fresh : List Nat} {kinds : List RootKind}
  {cells : Space → Nat → Prop} {trail : Trail} {host : Host σ δ}

/-- Visiting the recorded slots. -/
theorem visitRemembered_gathers (ready : (ofMinor contract world).Ready)
    (faithful : host.Traces contract)
    (gathers
      : (ofMinor contract world).Gathers world.heap begun kept fresh kinds cells trail now)
    : Ends (World.onSite (Collector.visitRemembered host now.heap.regions.birth.remembered)) now
        fun _ final =>
          ∃ later,
            (ofMinor contract world).Gathers world.heap begun kept fresh kinds
              (fun space offset =>
                cells space offset
                ∨ ∃ slot : Address,
                    slot.raw ∈ world.heap.regions.birth.remembered
                    ∧ slot.Decodes
                    ∧ slot.space = space
                    ∧ slot.offset = offset)
              later final := by
  have standing := gathers.standing
  have same : now.heap.regions.birth.remembered = world.heap.regions.birth.remembered :=
    remembered_ofMinor sound standing.moment.progress
  have handles := remembered_handled sound standing.moment.progress
  have visits := visitRemembered_forwards ready faithful now.heap.regions.birth.remembered handles
    standing.moment
  refine (standing.onSite (Collector.tends_visitRemembered host _) visits).mono ?_
  intro _ final reached
  obtain ⟨later, proceeds, -, forwarded⟩ := reached
  have before := gathers.passes proceeds.toPasses proceeds.visits (proceeds.recent.trans gathers.recent)
  refine ⟨later, { before with cells := fun space offset inside => ?_ }⟩
  rcases inside with earlier | ⟨slot, member, valid, rfl, rfl⟩
  · exact before.cells space offset earlier
  · exact ⟨.recorded valid member, forwarded slot (by rwa [same])⟩

/-- Visiting the fresh fixed objects, which then count as fresh no longer. -/
theorem scanFresh_gathers (ready : (ofMinor contract world).Ready)
    (faithful : host.Traces contract) (phase : Phase)
    (gathers
      : (ofMinor contract world).Gathers world.heap begun kept
          world.heap.regions.fixed.recent kinds cells trail now)
    : Ends
        (World.onSite (Collector.scanFixedList host phase host.scanFixedMinor
          now.heap.regions.fixed.freshObjects))
        { now with
          heap := { now.heap with
            regions := { now.heap.regions with fixed := now.heap.regions.fixed.clearFresh } } }
        fun _ final =>
          ∃ later,
            (ofMinor contract world).Gathers world.heap begun kept [] kinds
              (fun space offset =>
                cells space offset
                ∨ ∃ start index occupant,
                    start ∈ world.heap.regions.fixed.recent
                    ∧ world.heap.regions.fixed.occupant? start = some occupant
                    ∧ index < occupant.words
                    ∧ space = .fixed
                    ∧ offset = start + index)
              later final := by
  have cleared := gathers.standing.moment.clearFresh
  have passes : (ofMinor contract world).Passes world.heap kept trail now trail
      { now with
        heap := { now.heap with
          regions := { now.heap.regions with fixed := now.heap.regions.fixed.clearFresh } } } :=
    ⟨cleared.toOnward, Collector.comes_clearFresh now,
      fun root => by cases root <;> exact gathers.standing.carried _,
      fun root => by cases root <;> exact id⟩
  have forgotten := gathers.passes passes cleared rfl
  have standing := forgotten.standing
  have scans := scanFixedList_filled ready (full_ofMinor sound) faithful phase _
    (fresh_handled gathers.recent) standing.moment
  refine (standing.onSite (Collector.tends_scanFixedList host phase _ _) scans).mono ?_
  intro _ final reached
  obtain ⟨later, proceeds, -, filled⟩ := reached
  have before := forgotten.passes proceeds.toPasses proceeds.visits proceeds.recent
  refine ⟨later, { before with cells := fun space offset inside => ?_ }⟩
  rcases inside with earlier | ⟨start, index, occupant, member, found, within, rfl, rfl⟩
  · exact before.cells space offset earlier
  · have listed : start ∈ now.heap.regions.fixed.freshObjects := by
      rwa [FixedSpace.freshObjects, List.mem_reverse, gathers.recent]
    exact ⟨.fresh member found within, filled start listed occupant found index within⟩

end Visits

-----------------------------------------------------------------------------------------
-- Tracing
-----------------------------------------------------------------------------------------

/-- Where a minor collection starts to trace, nothing was visited. -/
theorem gathers_ofMinor (addressable : world.Addressable) {begun : World σ δ}
    (same : begun = { heap := Collector.minorStart world.heap, host := world.host, log := begun.log })
    : (ofMinor contract world).Gathers world.heap begun (contract.roots world.host)
        world.heap.regions.fixed.recent [] (fun _ _ => False) {} begun := by
  refine ⟨?_, (World.Advances.refl begun).toComes, ?_, nofun, nofun, nofun⟩
  · rw [same]
    exact standing_ofMinor sound addressable begun.log
  · rw [same]
    rfl

/-- Visiting all that a minor collection starts from leaves the roots and the noted cells forwarded, and
no object fresh.
-/
theorem visitMinorRoots_visited (addressable : world.Addressable) {host : Host σ δ}
    (faithful : host.Traces contract) {begun : World σ δ}
    (same : begun = { heap := Collector.minorStart world.heap, host := world.host, log := begun.log })
    : Ends (Collector.visitMinorRoots host) begun fun _ final =>
        ∃ later,
          (ofMinor contract world).Visited world.heap (contract.roots world.host) later final
          ∧ begun.Comes final
          ∧ final.heap.regions.fixed.recent = []
          ∧ ∀ space offset,
              world.heap.regions.Noted space offset →
              (ofMinor contract world).Forwarded later ⟨world.heap.regions.cell space offset⟩
                (final.heap.regions.cell space offset) := by
  have ready := ready_ofMinor sound addressable
  have traced : ∀ root, (ofMinor contract world).Traced (world.heap.rootValue root) :=
    fun root => .start (.rooted (.root root))
  have watermark : begun.heap.modules.watermark = world.heap.modules.watermark := by rw [same]; rfl
  have dirty : begun.heap.constants.dirty = world.heap.constants.dirty := by rw [same]; rfl
  have started := gathers_ofMinor sound addressable same
  simp only [Collector.visitMinorRoots, Collector.visit, runs_bind, World.runs_heapNow,
    World.runs_modifyRegions]
  refine (started.visitKind ready faithful .slot traced fun root =>
    covers_ofMinor sound watermark dirty started.comes root).mono ?_
  intro _ _ reached
  obtain ⟨_, slots⟩ := reached
  refine (slots.visitKind ready faithful .pending traced fun root =>
    covers_ofMinor sound watermark dirty slots.comes root).mono ?_
  intro _ _ reached
  obtain ⟨_, pending⟩ := reached
  refine (visitRemembered_gathers sound ready faithful pending).mono ?_
  intro _ _ reached
  obtain ⟨_, recorded⟩ := reached
  refine (recorded.visitKind ready faithful .module traced fun root =>
    covers_ofMinor sound watermark dirty recorded.comes root).mono ?_
  intro _ _ reached
  obtain ⟨_, modules⟩ := reached
  refine (modules.visitKind ready faithful .constant traced fun root =>
    covers_ofMinor sound watermark dirty modules.comes root).mono ?_
  intro _ _ reached
  obtain ⟨_, constants⟩ := reached
  refine (scanFresh_gathers sound ready faithful _ constants).mono ?_
  intro _ _ reached
  obtain ⟨_, fresh⟩ := reached
  have forwards := faithful.extraMinorRoots (contract.roots world.host)
  rw [← full_ofMinor sound] at forwards
  refine (fresh.visitHost ready faithful _ forwards fun root member =>
    .start (.rooted (.kept member))).mono ?_
  intro _ final reached
  obtain ⟨later, all, became⟩ := reached
  refine ⟨later, all.visited (fun kind => by cases kind <;> simp) became, all.comes, all.recent, ?_⟩
  intro space offset noted
  cases noted with
  | recorded valid member => exact (all.cells _ _ (.inl (.inr ⟨_, member, valid, rfl, rfl⟩))).2
  | fresh member found inside =>
      exact (all.cells _ _ (.inr ⟨_, _, _, member, found, inside, rfl, rfl⟩)).2

/-- Tracing in a minor collection comes to its end. -/
theorem traceMinor_done (addressable : world.Addressable) {host : Host σ δ}
    (faithful : host.Traces contract) (log : List Event)
    : Ends (Collector.traceMinor host world.heap.regions.old)
        { heap := Collector.minorStart world.heap, host := world.host, log } fun _ traced =>
        ∃ trail,
          (ofMinor contract world).Done world.heap (contract.roots world.host) trail traced
          ∧ World.Comes { heap := Collector.minorStart world.heap, host := world.host, log } traced
          ∧ traced.heap.regions.fixed.recent = [] := by
  have ready := ready_ofMinor sound addressable
  simp only [Collector.traceMinor, runs_bind, World.runs_enterPhase]
  refine (visitMinorRoots_visited sound addressable faithful rfl).mono ?_
  intro _ middle reached
  obtain ⟨trail, visited, comes, recent, noted⟩ := reached
  have entered := visited.standing.enterPhase (show Phase.relocating ≠ .idle by decide)
    (.phaseChanged middle.heap.phase .relocating :: middle.log)
  have standing := entered.standing
  have size := standing.moment.progress.evolves.destinationSize
  have destination := destination_ofMinor sound
  have space : (ofMinor contract world).space = world.heap.regions.old.space := by
    rw [Pass.space, destination]
  have base : (ofMinor contract world).base = world.heap.regions.old.cursor := by
    rw [Pass.base, destination]
  have scans := scanPromoted_scanned ready (full_ofMinor sound) faithful .relocating
    world.heap.regions.old.free standing.moment (.initial trail _) ?_
  · rw [space, base] at scans
    refine (standing.onSite_onward (Collector.tends_scanPromoted host _ _ _ _ _) scans).mono ?_
    intro _ final reached
    obtain ⟨later, passes, fresh, scanned⟩ := reached
    have through := entered.trans passes
    refine ⟨later, ⟨visited.onward through, fun space offset handled => ?_, scanned⟩,
      comes.trans through.comes, fresh.trans recent⟩
    exact through.onward.forwarded _ _ _ (.stayed handled) (noted space offset handled)
  · rw [size, destination, base, Semispace.free, Semispace.capacity]
    omega

-----------------------------------------------------------------------------------------
-- What was met and what stays
-----------------------------------------------------------------------------------------

section Done

variable {roots : List Value} {trail : Trail} {traced : World σ δ}
  (done : (ofMinor contract world).Done world.heap roots trail traced)

include done

/-- A slot outside of the birth region holds what its value became. -/
theorem Done.slot_ofMinor {space : Space} {offset : Nat}
    (slot : world.heap.regions.Slot contract.layout space offset)
    : (ofMinor contract world).Settled trail ⟨world.heap.regions.cell space offset⟩
      ∧ traced.heap.regions.cell space offset
        = ((ofMinor contract world).relocated trail ⟨world.heap.regions.cell space offset⟩).raw := by
  by_cases noted : world.heap.regions.Noted space offset
  · exact done.handled space offset noted
  · have still : (ofMinor contract world).Still trail ⟨world.heap.regions.cell space offset⟩ :=
      still_of_unnoted sound slot noted
    obtain ⟨settled, same⟩ := still.settled
    refine ⟨settled, ?_⟩
    rw [same]
    exact done.standing.moment.progress.stays space offset (stays_of_slot sound slot) noted

/-- All that can be met is settled, by induction over the path. -/
theorem Done.settled_ofMinor (same : roots = contract.roots world.host) {value : Value}
    (met : world.Met contract [] value)
    : (ofMinor contract world).Settled trail value := by
  have coherent := sound.wellFormed.coherent
  induction met with
  | start root =>
      cases root with
      | rooted rooted =>
          cases rooted with
          | root root => exact (done.forwarded root).1
          | kept member =>
              rw [← same] at member
              exact done.roots_eq.2 _ member
      | noted noted => exact (done.handled _ _ noted).1
      | extra member => cases member
  | @field addr index valid met moves slot ih =>
      by_cases birth : addr.space = .birth
      · have moved := (ih addr (Value.address?_toValue valid)).1 ((moves_ofMinor sound).mpr birth)
        exact (done.scanned addr moved index slot).1
      · have old : addr.space = world.heap.regions.old.space := by
          simpa [Regions.moves, birth] using moves
        exact (done.slot_ofMinor sound (slot_of_old sound valid met old slot)).1
  | payload valid _ _ fixed covers found known inside ih =>
      exact (done.slot_ofMinor sound (.fixed found inside)).1

-----------------------------------------------------------------------------------------
-- What a minor collection leaves
-----------------------------------------------------------------------------------------

section After

variable {final : World σ δ} (kept : final.host = traced.host)
  (heap
    : final.heap
      = { Collector.resetYoung traced.heap with phase := .idle, counters := final.heap.counters })

omit sound done in
include heap in
theorem cell_afterMinor (space : Space) (offset : Nat)
    : final.heap.regions.cell space offset = traced.heap.regions.cell space offset := by
  rw [heap]
  cases space <;> rfl

include heap in
/-- A minor collection leaves the slots of the fixed space as they are. -/
theorem Done.slots_ofMinor
    : final.heap.regions.fixed.slots = world.heap.regions.fixed.slots := by
  have minor : (ofMinor contract world).before.isFull = false := full_ofMinor sound
  rw [heap]
  exact (done.standing.moment.progress.evolves.unmarked minor).1

include kept heap in
/-- What was traced is what a minor collection leaves. -/
theorem Done.leaves_ofMinor : (ofMinor contract world).Leaves traced final where
  upholds := by
    rw [kept]
    exact done.standing.moment.upholds
  kept := by rw [kept]
  roots root := by
    rw [heap]
    cases root <;> rfl
  tables := by
    refine (Collector.sameTables_resetYoung traced.heap).trans ?_
    rw [heap]
    exact ⟨rfl, rfl, fun _ => rfl, rfl, rfl, rfl⟩
  space := by
    have old : traced.heap.regions.old.space = world.heap.regions.old.space :=
      done.standing.moment.progress.evolves.oldSpace
    rw [heap, Pass.space, destination_ofMinor sound]
    exact old
  cursor := by
    have destination : traced.heap.regions.destination = traced.heap.regions.old :=
      done.standing.moment.destination_of_minor (full_ofMinor sound)
    rw [heap, destination]
    rfl
  cells := cell_afterMinor heap (ofMinor contract world).space
  birth := cell_afterMinor heap .birth

include heap

/-- An old object is where it was, and its slots hold what their values became. -/
theorem Done.words_ofMinor {starts : List Nat}
    (tiles
      : world.heap.regions.Tiles contract.layout starts 0 world.heap.regions.old.cursor)
    {start : Nat} (member : start ∈ starts)
    : ∀ index < contract.layout.size (world.heap.regions.wordsAt world.heap.regions.old.space start),
        (contract.layout.IsSlot (world.heap.regions.wordsAt world.heap.regions.old.space start) index →
          final.heap.regions.wordsAt world.heap.regions.old.space start index
          = ((ofMinor contract world).relocated trail
              ⟨world.heap.regions.wordsAt world.heap.regions.old.space start index⟩).raw)
        ∧ (¬ contract.layout.IsSlot (world.heap.regions.wordsAt world.heap.regions.old.space start)
              index →
            final.heap.regions.wordsAt world.heap.regions.old.space start index
            = world.heap.regions.wordsAt world.heap.regions.old.space start index) := by
  intro index inside
  obtain ⟨isObject, -, below⟩ := tiles.of_mem member
  simp only [Regions.wordsAt, cell_afterMinor heap]
  refine ⟨fun slot => (done.slot_ofMinor sound (.old tiles member slot)).2, fun plain => ?_⟩
  have noSlot := tiles.not_slot sound.regular.apart.old member inside plain
  refine done.standing.moment.progress.stays _ _ (Or.inr ⟨full_ofMinor sound, rfl, ?_⟩) ?_
  · rw [base, destination_ofMinor sound]
    omega
  · exact fun noted => noSlot (slot_of_noted sound.wellFormed noted)

include kept

/-- The objects that were met have been relocated by a minor collection. -/
theorem Done.relocates_ofMinor (addressable : world.Addressable)
    (same : roots = contract.roots world.host) (tables : world.heap.SameTables traced.heap)
    : World.Relocates contract (world.Met contract []) ((ofMinor contract world).relocated trail)
        world final := by
  have ready := ready_ofMinor sound addressable
  have coherent := sound.wellFormed.coherent
  have leaves := done.leaves_ofMinor sound kept heap
  have moment := done.standing.moment
  have visited := done.toVisited
  rw [same] at visited
  have still : ∀ {addr : Address}, addr.Decodes → (ofMinor contract world).moves addr.space = false →
      (ofMinor contract world).relocated trail addr.toValue = addr.toValue := by
    intro addr valid rests
    have later : addr.space ≠ .birth := fun birth => by
      rw [(moves_ofMinor sound).mpr birth] at rests
      cases rests
    have still : (ofMinor contract world).Still trail addr.toValue :=
      still_of_not_birth sound
        (by simpa [Value.isBirth, Value.address?_toValue valid] using later)
    exact still.settled.2
  refine visited.relocates ready ⟨rfl, rfl, rfl⟩ coherent
    (fun _ => done.settled_ofMinor sound same) done.scanned tables leaves ?_ ?_
  · intro object valid met notFixed rests
    obtain ⟨moves, isObject, inside⟩ := coherent.object object valid met notFixed
    have later : object.space ≠ .birth := fun birth => by
      rw [(moves_ofMinor sound).mpr birth] at rests
      cases rests
    have old : object.space = world.heap.regions.old.space := by
      simpa [Regions.moves, later] using moves
    obtain ⟨starts, tiles, heads⟩ := sound.wellFormed.tiled
    have words := done.words_ofMinor sound heap tiles (heads object valid met old)
    rw [← old] at words
    have cursor := moment.progress.cursor
    refine ⟨valid, still valid rests, ?_, ?_, fun index slot => ?_, fun index within => ?_⟩
    · rw [leaves.space, old, Pass.space, destination_ofMinor sound]
    · rw [base, destination_ofMinor sound] at cursor
      rw [Regions.limit, if_neg later] at inside
      rw [leaves.cursor]
      exact Nat.le_trans inside (Nat.le_trans (Nat.le_add_right _ _) (Nat.le_of_eq cursor.symm))
    · exact (words index (contract.layout.slot_lt isObject slot)).1 slot
    · exact (words index within).2
  · intro addr valid met fixed
    obtain ⟨begin, covers⟩ := Option.isSome_iff_exists.mp (coherent.live addr valid met fixed)
    obtain ⟨occupant, found⟩ := sound.regular.consistent.exists_occupant covers
    have slots := done.slots_ofMinor sound heap
    refine Or.inr ⟨still valid ?_, begin, occupant, covers, found, ?_, ?_, fun _ index inside => ?_⟩
    · rw [fixed]
      exact ready.not_moves_fixed
    · rwa [FixedSpace.containing?, slots, ← FixedSpace.containing?]
    · rwa [FixedSpace.occupant?, FixedSpace.slot?, slots, ← FixedSpace.slot?, ← FixedSpace.occupant?]
    · rw [cell_afterMinor heap]
      exact (done.slot_ofMinor sound (.fixed found inside)).2

omit kept

/-- An old object is one of its size afterwards, with the same slots. -/
theorem Done.old_afterMinor (addressable : world.Addressable) {starts : List Nat}
    (tiles
      : world.heap.regions.Tiles contract.layout starts 0 world.heap.regions.old.cursor)
    {start : Nat} (member : start ∈ starts)
    : contract.layout.IsObject (final.heap.regions.wordsAt world.heap.regions.old.space start)
      ∧ contract.layout.size (final.heap.regions.wordsAt world.heap.regions.old.space start)
        = contract.layout.size (world.heap.regions.wordsAt world.heap.regions.old.space start)
      ∧ ∀ index,
          contract.layout.IsSlot (final.heap.regions.wordsAt world.heap.regions.old.space start) index
          ↔ contract.layout.IsSlot (world.heap.regions.wordsAt world.heap.regions.old.space start)
              index := by
  have words := done.words_ofMinor sound heap tiles member
  obtain ⟨isObject, -, -⟩ := tiles.of_mem member
  refine contract.layout.agree isObject (fun index inside => (words index inside).2) ?_
  have first := contract.layout.first_ne_zero isObject
  have large := contract.layout.two_le_size isObject
  by_cases slot
      : contract.layout.IsSlot (world.heap.regions.wordsAt world.heap.regions.old.space start) 0
  · rw [(words 0 (by omega)).1 slot]
    have settled := (done.slot_ofMinor sound (.old tiles member slot)).1
    exact relocated_ne_zero (ready_ofMinor sound addressable) done.standing.moment.progress
      (full_ofMinor sound) settled first
  · rwa [(words 0 (by omega)).2 slot]

include kept

/-- What a minor collection leaves is in order. -/
theorem Done.orderly_ofMinor (addressable : world.Addressable)
    (same : roots = contract.roots world.host) (tables : world.heap.SameTables traced.heap)
    (collects : world.Collects final) (recent : traced.heap.regions.fixed.recent = [])
    : final.Orderly contract := by
  have ready := ready_ofMinor sound addressable
  have coherent := sound.wellFormed.coherent
  have heads := sound.wellFormed.heads
  have leaves := done.leaves_ofMinor sound kept heap
  have progress := done.standing.moment.progress
  have relocates := done.relocates_ofMinor sound kept heap addressable same tables
  have space : final.heap.regions.old.space = world.heap.regions.old.space := by
    rw [leaves.space, Pass.space, destination_ofMinor sound]
  have base : (ofMinor contract world).base = world.heap.regions.old.cursor := by
    rw [base, destination_ofMinor sound]
  obtain ⟨starts, former, member⟩ := sound.wellFormed.tiled
  have older := fun start (inside : start ∈ starts) =>
    done.old_afterMinor sound heap addressable former inside
  have copies := fun object (moved : object ∈ trail.moved) => copy_afterwards ready progress
    ⟨rfl, rfl, rfl⟩ relocates coherent heads (fun _ => met_ofMinor) leaves moved
  -- The copies lie behind the old objects.
  have tiles : final.heap.regions.Tiles contract.layout
      (starts ++ trail.moved.map ((ofMinor contract world).copyOffset trail)) 0
      final.heap.regions.old.cursor := by
    refine Regions.tiles_append.mpr ⟨world.heap.regions.old.cursor, ?_, ?_⟩
    · exact former.alike space fun start inside _ =>
        ⟨(older start inside).1, (older start inside).2.1⟩
    · have behind := tiles_copies progress.nodup (show trail.moved = [] ++ trail.moved from rfl)
        fun object moved => ⟨(copies object moved).1, (copies object moved).2.1⟩
      have cursor : traced.heap.regions.destination.cursor = _ := progress.cursor
      rw [leaves.cursor, ← base, cursor]
      exact behind
  refine relocates.orderly coherent heads (fun _ => .rooted) collects ?_ tiles ?_ ?_
  · rw [heap]
    exact recent
  · intro object copy valid met notFixed copied
    have settled := done.settled_ofMinor sound same met
    rw [eq_image ready progress valid notFixed settled copied, image, List.mem_append]
    split_ifs with moves
    · have moved := (settled object (Value.address?_toValue valid)).1 moves
      rw [(progress.copyOf_eq ready moved).2.2]
      exact Or.inr (List.mem_map_of_mem moved)
    · have later : object.space ≠ .birth := fun birth => moves ((moves_ofMinor sound).mpr birth)
      have here : object.space = world.heap.regions.old.space := by
        simpa [Regions.moves, later] using (coherent.object object valid met notFixed).1
      exact Or.inl (member object valid met here)
  · intro there offset slot
    cases slot with
    | @old others start index tiles' inside slot =>
        rw [tiles'.unique tiles, List.mem_append] at inside
        rcases inside with before | copy
        · rw [space] at slot ⊢
          have slot' := ((older start before).2.2 index).mp slot
          obtain ⟨settled, holds⟩ := done.slot_ofMinor sound (.old former before slot')
          rw [cell_afterMinor heap, holds]
          exact isBirth_relocated ready progress settled
        · obtain ⟨object, moved, rfl⟩ := List.mem_map.mp copy
          exact (copies object moved).2.2 index slot
    | @fixed start index occupant found inside =>
        have slots := done.slots_ofMinor sound heap
        have found' : world.heap.regions.fixed.occupant? start = some occupant := by
          rwa [FixedSpace.occupant?, FixedSpace.slot?, slots] at found
        obtain ⟨settled, holds⟩ := done.slot_ofMinor sound (.fixed found' inside)
        rw [cell_afterMinor heap, holds]
        exact isBirth_relocated ready progress settled

end After

end Done

end Minor

end Pass

-----------------------------------------------------------------------------------------
-- Minor collections
-----------------------------------------------------------------------------------------

namespace World

/-- The birth objects that were met have moved behind the old ones; everything else is where it was, the
fixed objects with what became of their words.
-/
structure Promotes (contract : Contract σ) (move : Value → Value) (before after : World σ δ)
    : Prop extends World.Relocates contract (before.Met contract []) move before after where
  space : after.heap.regions.old.space = before.heap.regions.old.space
  stays
    : ∀ addr : Address, addr.Decodes → addr.space ≠ .birth → move addr.toValue = addr.toValue
  promoted
    : ∀ object copy : Address,
        object.Decodes →
        before.Met contract [] object.toValue →
        object.space = .birth →
        Regions.Copied contract.layout move before.heap.regions after.heap.regions object copy →
        before.heap.regions.old.cursor ≤ copy.offset
  slots : after.heap.regions.fixed.slots = before.heap.regions.fixed.slots
  payloads
    : ∀ begin occupant,
        before.heap.regions.fixed.occupant? begin = some occupant →
        ∀ index < occupant.words,
          after.heap.regions.cell .fixed (begin + index)
          = (move ⟨before.heap.regions.cell .fixed (begin + index)⟩).raw
  numbered : after.heap.collections = before.heap.collections + 1

/-- What was traced has been promoted where the birth region was emptied then. -/
theorem Promotes.of_done {contract : Contract σ} {world traced final : World σ δ} {trail : Trail}
    (sound : world.Sound contract) (addressable : world.Addressable)
    (done
      : (Pass.ofMinor contract world).Done world.heap (contract.roots world.host) trail traced)
    (kept : final.host = traced.host)
    (heap
      : final.heap
        = { Collector.resetYoung traced.heap with phase := .idle, counters := final.heap.counters })
    (tables : world.heap.SameTables traced.heap)
    (numbered : final.heap.collections = world.heap.collections + 1)
    : World.Promotes contract ((Pass.ofMinor contract world).relocated trail) world final := by
  have ready := Pass.ready_ofMinor sound addressable
  have progress := done.standing.moment.progress
  have leaves := done.leaves_ofMinor sound kept heap
  have relocates := done.relocates_ofMinor sound kept heap addressable rfl tables
  have destination := Pass.destination_ofMinor sound
  refine ⟨relocates, ?_, fun addr valid later => ?_, fun object copy valid met birth copied => ?_,
    done.slots_ofMinor sound heap, fun begin occupant found index inside => ?_, numbered⟩
  · rw [leaves.space, Pass.space, destination]
  · refine (Pass.still_of_not_birth sound ?_).settled.2
    simpa [Value.isBirth, Value.address?_toValue valid] using later
  · have settled := done.settled_ofMinor sound rfl met
    have moves := (Pass.moves_ofMinor sound).mpr birth
    have moved := (settled object (Value.address?_toValue valid)).1 moves
    have notFixed : object.space ≠ .fixed := by simp [birth]
    have base : (Pass.ofMinor contract world).base = world.heap.regions.old.cursor := by
      rw [Pass.base, destination]
    rw [Pass.eq_image ready progress valid notFixed settled copied, Pass.image, if_pos moves,
      (progress.copyOf_eq ready moved).2.2, ← base]
    exact Pass.base_le_copyOffset trail object
  · rw [Pass.cell_afterMinor heap]
    exact (done.slot_ofMinor sound (.fixed found inside)).2

/-- A minor collection of a sound heap ends, promotes what was met and leaves the heap in order. -/
theorem Sound.minor {contract : Contract σ} {world : World σ δ} (sound : world.Sound contract)
    (addressable : world.Addressable) {host : Host σ δ} (faithful : host.Traces contract)
    (reason : Reason)
    : Ends (Collector.minor host reason) world fun _ final =>
        world.Collects final
        ∧ final.Orderly contract
        ∧ ∃ move, World.Promotes contract move world final := by
  have traces : Ends (Collector.minor host reason) world fun _ final =>
      world.Collects final →
      final.heap.collections = world.heap.collections + 1 →
      final.Orderly contract ∧ ∃ move, World.Promotes contract move world final := by
    refine Collector.runs_minor fun log => ?_
    refine (Pass.traceMinor_done sound addressable faithful log).mono ?_
    intro _ traced reached
    obtain ⟨trail, done, comes, recent⟩ := reached
    intro final kept heap collects numbered
    have tables : world.heap.SameTables traced.heap :=
      ⟨comes.tables.frames, comes.tables.handlers, comes.tables.modules, comes.tables.limit,
        comes.tables.capacity, comes.tables.groups⟩
    exact ⟨done.orderly_ofMinor sound kept heap addressable rfl tables collects recent, _,
      .of_done sound addressable done kept heap tables numbered⟩
  refine Runs.mono (((Collector.collects_minor host reason sound.regular).and
    (Collector.numbered_minor host reason world)).and traces) ?_ ?_
  · intro _ final reached
    obtain ⟨⟨collects, numbered⟩, leaves⟩ := reached
    exact ⟨collects, leaves collects numbered⟩
  · intro _ _ stopped
    exact stopped.2

/-- A minor collection appends no more to the old region than the birth region held. -/
theorem Sound.minor_cursor {contract : Contract σ} {world : World σ δ}
    (sound : world.Sound contract) (addressable : world.Addressable) {host : Host σ δ}
    (faithful : host.Traces contract) (reason : Reason)
    : Ends (Collector.minor host reason) world fun _ final =>
        final.heap.regions.old.cursor
        ≤ world.heap.regions.old.cursor + world.heap.regions.birth.cursor := by
  have ready := Pass.ready_ofMinor sound addressable
  refine Collector.runs_minor fun log => ?_
  refine (Pass.traceMinor_done sound addressable faithful log).mono ?_
  intro _ traced reached
  obtain ⟨trail, done, -, -⟩ := reached
  intro final kept heap
  have progress := done.standing.moment.progress
  have bound := ready.extent_le progress.nodup progress.met
  have cursor : traced.heap.regions.destination.cursor = _ := progress.cursor
  rw [Pass.full_ofMinor sound] at bound
  rw [(done.leaves_ofMinor sound kept heap).cursor, cursor, Pass.base,
    Pass.destination_ofMinor sound]
  exact Nat.add_le_add_left bound _

end World

end MovingHeap
