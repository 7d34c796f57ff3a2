import MovingHeap.Proofs.Maintenance
import MovingHeap.Proofs.Strides
import MovingHeap.Proofs.Upkeep

/-! The slots that the barrier recorded, as the log tells them and as the birth region holds them.
Objects and records share one memory; whatever is allocated, stored or buried in between, the records
read back as the slots that were recorded since the last collection, the newest first.
-/

namespace MovingHeap

variable {σ δ α : Type}

-----------------------------------------------------------------------------------------
-- What the log tells
-----------------------------------------------------------------------------------------

namespace Event

/-- The slots recorded since the last collection ended, in a log that begins with the newest event. -/
def recordedSlots : List Event → List Address
  | [] => []
  | slotRemembered slot :: earlier => slot :: recordedSlots earlier
  | phaseChanged _ .idle :: _ => []
  | _ :: earlier => recordedSlots earlier

/-- Other events say nothing about records. -/
theorem recordedSlots_cons {event : Event} (plain : event.isPlain) (log : List Event)
    : recordedSlots (event :: log) = recordedSlots log := by
  cases event with
  | phaseChanged | slotRemembered => cases plain
  | _ => rfl

/-- Any number of other events says nothing about records. -/
theorem recordedSlots_append {events : List Event} (plain : ∀ event ∈ events, event.isPlain)
    (log : List Event)
    : recordedSlots (events ++ log) = recordedSlots log := by
  induction events with
  | nil => rfl
  | cons event events ih =>
      rw [List.cons_append, recordedSlots_cons (plain event List.mem_cons_self)]
      exact ih fun other member => plain other (List.mem_cons_of_mem _ member)

/-- The lines of a host say nothing about records. -/
theorem recordedSlots_notes (notes : List String) (log : List Event)
    : recordedSlots ((notes.map note).reverse ++ log) = recordedSlots log := by
  apply recordedSlots_append
  intro event member
  obtain ⟨line, -, rfl⟩ := List.mem_map.mp (List.mem_reverse.mp member)
  rfl

end Event

namespace World

/-- The slots recorded since the last collection ended, the newest first. -/
def recordedSlots (world : World σ δ) : List Address := Event.recordedSlots world.log

/-- The records that the birth region holds are those that the log tells of. -/
def Tallied (world : World σ δ) : Prop :=
  world.heap.regions.birth.remembered = world.recordedSlots.map Address.raw

end World

-----------------------------------------------------------------------------------------
-- Tracing spares the records
-----------------------------------------------------------------------------------------

namespace BirthRegion

/-- Both ends of the region and the records are the same. -/
structure SameRecords (before now : BirthRegion) : Prop where
  cursor : now.cursor = before.cursor
  bufferStart : now.bufferStart = before.bufferStart
  remembered : now.remembered = before.remembered

/-- Words below the records are none of the records. -/
theorem remembered_setMany {region : BirthRegion} {start : Nat} {words : List Word}
    (below : start + words.length ≤ region.bufferStart)
    : { region with words := region.words.setMany start words }.remembered = region.remembered := by
  simp only [remembered, rememberedCount, capacity, Arena.size_setMany]
  apply Arena.words_congr
  intro index above _
  exact Arena.get_setMany_outside _ (.inr (below.trans above))

/-- No slot is recorded where records begin at the end of the region. -/
theorem remembered_eq_nil {region : BirthRegion} (unrecorded : region.bufferStart = region.capacity)
    : region.remembered = [] := by
  simp [remembered, rememberedCount, unrecorded, Arena.words]

end BirthRegion

/-- Neither the region nor the log tells of records after a collection. -/
theorem World.Tallied.of_emptied {before after : World σ δ} (collects : before.Collects after)
    (none : after.recordedSlots = [])
    : after.Tallied := by
  rw [Tallied, none, BirthRegion.remembered_eq_nil collects.unrecorded]
  rfl

namespace Collector

/-- A tombstone is written below the cursor, so tracing spares the records, step by step. -/
theorem invariant_sameRecords {birth : BirthRegion} (apart : birth.cursor ≤ birth.bufferStart)
    : Regions.Invariant fun regions : Regions δ => birth.SameRecords regions.birth where
  fill regions words same := by
    rw [Regions.birth_setDestination]
    exact same
  relocate regions words extended count object young inside _ same := by
    cases young with
    | false =>
        simp only [relocated, Regions.bury, Bool.false_eq_true, if_false,
          Regions.birth_setDestination]
        exact same
    | true =>
        have below : object.offset + 2 ≤ regions.birth.bufferStart := by
          rw [same.bufferStart]
          refine Nat.le_trans ?_ apart
          rw [← same.cursor]
          exact inside
        simp only [relocated, Regions.bury, if_true, Regions.birth_setDestination]
        exact ⟨same.cursor, same.bufferStart,
          (BirthRegion.remembered_setMany below).trans same.remembered⟩
  mark _ _ _ _ _ _ same := same
  pop _ _ _ _ same := same
  store regions next addr word done same := by
    have evolves := Regions.Evolves.setWord? done
    exact ⟨evolves.birthCursor.trans same.cursor, evolves.bufferStart.trans same.bufferStart,
      (World.remembered_setWord? done).trans same.remembered⟩

end Collector

-----------------------------------------------------------------------------------------
-- Collections empty the records
-----------------------------------------------------------------------------------------

namespace Collector

/-- Nothing was recorded since a minor collection ended. -/
theorem recordedSlots_minor (host : Host σ δ) (reason : Reason) (world : World σ δ)
    : Runs (minor host reason) world (fun _ final => final.recordedSlots = []) fun _ _ => True := by
  simp only [minor, nextId, runs_bind, runs_pure, World.runs_heapNow, World.runs_modifyHeap,
    World.runs_modifyRegions, World.runs_enterPhase]
  refine (runs_anyhow _ _).mono (fun _ _ _ => ?_) fun _ _ _ => trivial
  refine (runs_anyhow _ _).mono (fun _ _ _ => ?_) fun _ _ _ => trivial
  simp only [World.runs_count, World.runs_report, runs_ite, runs_pure]
  split_ifs <;> rfl

/-- Nothing was recorded since a full collection ended. -/
theorem recordedSlots_full (host : Host σ δ) (reason : Reason) (world : World σ δ)
    : Runs (full host reason) world (fun _ final => final.recordedSlots = []) fun _ _ => True := by
  simp only [full, nextId, callHook, runs_bind, runs_pure, runs_get, World.runs_heapNow,
    World.runs_modifyHeap, World.runs_onSite, Site.runs_accept, World.runs_enterPhase]
  refine (runs_anyhow _ _).mono (fun _ _ _ => ?_) fun _ _ _ => trivial
  refine (runs_anyhow _ _).mono (fun _ _ _ => ?_) fun _ _ _ => trivial
  refine (runs_anyhow _ _).mono (fun _ _ _ => ?_) fun _ _ _ => trivial
  refine (runs_anyhow _ _).mono (fun _ _ _ => ?_) fun _ _ _ => trivial
  simp only [World.runs_modifyRegions, World.runs_count, World.runs_report, runs_ite, runs_pure]
  split_ifs <;> exact Event.recordedSlots_notes _ _

/-- A collection on demand that comes to its end leaves no records. -/
theorem tallied_collectFor (host : Host σ δ) (words : Nat) (wantsFull : Bool) (reason : Reason)
    {world : World σ δ} (regular : world.heap.Regular)
    : Runs (collectFor host words wantsFull reason) world (fun _ final => final.Tallied)
        fun _ _ => True := by
  have fulls : ∀ reason (begun : World σ δ), begun.heap.Regular →
      Runs (full host reason) begun (fun _ final => final.Tallied) fun _ _ => True := by
    intro reason begun regular
    refine ((collects_full host reason regular).and (recordedSlots_full host reason begun)).mono
      ?_ fun _ _ _ => trivial
    exact fun _ _ reached => .of_emptied reached.1 reached.2
  apply runs_collectFor
  · exact fun _ _ => trivial
  · exact fun _ _ => trivial
  · exact fun _ _ reason => fulls reason world regular
  · intro _ _
    refine ((collects_minor host reason regular).and (recordedSlots_minor host reason world)).mono
      ?_ fun _ _ _ => trivial
    intro _ middle reached
    split_ifs
    · exact fulls _ middle reached.1.steady.toRegular
    · exact .of_emptied reached.1 reached.2

/-- A collection on demand is counted, if it comes to its end. -/
theorem numbered_collectFor (host : Host σ δ) (words : Nat) (wantsFull : Bool) (reason : Reason)
    (world : World σ δ)
    : Runs (collectFor host words wantsFull reason) world
        (fun _ final => world.heap.collections < final.heap.collections) fun _ _ => True := by
  apply runs_collectFor
  · exact fun _ _ => trivial
  · exact fun _ _ => trivial
  · intro _ _ reason
    exact (numbered_full host reason world).mono (fun _ _ next => by omega) fun _ _ => id
  · intro _ _
    refine (numbered_minor host reason world).mono (fun _ middle next => ?_) fun _ _ => id
    split_ifs
    · exact (numbered_full host _ middle).mono (fun _ _ last => by omega) fun _ _ => id
    · omega

end Collector

namespace World

/-- What the region holds and what the log tells agree where memory is the same. -/
theorem Tallied.of_same {before after : World σ δ} (tallied : before.Tallied)
    (same : before.SameMemory after)
    : after.Tallied := by
  obtain ⟨events, logged, plain⟩ := same.log
  rw [Tallied, recordedSlots, logged, Event.recordedSlots_append plain, same.regions]
  exact tallied

/-- Recording a slot adds it to what the region holds and to what the log tells. -/
theorem Tallied.recorded {world : World σ δ} (tallied : world.Tallied)
    (steady : world.heap.Steady) (slot : Address)
    : (world.recorded slot).Tallied := by
  have room := Nat.lt_of_le_of_lt (Nat.zero_le _) steady.spare
  exact (remembered_remember room steady.birthInside slot).trans (congrArg _ tallied)

/-- Every stride keeps the agreement, unless a collection was stopped. -/
theorem Tallied.stride {host : Host σ δ} {before after : World σ δ} (tallied : before.Tallied)
    (steady : before.heap.Steady) (stride : Stride host before after)
    (idle : after.heap.phase = .idle)
    : after.Tallied := by
  cases stride with
  | bookkeeping same => exact tallied.of_same same
  | store done => exact (remembered_setWord? done).trans tallied
  | reserve => exact tallied
  | record => exact tallied.recorded steady _
  | @flush slot outside =>
      have regular := regular_recorded steady slot
      exact holds_after_collectFor (fun _ _ same tallied => Tallied.of_same tallied same) regular
        (tallied.recorded steady _) (Collector.tallied_collectFor host _ _ _ regular) idle
  | collect =>
      have regular := steady.toRegular
      exact holds_after_collectFor (fun _ _ same tallied => Tallied.of_same tallied same) regular
        tallied (Collector.tallied_collectFor host _ _ _ regular) idle
  | @lodge words destructor executable _ positive same =>
      have lodged : Tallied
          { before with
            heap := { before.heap with
              regions := { before.heap.regions with
                fixed := (before.heap.regions.fixed.allocate words destructor executable).2 } } } :=
        tallied
      exact lodged.of_same same
  | forget => exact tallied

/-- Setting up a heap is all that its log tells of. -/
theorem log_of_create {mapper : Mapper} {config : Config} {state : σ} {world : World σ δ}
    (created : create mapper config state = .ok world)
    : world.log = [.initialized config.birthSize config.oldSize] := by
  obtain ⟨-, birth, old, -, -, rfl⟩ := eq_of_create created
  rfl

/-- What the region holds is what the log tells whenever no collection runs. -/
theorem Reachable.tallied {world : World σ δ} (reachable : world.Reachable)
    (idle : world.heap.phase = .idle)
    : world.Tallied := by
  refine Reachable.keeps (fun world => world.heap.phase = .idle → world.Tallied) ?_ ?_ ?_ reachable
    idle idle
  · intro mapper config state world created _
    rw [Tallied, BirthRegion.remembered_eq_nil (created_of_create created).1.unrecorded,
      recordedSlots, log_of_create created]
    rfl
  · intro host before after steady idle stride tallied rests
    exact (tallied idle).stride steady stride rests
  · exact fun _ _ tallied => tallied

/-- What the region holds is what the log tells wherever a collection starts. -/
theorem Launches.tallied {world begun : World σ δ} (launches : world.Launches begun)
    (reachable : world.Reachable) (idle : world.heap.phase = .idle)
    : begun.Tallied := by
  cases launches with
  | here => exact reachable.tallied idle
  | recorded => exact (reachable.tallied idle).recorded (reachable.steady idle) _
  | @promoted host reason begun _ launches ends =>
      have regular := (launches.ready reachable idle).1
      exact Tallied.of_emptied ((Collector.collects_minor host reason regular).of_ok ends)
        ((Collector.recordedSlots_minor host reason begun).of_ok ends)

-----------------------------------------------------------------------------------------
-- What spares the records
-----------------------------------------------------------------------------------------

/-- Wherever the action ends or is stopped, the records and both ends of the birth region are those
that there were.
-/
def SparesRecords (action : Action (World σ δ) α) (world : World σ δ) : Prop :=
  Runs action world
    (fun _ final => world.heap.regions.birth.SameRecords final.heap.regions.birth)
    fun _ final => world.heap.regions.birth.SameRecords final.heap.regions.birth

/-- No word can be stored among the records. -/
theorem sparesRecords_store (world : World σ δ) (addr : Address) (word : Word)
    : SparesRecords (store addr word) world := by
  apply runs_store
  · exact fun _ => ⟨rfl, rfl, rfl⟩
  · intro regions done
    have evolves := Regions.Evolves.setWord? done
    exact ⟨evolves.birthCursor, evolves.bufferStart, remembered_setWord? done⟩

/-- Tombstones and slots that a minor collection updates are no records. -/
theorem sparesRecords_traceMinor (host : Host σ δ) (start : Semispace) {world : World σ δ}
    (apart : world.heap.regions.birth.cursor ≤ world.heap.regions.birth.bufferStart)
    : SparesRecords (Collector.traceMinor host start) world := by
  apply (Collector.maintains_traceMinor (Collector.invariant_sameRecords apart) host.keeps_true
    (fun _ same => same) start ⟨rfl, rfl, rfl⟩ trivial).mono
  · exact fun _ _ reached => reached.1
  · exact fun _ _ reached => reached.1

/-- Tombstones and slots that a full collection updates are no records. -/
theorem sparesRecords_traceFull (host : Host σ δ) (target : Semispace) (slots : Nat)
    {world : World σ δ}
    (apart : world.heap.regions.birth.cursor ≤ world.heap.regions.birth.bufferStart)
    : SparesRecords (Collector.traceFull host target slots) world := by
  apply (Collector.maintains_traceFull (Collector.invariant_sameRecords apart) host.keeps_true
    target slots ⟨rfl, rfl, rfl⟩ trivial).mono
  · exact fun _ _ reached => reached.1
  · exact fun _ _ reached => reached.1

/-- Handing out memory leaves the records alone unless a collection made room, which empties them. -/
theorem remembered_reserve (host : Host σ δ) (size stride : Nat) {world : World σ δ}
    (steady : world.heap.Steady)
    : Runs (reserve host size stride) world
        (fun _ final =>
          final.heap.regions.birth.remembered
            = if final.heap.collections = world.heap.collections then
                world.heap.regions.birth.remembered
              else [])
        fun _ final =>
          final.heap.phase = .idle →
            final.heap.regions.birth.remembered = world.heap.regions.birth.remembered := by
  apply runs_reserve
  · exact fun _ _ => rfl
  · exact fun _ => (if_pos rfl).symm
  · intro wantsFull reason _
    have numbered := Collector.numbered_collectFor host (max (wordsFor size) minObjectWords
      + (stride - 1)) wantsFull reason world
    refine ((Collector.collects_collectFor host _ wantsFull reason steady.toRegular).and
      numbered).mono ?_ ?_
    · intro _ middle reached
      obtain ⟨⟨-, collects⟩, later⟩ := reached
      have emptied := BirthRegion.remembered_eq_nil collects.unrecorded
      exact emptied.trans (if_neg (Nat.ne_of_gt later)).symm
    · intro _ final stopped idle
      rw [(stopped.1 idle).2]

/-- Where so many words fit behind any padding, they end below the records. -/
theorem bump_of_makeRoom (host : Host σ δ) {world : World σ δ} (regular : world.heap.Regular)
    {words stride : Nat} (small : words + (stride - 1) ≤ world.heap.regions.birth.maxObjectWords)
    : Runs (makeRoom host (words + (stride - 1))) world
        (fun _ middle =>
          let birth := middle.heap.regions.birth
          let padding := (birth.padding? stride).getD 0
          birth.cursor + padding ≤ birth.bufferStart
          ∧ (birth.bump padding).cursor + words ≤ (birth.bump padding).bufferStart)
        fun _ _ => True := by
  have below : ∀ {birth : BirthRegion}, birth.fits (words + (stride - 1)) →
      birth.cursor + (birth.padding? stride).getD 0 ≤ birth.bufferStart
      ∧ (birth.bump ((birth.padding? stride).getD 0)).cursor + words
        ≤ (birth.bump ((birth.padding? stride).getD 0)).bufferStart := by
    intro birth fits
    have margin := BirthRegion.margin_of_fits fits
    simp only [BirthRegion.bump]
    omega
  apply runs_makeRoom
  · exact fun fits => below fits
  · intro wantsFull reason
    refine (Collector.collects_collectFor host _ wantsFull reason regular).mono ?_
      fun _ _ _ => trivial
    exact fun _ middle reached => below (fits_of_collects reached.2 regular small)

end World

-----------------------------------------------------------------------------------------
-- Reading the records back
-----------------------------------------------------------------------------------------

instance (addr : Address) : Decidable addr.Decodes :=
  inferInstanceAs (Decidable (Address.ofRaw? addr.raw = some addr))

namespace Collector

/-- Visits some slots, up to the first that is no address. -/
def visitAddresses (host : Host σ δ) : List Address → Action (Site σ δ) Unit
  | [] => pure ()
  | slot :: slots => do
      if slot.Decodes then visitSlot host slot else Site.stop (.danglingReference slot.raw)
      visitAddresses host slots

/-- Visits what `visitMinorRoots` does, but given slots instead of the records. -/
def visitMinorRootsAt (host : Host σ δ) (slots : List Address) : Action (World σ δ) Unit := do
  visitRoots host (← World.heapNow).frameRoots
  visitRoots host (← World.heapNow).pendingRoots
  World.onSite (visitAddresses host slots)
  visitRoots host (← World.heapNow).changedModuleRoots
  visitRoots host (← World.heapNow).dirtyConstantRoots
  let fresh := (← World.heapNow).regions.fixed.freshObjects
  World.modifyRegions fun regions => { regions with fixed := regions.fixed.clearFresh }
  World.onSite (scanFixedList host (← World.heapNow).phase host.scanFixedMinor fresh)
  visit host host.extraMinorRoots

/-- A recorded slot is read back as the address that it is, one slot after another. -/
theorem visitRemembered_raw (host : Host σ δ) (slots : List Address)
    : visitRemembered host (slots.map Address.raw) = visitAddresses host slots := by
  induction slots with
  | nil => rfl
  | cons slot slots ih =>
      simp only [List.map_cons, visitRemembered, visitAddresses, ih]
      cases decoded : Address.ofRaw? slot.raw with
      | none =>
          have invalid : ¬ slot.Decodes := by simp [Address.Decodes, decoded]
          rw [if_neg invalid]
          rfl
      | some addr =>
          obtain rfl : addr = slot := by
            cases addr
            cases slot
            exact congrArg Address.mk (Address.raw_of_ofRaw? decoded)
          have valid : addr.Decodes := decoded
          rw [if_pos valid]
          rfl

/-- A minor collection finds the recorded slots themselves, as nothing that it visits before them
writes to the records.
-/
theorem visitMinorRoots_recorded (host : Host σ δ) {world begun : World σ δ}
    (tallied : world.Tallied)
    (apart : world.heap.regions.birth.cursor ≤ world.heap.regions.birth.bufferStart)
    (same : begun.heap.regions.birth = world.heap.regions.birth)
    : visitMinorRoots host begun = visitMinorRootsAt host world.recordedSlots begun := by
  have roots : ∀ (list : List Root) (now : World σ δ),
      world.heap.regions.birth.SameRecords now.heap.regions.birth →
      Runs (visitRoots host list) now
        (fun _ final => world.heap.regions.birth.SameRecords final.heap.regions.birth)
        fun _ _ => True := by
    intro list now here
    exact (maintains_visitRoots (invariant_sameRecords apart) host.keeps_true.copy list here
      trivial).mono (fun _ _ reached => reached.1) fun _ _ _ => trivial
  have here : world.heap.regions.birth.SameRecords begun.heap.regions.birth := by
    rw [same]
    exact ⟨rfl, rfl, rfl⟩
  apply Runs.bind_congr
  apply World.runs_heapNow.mpr
  apply Runs.bind_congr
  apply (roots _ _ here).mono ?_ fun _ _ => id
  intro _ framed first
  apply Runs.bind_congr
  apply World.runs_heapNow.mpr
  apply Runs.bind_congr
  apply (roots _ _ first).mono ?_ fun _ _ => id
  intro _ pended second
  have records : visitRemembered host pended.heap.regions.birth.remembered
      = visitAddresses host world.recordedSlots := by
    rw [second.remembered, tallied, World.recordedSlots, visitRemembered_raw]
  rw [← records]
  rfl

end Collector

end MovingHeap
