import MovingHeap.Proofs.Maintenance
import MovingHeap.Proofs.MinorCollection

/-! What a minor collection promotes and all that it leaves.
It moves the birth objects that were met, no others and each once, so that the words that it copies are
theirs together. Every word of the old region and of the fixed space is what its value became if it is a
slot, and what it was otherwise.
-/

namespace MovingHeap

variable {σ δ : Type}

-----------------------------------------------------------------------------------------
-- Counting copied words
-----------------------------------------------------------------------------------------

namespace Regions

/-- In a minor collection objects are copied to the old region. -/
theorem setDestination_of_minor {regions : Regions δ} (minor : regions.target = none)
    (region : Semispace)
    : regions.setDestination region = { regions with old := region } := by
  simp [setDestination, isFull, minor]

/-- Storing a word counts none as copied. -/
theorem copied_setWord? {regions next : Regions δ} {addr : Address} {word : Word}
    (done : regions.setWord? addr word = some next)
    : next.copied = regions.copied := by
  have semispace : ∀ space,
      (regions.oldSpace? space).bind (fun region =>
        if addr.offset < region.cursor ∧ addr.offset < region.capacity then
          some (regions.setOldSpace (region.setWord addr.offset word))
        else none) = some next →
      next.copied = regions.copied := by
    intro space found
    obtain ⟨region, -, write⟩ := Option.bind_eq_some_iff.mp found
    split_ifs at write
    cases write
    unfold setOldSpace
    split_ifs <;> rfl
  unfold setWord? at done
  cases space : addr.space with
  | birth | fixed =>
      simp only [space] at done
      split_ifs at done
      cases done
      rfl
  | oldA | oldB =>
      simp only [space] at done
      exact semispace _ done

end Regions

namespace Collector

/-- In a minor collection, as many words have been copied as were taken in the old region since it
began.
-/
structure CountsCopies (base : Nat) (regions : Regions δ) : Prop where
  minor : regions.target = none
  copied : regions.old.cursor = base + regions.copied

/-- Only copying takes words in the old region, and it counts them, step by step. -/
theorem invariant_countsCopies (base : Nat)
    : Regions.Invariant fun regions : Regions δ => CountsCopies base regions where
  fill regions words counts := by
    have destination : regions.destination = regions.old := by
      simp [Regions.destination, counts.minor]
    rw [Regions.setDestination_of_minor counts.minor, destination]
    exact ⟨counts.minor, counts.copied⟩
  relocate regions words extended count object young _ admitted counts := by
    have minor := counts.minor
    have bumped : extended.cursor = regions.old.cursor + count := by
      rw [(Regions.admit?_eq_some admitted).1]
      simp [Regions.destination, minor, Semispace.fillTail]
    have grown : ((regions.setDestination (regions.destination.fillTail words)).setDestination
        extended) = { regions with old := extended } := by
      rw [Regions.setDestination_of_minor minor]
      exact Regions.setDestination_of_minor (by exact minor) extended
    have copied : extended.cursor = base + (regions.copied + count) := by
      rw [bumped, counts.copied, Nat.add_assoc]
    cases young with
    | false =>
        simp only [relocated, Regions.bury, grown]
        exact ⟨minor, copied⟩
    | true =>
        simp only [relocated, Regions.bury, grown]
        exact ⟨minor, copied⟩
  mark _ _ _ _ _ _ counts := ⟨counts.minor, counts.copied⟩
  pop _ _ _ _ counts := ⟨counts.minor, counts.copied⟩
  store regions next addr word done counts := by
    have target := (Regions.Evolves.setWord? done).target
    have minor : next.target = none := by simpa [counts.minor] using target
    obtain ⟨-, -, -, cursor⟩ := frame_setWord? done
    simp only [Regions.destination, minor, counts.minor, Option.getD_none] at cursor
    exact ⟨minor, by rw [cursor, Regions.copied_setWord? done, counts.copied]⟩

end Collector

-----------------------------------------------------------------------------------------
-- All that a minor collection leaves
-----------------------------------------------------------------------------------------

namespace World

/-- The cell is an allocated word of the old region or a word of the fixed space. -/
def Stays (world : World σ δ) (space : Space) (offset : Nat) : Prop :=
  space = .fixed ∧ offset < world.heap.regions.fixed.arena.size
  ∨ space = world.heap.regions.old.space ∧ offset < world.heap.regions.old.cursor

/-- The words of some objects together. -/
def extentOf (contract : Contract σ) (world : World σ δ) (objects : List Address) : Nat :=
  extent (fun object => contract.layout.size (world.heap.regions.field object)) objects

/-- A minor collection has promoted the objects: they are the birth objects that were met, their words
were taken in the old region and counted, slots that stay hold what their values became, and nothing else
has changed but that the birth region is empty and nothing counts as changed.
-/
structure PromotesAll (contract : Contract σ) (objects : List Address) (move : Value → Value)
    (before after : World σ δ)
    : Prop extends before.Promotes contract move after where
  collects : before.Collects after
  nodup : objects.Nodup
  members
    : ∀ object,
        object ∈ objects
        ↔ object.Decodes ∧ object.space = .birth ∧ before.Met contract [] object.toValue
  cursor
    : after.heap.regions.old.cursor
      = before.heap.regions.old.cursor + before.extentOf contract objects
  slotted
    : ∀ space offset,
        before.heap.regions.Slot contract.layout space offset →
        after.heap.regions.cell space offset
        = (move ⟨before.heap.regions.cell space offset⟩).raw
  unslotted
    : ∀ space offset,
        before.Stays space offset →
        ¬ before.heap.regions.Slot contract.layout space offset →
        after.heap.regions.cell space offset = before.heap.regions.cell space offset
  heap
    : after.heap
      = { before.heap with
          regions := after.heap.regions
          frames := after.heap.frames
          handlers := after.heap.handlers
          modules := after.heap.modules
          constants := after.heap.constants
          phase := .idle
          collections := before.heap.collections + 1
          counters :=
            { before.heap.counters with
              minorCollections := before.heap.counters.minorCollections + 1
              totalPromoted :=
                before.heap.counters.totalPromoted
                + before.extentOf contract objects * wordBytes
              lastCopied := before.extentOf contract objects * wordBytes } }
  outline
    : after.heap.regions.outline
      = { before.heap.regions with birth := before.heap.regions.birth.reset }.outline
  recent : after.heap.regions.fixed.recent = []
  copied : after.heap.regions.copied = before.extentOf contract objects
  dirty : after.heap.constants.dirty = before.heap.constants.clearDirty.dirty

variable {contract : Contract σ} {world : World σ δ}

/-- What was traced has been promoted, and nothing else has changed. -/
theorem PromotesAll.of_done {traced final : World σ δ} {trail : Trail} (sound : world.Sound contract)
    (addressable : world.Addressable)
    (done
      : (Pass.ofMinor contract world).Done world.heap (contract.roots world.host) trail traced)
    {log : List Event}
    (comes
      : World.Comes { heap := Collector.minorStart world.heap, host := world.host, log } traced)
    (recent : traced.heap.regions.fixed.recent = [])
    (counts : Collector.CountsCopies world.heap.regions.old.cursor traced.heap.regions)
    (kept : final.host = traced.host) (heap : final.heap = Collector.minorEnd traced.heap)
    (collects : world.Collects final)
    : world.PromotesAll contract trail.moved ((Pass.ofMinor contract world).relocated trail)
        final := by
  have progress := done.standing.moment.progress
  have reset : final.heap
      = { Collector.resetYoung traced.heap with phase := .idle, counters := final.heap.counters } := by
    rw [heap]
    rfl
  have leaves := done.leaves_ofMinor sound kept reset
  have tables : world.heap.SameTables traced.heap :=
    ⟨comes.tables.frames, comes.tables.handlers, comes.tables.modules, comes.tables.limit,
      comes.tables.capacity, comes.tables.groups⟩
  have numbered : final.heap.collections = world.heap.collections + 1 := by
    rw [heap]
    exact (congrArg Heap.collections comes.rest :)
  have full := Pass.full_ofMinor sound
  have destination := Pass.destination_ofMinor sound
  have base : (Pass.ofMinor contract world).base = world.heap.regions.old.cursor := by
    rw [Pass.base, destination]
  have taken : traced.heap.regions.old.cursor
      = world.heap.regions.old.cursor + world.extentOf contract trail.moved := by
    have cursor := progress.cursor
    rw [done.standing.moment.destination_of_minor full, base] at cursor
    exact cursor
  have copied : traced.heap.regions.copied = world.extentOf contract trail.moved := by
    have counted := counts.copied
    omega
  refine
    { toPromotes := .of_done sound addressable done kept reset tables numbered
      collects
      nodup := progress.nodup
      cursor := by rw [heap]; exact taken
      recent := by rw [heap]; exact recent
      copied := by rw [heap]; exact copied
      members := fun object => ⟨fun moved => ?_, fun there => ?_⟩
      slotted := fun space offset slot => ?_
      unslotted := fun space offset stays plain => ?_
      heap := ?_
      outline := ?_
      dirty := ?_ }
  · obtain ⟨valid, traced, moves⟩ := progress.met object moved
    exact ⟨valid, (Pass.moves_ofMinor sound).mp moves, Pass.met_ofMinor traced⟩
  · obtain ⟨valid, birth, met⟩ := there
    exact (done.settled_ofMinor sound rfl met object (Value.address?_toValue valid)).1
      ((Pass.moves_ofMinor sound).mpr birth)
  · rw [Pass.cell_afterMinor reset]
    exact (done.slot_ofMinor sound slot).2
  · rw [Pass.cell_afterMinor reset]
    refine progress.stays space offset (stays.imp id fun old => ⟨full, old.1, ?_⟩) fun noted => ?_
    · rw [base]
      exact old.2
    · exact plain (Pass.slot_of_noted sound.wellFormed noted)
  · have ends := congrArg Collector.minorEnd comes.rest
    rw [heap, ← copied]
    exact ends
  · have outline := congrArg (fun regions : Regions δ =>
      { regions with birth := regions.birth.reset }) progress.evolves.outline
    rw [heap]
    exact outline
  · have dirty := congrArg (fun dirty : Array Bool => Array.replicate dirty.size false) comes.dirty
    rw [heap]
    exact dirty

/-- A minor collection of a sound heap comes to its end and promotes the birth objects that were met. -/
theorem Sound.minor_promotes (sound : world.Sound contract) (addressable : world.Addressable)
    {host : Host σ δ} (faithful : host.Traces contract) (reason : Reason)
    : Ends (Collector.minor host reason) world fun _ final =>
        ∃ objects move, world.PromotesAll contract objects move final := by
  let counts := Collector.CountsCopies (δ := δ) world.heap.regions.old.cursor
  have counting : Regions.Invariant counts := Collector.invariant_countsCopies _
  have counted : ∀ log,
      Runs (Collector.traceMinor host world.heap.regions.old)
        { heap := Collector.minorStart world.heap, host := world.host, log }
        (fun _ traced => counts traced.heap.regions ∧ True)
        fun _ stopped => counts stopped.heap.regions ∧ True := fun _ =>
    Collector.maintains_traceMinor counting host.keeps_true
      (fun _ here => ⟨here.minor, here.copied⟩) _ ⟨sound.regular.target, rfl⟩ trivial
  have traces : Ends (Collector.minor host reason) world fun _ final =>
      world.Collects final → ∃ objects move, world.PromotesAll contract objects move final := by
    refine Collector.runs_minor_counted fun log => ?_
    refine ((Pass.traceMinor_done sound addressable faithful log).and (counted log)).mono ?_ ?_
    · intro _ traced reached final kept heap collects
      obtain ⟨⟨trail, done, comes, recent⟩, copies, -⟩ := reached
      exact ⟨_, _, .of_done sound addressable done comes recent copies kept heap collects⟩
    · exact fun _ _ never => never.1
  have collects := Collector.collects_minor host reason sound.regular
  refine (collects.and traces).mono ?_ fun _ _ never => never.2
  exact fun _ final reached => reached.2 reached.1

end World

end MovingHeap
