import MovingHeap.Proofs.Completions
import MovingHeap.Proofs.FixedRuns
import MovingHeap.Proofs.LockedHeaps
import MovingHeap.Proofs.Promotions

/-! What a heap keeps account of, as a ledger that every change is posted to.
A ledger has figures in place of memory; a collection posts how much it copied and freed, which no
callback of a host decides for it.
-/

namespace MovingHeap

variable {σ δ α β : Type}

/-- The counters but for those of the write barrier. -/
def Counters.unbarred (counters : Counters) : Counters :=
  { counters with barrierRecords := 0, barrierDuplicates := 0 }

/-- What a heap keeps account of. Regions are measured in words. -/
@[ext] structure Ledger where
  config : Config
  phase : Phase
  /-- Why a full collection is pending. -/
  pendingFull : Option Reason
  /-- Live fixed words above which a full collection becomes pending. -/
  fixedThreshold : Nat
  /-- Collections begun. -/
  collections : Nat
  counters : Counters
  birthCursor : Nat
  birthCapacity : Nat
  birthMargin : Nat
  oldSpace : Space
  oldCursor : Nat
  fixedLive : Nat
  fixedWords : Nat
  /-- The collections that have ended, the newest first. -/
  completions : List Completion

/-- The ledger as it stands. -/
def World.ledger (world : World σ δ) : Ledger where
  config := world.heap.config
  phase := world.heap.phase
  pendingFull := world.heap.pendingFull
  fixedThreshold := world.heap.fixedThreshold
  collections := world.heap.collections
  counters := world.heap.counters.unbarred
  birthCursor := world.heap.regions.birth.cursor
  birthCapacity := world.heap.regions.birth.capacity
  birthMargin := world.heap.regions.birth.margin
  oldSpace := world.heap.regions.old.space
  oldCursor := world.heap.regions.old.cursor
  fixedLive := world.heap.regions.fixed.liveObjects
  fixedWords := world.heap.regions.fixed.liveWords
  completions := world.completions

/-- What changes a ledger. -/
inductive Posting where
  /-- A full collection is asked for. -/
  | request (reason : Reason)
  /-- A fixed object takes a slot of as many words. -/
  | lodge (words : Nat)
  /-- Words of the birth region are handed out. -/
  | handOut (words : Nat)
  /-- A minor collection copies words. -/
  | minor (promoted : Nat)
  /-- A full collection copies words, frees objects, calls some of their destructors and leaves live
  fixed words.
  -/
  | full (copied reclaimed destroyed left : Nat)

namespace Posting

/-- Whether a collection is posted. -/
def isCollection : Posting → Bool
  | minor .. | full .. => true
  | _ => false

end Posting

namespace Ledger

/-- The ledger with a change posted to it. -/
def post (ledger : Ledger) : Posting → Ledger
  | .request reason => { ledger with pendingFull := ledger.pendingFull <|> some reason }
  | .lodge words =>
      let grown := ledger.fixedThreshold < ledger.fixedWords + words
      { ledger with
        counters := { ledger.counters with fixedAllocated := ledger.counters.fixedAllocated + 1 }
        fixedLive := ledger.fixedLive + 1
        fixedWords := ledger.fixedWords + words
        pendingFull :=
          if grown then ledger.pendingFull <|> some .fixedSpaceGrowth else ledger.pendingFull }
  | .handOut words => { ledger with birthCursor := ledger.birthCursor + words }
  | .minor promoted =>
      { ledger with
        collections := ledger.collections + 1
        counters :=
          { ledger.counters with
            minorCollections := ledger.counters.minorCollections + 1
            totalPromoted := ledger.counters.totalPromoted + promoted * wordBytes
            lastCopied := promoted * wordBytes }
        birthCursor := 0
        oldCursor := ledger.oldCursor + promoted
        completions :=
          .minor ledger.collections (promoted * wordBytes) :: ledger.completions }
  | .full copied reclaimed destroyed left =>
      { ledger with
        pendingFull := none
        fixedThreshold := max ledger.config.fixedThresholdWords (left * 2)
        collections := ledger.collections + 1
        counters :=
          { ledger.counters with
            fullCollections := ledger.counters.fullCollections + 1
            lastCopied := copied * wordBytes
            fixedReclaimed := ledger.counters.fixedReclaimed + reclaimed
            destructorsRun := ledger.counters.destructorsRun + destroyed }
        birthCursor := 0
        oldSpace := ledger.oldSpace.flipped
        oldCursor := copied
        fixedLive := ledger.fixedLive - reclaimed
        fixedWords := left
        completions :=
          .full ledger.collections (copied * wordBytes) reclaimed :: ledger.completions }

/-- No more is freed than lives, and no more destructors are called than objects are freed. -/
def Admits (ledger : Ledger) : Posting → Prop
  | .full _ reclaimed destroyed _ => reclaimed ≤ ledger.fixedLive ∧ destroyed ≤ reclaimed
  | _ => True

end Ledger

-----------------------------------------------------------------------------------------
-- Counting what is copied
-----------------------------------------------------------------------------------------

/-- No collection runs, and the fixed space is in order and counted. -/
structure Regions.Countable (regions : Regions δ) : Prop where
  target : regions.target = none
  kept : regions.fixed.Kept

/-- The counts of fixed objects are right as long as memory keeps its outline. -/
theorem Regions.Evolves.counted {before now : Regions δ} (evolves : before.Evolves now)
    (counted : before.fixed.Counted)
    : now.fixed.Counted
      ∧ now.fixed.liveObjects = before.fixed.liveObjects
      ∧ now.fixed.liveWords = before.fixed.liveWords := by
  have objects : now.fixed.liveObjects = before.fixed.liveObjects :=
    congrArg (fun regions => regions.fixed.liveObjects) evolves.outline
  have words : now.fixed.liveWords = before.fixed.liveWords :=
    congrArg (fun regions => regions.fixed.liveWords) evolves.outline
  have unmarked : ∀ space : FixedSpace δ,
      { space with slots := space.unmarkedSlots }.Counted ↔ space.Counted := by
    intro space
    have live : FixedSlot.isLive ∘ FixedSlot.unmarked (δ := δ) = FixedSlot.isLive :=
      funext FixedSlot.isLive_unmarked
    have sizes : FixedSlot.capacity ∘ FixedSlot.unmarked (δ := δ) = FixedSlot.capacity :=
      funext FixedSlot.capacity_unmarked
    have count : space.unmarkedSlots.countP FixedSlot.isLive
        = space.slots.countP FixedSlot.isLive := by
      rw [FixedSpace.unmarkedSlots, List.countP_map, live]
    have occupied : FixedSpace.occupiedWords space.unmarkedSlots
        = FixedSpace.occupiedWords space.slots := by
      rw [FixedSpace.unmarkedSlots, FixedSpace.occupiedWords, List.filter_map, List.map_map, live,
        sizes, FixedSpace.occupiedWords]
    constructor
    · exact fun counts => ⟨counts.objects.trans count, counts.words.trans occupied⟩
    · exact fun counts => ⟨counts.objects.trans count.symm, counts.words.trans occupied.symm⟩
  refine ⟨(unmarked _).mp ?_, objects, words⟩
  have former := (unmarked _).mpr counted
  refine ⟨?_, ?_⟩
  · dsimp only
    rw [evolves.slots, objects]
    exact former.objects
  · dsimp only
    rw [evolves.slots, words]
    exact former.words

namespace Collector

/-- As many words are taken in the region that is copied to as are counted, step by step. -/
theorem invariant_copied (base : Nat)
    : Regions.Invariant fun regions : Regions δ =>
        regions.destination.cursor = base + regions.copied where
  fill regions words same := by
    rw [Regions.destination_setDestination, Regions.copied_setDestination]
    exact same
  relocate regions words extended count object young _ admitted same := by
    have bumped : extended.cursor = regions.destination.cursor + count := by
      rw [(Regions.admit?_eq_some admitted).1]
      rfl
    have cursor : (relocated regions (regions.destination.fillTail words) extended object young
        count).destination.cursor = extended.cursor := by
      refine (Pass.cursor_bury _ _ _ _).trans ?_
      rw [Regions.destination_setDestination]
    rw [cursor, copied_relocated, bumped, same, Nat.add_assoc]
  mark _ _ _ _ _ _ same := same
  pop _ _ _ _ same := same
  store regions next addr word done same := by
    obtain ⟨-, -, -, cursor⟩ := frame_setWord? done
    rw [cursor, Regions.copied_setWord? done]
    exact same

end Collector

-----------------------------------------------------------------------------------------
-- Collections
-----------------------------------------------------------------------------------------

/-- Logs that tell of the same collections belong to the same ledger. -/
theorem World.ledger_log (world : World σ δ) {log : List Event}
    (logged : log.filterMap Event.completion? = world.completions)
    : ({ world with log } : World σ δ).ledger = world.ledger := by
  have same : ({ world with log } : World σ δ).completions = world.completions := logged
  rw [ledger, same]
  rfl

/-- While a collection traces, only its phase and the old cursor change on the ledger. -/
theorem World.Comes.ledger {before now : World σ δ} (comes : before.Comes now)
    (completed : now.completions = before.completions)
    : now.ledger
      = { before.ledger with
          phase := now.heap.phase
          oldCursor := now.heap.regions.old.cursor } := by
  have rest := comes.rest
  have outline := comes.regions.outline
  ext1
  · exact (congrArg Heap.config rest :)
  · rfl
  · exact (congrArg Heap.pendingFull rest :)
  · exact (congrArg Heap.fixedThreshold rest :)
  · exact (congrArg Heap.collections rest :)
  · exact (congrArg (fun heap => heap.counters.unbarred) rest :)
  · exact comes.regions.birthCursor
  · exact comes.regions.birthSize
  · exact comes.regions.margin
  · exact comes.regions.oldSpace
  · rfl
  · exact congrArg (fun regions => regions.fixed.liveObjects) outline
  · exact congrArg (fun regions => regions.fixed.liveWords) outline
  · exact completed

/-- A sweep frees objects that lived, calls some of their destructors and keeps the counts right. -/
theorem FixedSpace.Kept.sweep {space : FixedSpace δ} (kept : space.Kept)
    {destroy : δ → Address → List Word → σ → Reply σ (List Word)} {host : σ} {swept : Swept σ δ}
    (sweeps : space.sweep destroy host = .ok swept)
    : swept.space.clearFresh.Kept
      ∧ swept.outcome.reclaimed ≤ space.liveObjects
      ∧ swept.outcome.destroyed ≤ swept.outcome.reclaimed
      ∧ swept.space.liveObjects = space.liveObjects - swept.outcome.reclaimed := by
  obtain ⟨other, again, clean, -⟩ := kept.toConsistent.sweep destroy host
  obtain rfl : other = swept := Except.ok.inj (again.symm.trans sweeps)
  have consistent := clean.consistent
  have counted := kept.toCounted.sweep sweeps
  refine ⟨⟨⟨consistent.stacked, consistent.fits, consistent.vacantNodup, consistent.mem_vacant⟩,
    ⟨counted.objects, counted.words⟩⟩, ?_⟩
  have objects := kept.objects
  obtain ⟨live, -⟩ := live_swept space.slots
  unfold FixedSpace.sweep at sweeps
  split at sweeps
  · cases sweeps
  · cases sweeps
    refine ⟨?_, List.countP_le_length, rfl⟩
    dsimp only
    omega

namespace Collector

/-- A minor collection posts the words that it copied, by which the old region grew. -/
theorem posted_minor (host : Host σ δ) (reason : Reason) {world : World σ δ}
    (countable : world.heap.regions.Countable) (idle : world.heap.phase = .idle)
    : Runs (minor host reason) world
        (fun _ final =>
          (∃ promoted, final.ledger = world.ledger.post (.minor promoted))
          ∧ final.heap.regions.Countable)
        fun _ _ => True := by
  refine runs_minor_completed fun log logged => ?_
  have target : (minorStart world.heap).regions.target = none := countable.target
  have begun : (minorStart world.heap).regions.destination.cursor
      = world.heap.regions.old.cursor + (minorStart world.heap).regions.copied := by
    simp only [Regions.destination, target, Option.getD_none]
    rfl
  refine Runs.mono ((tends_traceMinor host _ _).and ((maintains_traceMinor (invariant_copied _)
    host.keeps_true (fun _ => id) _ begun trivial).and (unaltered_traceMinor host _ _)))
    (fun _ traced reached => ?_) fun _ _ _ => trivial
  obtain ⟨comes, ⟨copied, -⟩, completed⟩ := reached
  have gone : traced.heap.regions.target = none := by
    have same := comes.regions.isFull
    simpa [Regions.isFull, target] using same
  simp only [Regions.destination, gone, Option.getD_none] at copied
  intro final heap completions
  refine ⟨⟨traced.heap.regions.copied, ?_⟩, ?_⟩
  · have ends : final.ledger
        = { traced.ledger with
            phase := .idle
            counters :=
              { traced.ledger.counters with
                minorCollections := traced.ledger.counters.minorCollections + 1
                totalPromoted :=
                  traced.ledger.counters.totalPromoted + traced.heap.regions.copied * wordBytes
                lastCopied := traced.heap.regions.copied * wordBytes }
            birthCursor := 0
            completions := final.completions } := by
      rw [World.ledger, heap]
      rfl
    have start := World.ledger_log
      { heap := minorStart world.heap, host := world.host, log := world.log } logged
    rw [ends, comes.ledger completed, completions, completed, copied, start, ← idle]
    exact congrArg (fun completions => ({ world.ledger.post (.minor traced.heap.regions.copied) with
      completions := .minor _ _ :: completions } : Ledger)) logged
  · rw [heap]
    exact ⟨gone, comes.regions.consistent countable.kept.toConsistent,
      (comes.regions.counted countable.kept.toCounted).1⟩

/-- A full collection posts the words that it copied, which are all there are in the old region, and what
it freed.
-/
theorem posted_full (host : Host σ δ) (reason : Reason) {world : World σ δ}
    (countable : world.heap.regions.Countable) (idle : world.heap.phase = .idle)
    : Runs (full host reason) world
        (fun _ final =>
          (∃ copied reclaimed destroyed left,
            world.ledger.Admits (.full copied reclaimed destroyed left)
            ∧ final.ledger = world.ledger.post (.full copied reclaimed destroyed left))
          ∧ final.heap.regions.Countable)
        fun _ _ => True := by
  refine runs_full_completed fun words log logged => ?_
  have begun : (fullStart world.heap words).regions.destination.cursor
      = 0 + (fullStart world.heap words).regions.copied := rfl
  refine Runs.mono ((comes_traceFull host _ _ rfl).and ((maintains_traceFull (invariant_copied _)
    host.keeps_true _ _ begun trivial).and (unaltered_traceFull host _ _ _)))
    (fun _ traced reached => ?_) fun _ _ _ => trivial
  obtain ⟨comes, ⟨copied, -⟩, completed⟩ := reached
  obtain ⟨counted, objects, -⟩ := comes.regions.counted countable.kept.toCounted
  intro swept sweeps final heap completions
  have consistent := comes.regions.consistent countable.kept.toConsistent
  obtain ⟨kept, fewer, destroyed, live⟩ := FixedSpace.Kept.sweep ⟨consistent, counted⟩ sweeps
  have target : traced.heap.regions.destination.space = world.heap.regions.old.space.flipped :=
    comes.regions.destinationSpace
  refine ⟨⟨traced.heap.regions.copied, swept.outcome.reclaimed, swept.outcome.destroyed,
    swept.space.liveWords, ⟨fewer.trans (Nat.le_of_eq objects), destroyed⟩, ?_⟩, ?_⟩
  · have ends : final.ledger
        = { traced.ledger with
            phase := .idle
            pendingFull := none
            fixedThreshold :=
              max traced.ledger.config.fixedThresholdWords (swept.space.liveWords * 2)
            counters := (fullCounters traced.heap swept.outcome).unbarred
            birthCursor := 0
            oldSpace := traced.heap.regions.destination.space
            oldCursor := traced.heap.regions.destination.cursor
            fixedLive := swept.space.liveObjects
            fixedWords := swept.space.liveWords
            completions := final.completions } := by
      rw [World.ledger, heap]
      rfl
    have counters : (fullCounters traced.heap swept.outcome).unbarred
        = { traced.ledger.counters with
            fullCollections := traced.ledger.counters.fullCollections + 1
            lastCopied := traced.heap.regions.copied * wordBytes
            fixedReclaimed := traced.ledger.counters.fixedReclaimed + swept.outcome.reclaimed
            destructorsRun := traced.ledger.counters.destructorsRun + swept.outcome.destroyed } :=
      rfl
    have start := World.ledger_log
      { heap := fullStart world.heap words, host := (host.beforeFull world.host).host,
        log := world.log } logged
    rw [ends, counters, comes.ledger completed, completions, completed, copied, target, live, objects,
      start, Nat.zero_add, ← idle]
    exact congrArg (fun completions => ({ world.ledger.post (.full traced.heap.regions.copied
      swept.outcome.reclaimed swept.outcome.destroyed swept.space.liveWords) with
      completions := .full _ _ _ :: completions } : Ledger)) logged
  · rw [heap]
    exact ⟨rfl, kept⟩

end Collector

end MovingHeap
