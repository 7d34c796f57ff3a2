import Mathlib.Algebra.Group.Nat.Even
import MovingHeap.Proofs.Safeguards
import MovingHeap.Proofs.Turns

/-! What the accounts of collections say, for every host and whatever was done before.
Figures that different parts of a heap keep at different moments agree whenever no collection runs, with
one another and with the collections that the log tells of.
-/

namespace MovingHeap

variable {σ δ α : Type}

-----------------------------------------------------------------------------------------
-- Balanced ledgers
-----------------------------------------------------------------------------------------

/-- Bytes that were copied since the old region was last replaced, by collections listed from the newest
one.
-/
def Completion.kept : List Completion → Nat
  | [] => 0
  | .minor _ promoted :: earlier => promoted + kept earlier
  | .full _ copied _ :: _ => copied

/-- The figures of a ledger agree. -/
structure Ledger.Balanced (ledger : Ledger) : Prop where
  allocated
    : ledger.counters.fixedAllocated = ledger.fixedLive + ledger.counters.fixedReclaimed
  destroyed : ledger.counters.destructorsRun ≤ ledger.counters.fixedReclaimed
  side : ledger.oldSpace = if Even ledger.counters.fullCollections then .oldA else .oldB
  numbered : ledger.completions.map Completion.id = (List.range ledger.collections).reverse
  minors : ledger.counters.minorCollections = ledger.completions.countP (!·.isFull)
  fulls : ledger.counters.fullCollections = ledger.completions.countP (·.isFull)
  promoted : ledger.counters.totalPromoted = (ledger.completions.map Completion.promoted).sum
  last : ledger.counters.lastCopied = (ledger.completions.head?.map Completion.copied).getD 0
  reclaimed : ledger.counters.fixedReclaimed = (ledger.completions.map Completion.reclaimed).sum
  old : ledger.oldCursor * wordBytes = Completion.kept ledger.completions

namespace Ledger

/-- Nothing was done on a new heap. -/
theorem balanced_opening (config : Config) : (opening config).Balanced :=
  ⟨rfl, Nat.le_refl _, rfl, rfl, rfl, rfl, rfl, rfl, rfl, rfl⟩

/-- Every posting keeps the figures in agreement, one kind of posting after another. -/
theorem Balanced.post {ledger : Ledger} (balanced : ledger.Balanced) {posting : Posting}
    (admits : ledger.Admits posting)
    : (ledger.post posting).Balanced := by
  cases posting with
  | request | handOut =>
      obtain ⟨allocated, destroyed, side, numbered, minors, fulls, promoted, last, reclaimed, old⟩ :=
        balanced
      exact ⟨allocated, destroyed, side, numbered, minors, fulls, promoted, last, reclaimed, old⟩
  | lodge words =>
      obtain ⟨allocated, destroyed, side, numbered, minors, fulls, promoted, last, reclaimed, old⟩ :=
        balanced
      refine ⟨?_, destroyed, side, numbered, minors, fulls, promoted, last, reclaimed, old⟩
      simp only [Ledger.post]
      omega
  | minor words =>
      refine ⟨balanced.allocated, balanced.destroyed, balanced.side, ?_, ?_, ?_, ?_, rfl, ?_, ?_⟩
      · rw [Ledger.post, List.map_cons, balanced.numbered, List.range_succ, List.reverse_concat]
        rfl
      · rw [Ledger.post, List.countP_cons_of_pos rfl, balanced.minors]
      · rw [Ledger.post, List.countP_cons_of_neg Bool.false_ne_true, balanced.fulls]
      · simp only [Ledger.post, List.map_cons, List.sum_cons, balanced.promoted]
        exact Nat.add_comm _ _
      · simp only [Ledger.post, List.map_cons, List.sum_cons, balanced.reclaimed]
        exact (Nat.zero_add _).symm
      · simp only [Ledger.post, Nat.add_mul, balanced.old]
        exact Nat.add_comm _ _
  | full copied reclaimed destroyed left =>
      obtain ⟨fewer, called⟩ := admits
      have allocated := balanced.allocated
      have former := balanced.destroyed
      refine ⟨?_, ?_, ?_, ?_, ?_, ?_, ?_, rfl, ?_, rfl⟩
      · simp only [Ledger.post]
        omega
      · simp only [Ledger.post]
        omega
      · simp only [Ledger.post, balanced.side, Nat.even_add_one]
        split_ifs <;> rfl
      · rw [Ledger.post, List.map_cons, balanced.numbered, List.range_succ, List.reverse_concat]
        rfl
      · rw [Ledger.post, List.countP_cons_of_neg Bool.false_ne_true, balanced.minors]
      · rw [Ledger.post, List.countP_cons_of_pos rfl, balanced.fulls]
      · simp only [Ledger.post, List.map_cons, List.sum_cons, balanced.promoted]
        exact (Nat.zero_add _).symm
      · simp only [Ledger.post, List.map_cons, List.sum_cons, balanced.reclaimed]
        exact Nat.add_comm _ _

/-- Every collection that has begun has ended, as one of either kind. -/
theorem Balanced.collections {ledger : Ledger} (balanced : ledger.Balanced)
    : ledger.collections
      = ledger.counters.minorCollections + ledger.counters.fullCollections := by
  have numbered := congrArg List.length balanced.numbered
  have apart := List.length_eq_countP_add_countP Completion.isFull (l := ledger.completions)
  simp only [List.length_map, List.length_reverse, List.length_range] at numbered
  rw [balanced.minors, balanced.fulls, ← numbered, apart, Nat.add_comm]
  simp

end Ledger

-----------------------------------------------------------------------------------------
-- Accounts
-----------------------------------------------------------------------------------------

namespace World

/-- What the accounts of a heap say of the fixed objects and of the collections that have ended, the
newest of which is told first.
-/
structure Accounts (world : World σ δ) (told : List Completion) : Prop where
  allocated
    : world.heap.statistics.fixedAllocated
      = world.heap.statistics.fixedLive + world.heap.statistics.fixedReclaimed
  destroyed : world.heap.statistics.destructorsRun ≤ world.heap.statistics.fixedReclaimed
  reclaimed : world.heap.statistics.fixedReclaimed = (told.map Completion.reclaimed).sum
  liveObjects
    : world.heap.statistics.fixedLive
      = world.heap.regions.fixed.slots.countP FixedSlot.isLive
  liveBytes
    : world.heap.statistics.fixedLiveBytes
      = 8 * FixedSpace.occupiedWords world.heap.regions.fixed.slots
  nextId
    : world.heap.collections
      = world.heap.statistics.minorCollections + world.heap.statistics.fullCollections
  numbered : told.map Completion.id = (List.range world.heap.collections).reverse
  minors : world.heap.statistics.minorCollections = told.countP (!·.isFull)
  fulls : world.heap.statistics.fullCollections = told.countP (·.isFull)
  side : world.heap.regions.old.space = .oldA ↔ Even world.heap.statistics.fullCollections
  oldUsed : world.heap.statistics.oldUsed = Completion.kept told
  lastCopied
    : world.heap.statistics.lastCopied = (told.head?.map Completion.copied).getD 0
  totalPromoted
    : world.heap.statistics.totalPromoted = (told.map Completion.promoted).sum

/-- The collection adds one to what the log tells of, a minor one that copied as many words as the old
region grew by.
-/
structure CountsMinor (before after : World σ δ) : Prop where
  grown : before.heap.regions.old.cursor ≤ after.heap.regions.old.cursor
  space : after.heap.regions.old.space = before.heap.regions.old.space
  lastCopied
    : after.heap.statistics.lastCopied
      = 8 * (after.heap.regions.old.cursor - before.heap.regions.old.cursor)
  totalPromoted
    : after.heap.statistics.totalPromoted
      = before.heap.statistics.totalPromoted + after.heap.statistics.lastCopied
  told
    : after.completions
      = .minor before.heap.collections after.heap.statistics.lastCopied :: before.completions

/-- The collection adds one to what the log tells of, a full one that copied as many words as the old
region holds and freed as many fixed objects as are gone.
-/
structure CountsFull (before after : World σ δ) : Prop where
  space : after.heap.regions.old.space = before.heap.regions.old.space.flipped
  lastCopied : after.heap.statistics.lastCopied = 8 * after.heap.regions.old.cursor
  totalPromoted
    : after.heap.statistics.totalPromoted = before.heap.statistics.totalPromoted
  freed : after.heap.statistics.fixedLive ≤ before.heap.statistics.fixedLive
  told
    : after.completions
      = .full before.heap.collections after.heap.statistics.lastCopied
          (before.heap.statistics.fixedLive - after.heap.statistics.fixedLive)
        :: before.completions

/-- A balanced ledger and right counts of fixed objects make the accounts. -/
theorem accounts_of_balanced {world : World σ δ} (balanced : world.ledger.Balanced)
    (counted : world.heap.regions.fixed.Counted)
    : world.Accounts world.completions where
  allocated := balanced.allocated
  destroyed := balanced.destroyed
  reclaimed := balanced.reclaimed
  liveObjects := counted.objects
  liveBytes := (congrArg (· * wordBytes) counted.words).trans (Nat.mul_comm _ _)
  nextId := balanced.collections
  numbered := balanced.numbered
  minors := balanced.minors
  fulls := balanced.fulls
  side := by
    have side : world.heap.regions.old.space
        = if Even world.heap.counters.fullCollections then .oldA else .oldB := balanced.side
    rw [side]
    split_ifs with even
    · exact ⟨fun _ => even, fun _ => rfl⟩
    · exact ⟨nofun, fun other => absurd other even⟩
  oldUsed := balanced.old
  lastCopied := balanced.last
  totalPromoted := balanced.promoted

/-- Where a minor collection is posted, it is counted. -/
theorem countsMinor_of_posted {before after : World σ δ} {promoted : Nat}
    (ledger : after.ledger = before.ledger.post (.minor promoted))
    : before.CountsMinor after := by
  have cursor : after.heap.regions.old.cursor = before.heap.regions.old.cursor + promoted :=
    congrArg Ledger.oldCursor ledger
  have last : after.heap.statistics.lastCopied = promoted * wordBytes :=
    congrArg (fun ledger => ledger.counters.lastCopied) ledger
  refine ⟨by omega, congrArg Ledger.oldSpace ledger, ?_, ?_, ?_⟩
  · rw [last, cursor, Nat.add_sub_cancel_left, Nat.mul_comm]
    rfl
  · rw [last]
    exact congrArg (fun ledger => ledger.counters.totalPromoted) ledger
  · rw [last]
    exact congrArg Ledger.completions ledger

/-- Where a full collection is posted, it is counted. -/
theorem countsFull_of_posted {before after : World σ δ} {copied reclaimed destroyed left : Nat}
    (admits : before.ledger.Admits (.full copied reclaimed destroyed left))
    (ledger : after.ledger = before.ledger.post (.full copied reclaimed destroyed left))
    : before.CountsFull after := by
  have cursor : after.heap.regions.old.cursor = copied := congrArg Ledger.oldCursor ledger
  have last : after.heap.statistics.lastCopied = copied * wordBytes :=
    congrArg (fun ledger => ledger.counters.lastCopied) ledger
  have live : after.heap.statistics.fixedLive = before.heap.statistics.fixedLive - reclaimed :=
    congrArg Ledger.fixedLive ledger
  have fewer : reclaimed ≤ before.heap.statistics.fixedLive := admits.1
  refine ⟨congrArg Ledger.oldSpace ledger, ?_, ?_, by omega, ?_⟩
  · rw [last, cursor, Nat.mul_comm]
    rfl
  · exact congrArg (fun ledger => ledger.counters.totalPromoted) ledger
  · rw [last, live, Nat.sub_sub_self fewer]
    exact congrArg Ledger.completions ledger

/-- In every run with any hosts, whenever no collection runs the accounts are exact, and so is what any
collection that may start there counts when it comes to its end.
-/
theorem collection_accounts_exact {world : World σ δ} (reachable : world.Reachable)
    (idle : world.heap.phase = .idle)
    : world.Accounts world.completions
      ∧ ∀ begun,
          world.Launches begun →
          ∀ (host : Host σ δ) (reason : Reason),
            Runs (Collector.minor host reason) begun
              (fun _ final => begun.CountsMinor final ∧ final.Accounts final.completions)
              (fun _ final => final.heap.phase ≠ .idle)
            ∧ Runs (Collector.full host reason) begun
                (fun _ final => begun.CountsFull final ∧ final.Accounts final.completions)
                fun _ final => final.heap.phase ≠ .idle := by
  have posts := fun (ledger : Ledger) (posting : Posting) (admits : ledger.Admits posting)
    (balanced : ledger.Balanced) => balanced.post admits
  have balanced := reachable.posted Ledger.balanced_opening posts idle
  refine ⟨accounts_of_balanced balanced (reachable.countable idle).kept.toCounted, ?_⟩
  intro begun launches host reason
  have countable := launches.countable reachable idle
  have rests := (launches.ready reachable idle).2
  have former := launches.posted posts reachable idle balanced
  constructor
  · refine ((Collector.posted_minor host reason countable rests).and
      (Collector.idle_minor host reason begun)).mono (fun _ final reached => ?_) fun _ _ => And.right
    obtain ⟨⟨⟨promoted, ledger⟩, counts⟩, -⟩ := reached
    refine ⟨countsMinor_of_posted ledger, accounts_of_balanced ?_ counts.kept.toCounted⟩
    exact ledger ▸ former.post trivial
  · refine ((Collector.posted_full host reason countable rests).and
      (Collector.idle_full host reason begun)).mono (fun _ final reached => ?_) fun _ _ => And.right
    obtain ⟨⟨⟨_, _, _, _, admits, ledger⟩, counts⟩, -⟩ := reached
    refine ⟨countsFull_of_posted admits ledger, accounts_of_balanced ?_ counts.kept.toCounted⟩
    exact ledger ▸ former.post admits

end World

namespace Record

/-- Behind a fixed object that nothing refers to, a minor collection ran and then a full one. -/
def sweptWorld : World HostState Destructor :=
  (youngWorld.after ((Operation.allocateFixed 16 (some .log) false).run host)).after
    (Operation.collectMinor.run host)

end Record

/-- The record was copied twice and the fixed object freed; a third collection copies the record again. -/
theorem World.collection_accounts_exact_swept
    : Record.sweptWorld.Reachable
      ∧ Record.sweptWorld.heap.phase = .idle
      ∧ Record.sweptWorld.completions = [.full 1 16 1, .minor 0 16]
      ∧ Record.sweptWorld.Accounts [.full 1 16 1, .minor 0 16]
      ∧ Ends (Collector.full Record.host .requestedByUser) Record.sweptWorld fun _ final =>
          final.completions = [.full 2 16 0, .full 1 16 1, .minor 0 16]
          ∧ Record.sweptWorld.CountsFull final := by
  have reachable : Record.sweptWorld.Reachable :=
    .operate Record.host _ (.operate Record.host _ Record.conforming_young.reachable)
  have idle : Record.sweptWorld.heap.phase = .idle := by decide +kernel
  have told : Record.sweptWorld.completions = [.full 1 16 1, .minor 0 16] := by decide +kernel
  have ends : Ends (Collector.full Record.host .requestedByUser) Record.sweptWorld fun _ final =>
      final.completions = [.full 2 16 0, .full 1 16 1, .minor 0 16] := by
    decide +kernel
  obtain ⟨accounts, collections⟩ := collection_accounts_exact reachable idle
  have counts := (collections _ .here Record.host .requestedByUser).2
  rw [told] at accounts
  refine ⟨reachable, idle, told, accounts, (ends.and counts).mono ?_ fun _ _ => And.left⟩
  exact fun _ _ reached => ⟨reached.1, reached.2.1⟩

end MovingHeap
