import MovingHeap.Proofs.Maintenance
import MovingHeap.Proofs.Strides

/-! The fixed objects that were allocated since the last collection.
Each is listed once and none of them is gone, whatever is asked of the heap, as only a full collection
frees objects and every collection starts the list anew.
-/

namespace MovingHeap

variable {σ δ : Type}

-----------------------------------------------------------------------------------------
-- The list
-----------------------------------------------------------------------------------------

namespace FixedSpace

/-- The fresh objects are listed once each, and each of them is there. -/
structure Listed (space : FixedSpace δ) : Prop where
  nodup : space.recent.Nodup
  live : ∀ start ∈ space.recent, (space.occupant? start).isSome

/-- No object is fresh where none is listed. -/
theorem listed_of_nil {space : FixedSpace δ} (none : space.recent = []) : space.Listed where
  nodup := by
    rw [none]
    exact .nil
  live := by
    rw [none]
    exact nofun

/-- Marks do not matter. -/
theorem Listed.alike {first second : FixedSpace δ} (listed : first.Listed)
    (recent : second.recent = first.recent) (agree : second.unmarkedSlots = first.unmarkedSlots)
    : second.Listed where
  nodup := by
    rw [recent]
    exact listed.nodup
  live start member := by
    rw [recent] at member
    have there := congrArg Option.isSome (occupant?_alike agree start)
    simp only [Option.isSome_map] at there
    rw [there]
    exact listed.live start member

/-- A new object is not in the list yet, as its slot was vacant. -/
theorem Listed.allocate {space : FixedSpace δ} (listed : space.Listed)
    (consistent : space.Consistent) {words : Nat} (positive : 0 < words) (destructor : Option δ)
    (executable : Bool)
    : (space.allocate words destructor executable).2.Listed := by
  obtain ⟨slot, -, held, reserves⟩ :=
    consistent.reserves_allocate positive destructor executable
  have fresh : slot.start ∉ space.recent := by
    intro member
    have live := listed.live _ member
    rw [reserves.vacant] at live
    cases live
  refine ⟨?_, fun start member => ?_⟩
  · rw [reserves.recent]
    exact List.nodup_cons.mpr ⟨fresh, listed.nodup⟩
  · rw [reserves.recent] at member
    rcases List.mem_cons.mp member with rfl | former
    · rw [reserves.occupant?_start, held]
      rfl
    · have apart : start ≠ slot.start := fun same => fresh (same ▸ former)
      rw [reserves.occupant?_ne consistent apart]
      exact listed.live start former

/-- An object that the host gave up on is there until it is freed. -/
theorem Listed.forget? {space next : FixedSpace δ} (listed : space.Listed) {start : Nat}
    (done : space.forget? start = some next)
    : next.Listed := by
  obtain ⟨occupant, -, rfl⟩ := Option.map_eq_some_iff.mp done
  refine ⟨listed.nodup, fun other member => ?_⟩
  have live := listed.live other member
  rw [occupant?_updateOccupant]
  split_ifs
  · simpa using live
  · exact live

end FixedSpace

-----------------------------------------------------------------------------------------
-- Collections
-----------------------------------------------------------------------------------------

namespace Collector

/-- Marking an object changes nothing but marks. -/
theorem unmarkedSlots_of_mark? {space next : FixedSpace δ} {offset : Nat} {mark : Mark}
    (done : space.mark? offset = some (mark, next))
    : next.unmarkedSlots = space.unmarkedSlots := by
  obtain ⟨start, -, found⟩ := Option.bind_eq_some_iff.mp done
  obtain ⟨occupant, -, result⟩ := Option.map_eq_some_iff.mp found
  split_ifs at result <;> cases result
  · rfl
  · rfl
  · exact FixedSpace.unmarkedSlots_mark space start

/-- Tracing keeps what depends neither on marks nor on words of the fixed space. -/
theorem invariant_fixed (holds : FixedSpace δ → Prop)
    (alike
      : ∀ before after : FixedSpace δ,
          after.recent = before.recent →
          after.unmarkedSlots = before.unmarkedSlots →
          holds before →
          holds after)
    : Regions.Invariant fun regions : Regions δ => holds regions.fixed where
  fill regions words here := by simpa using here
  relocate regions words extended count object young _ _ here := by simpa [relocated] using here
  mark regions offset mark fixed _ done :=
    alike _ _ (recent_of_mark? done) (unmarkedSlots_of_mark? done)
  pop _ _ _ _ here := here
  store regions next addr word done := by
    obtain ⟨recent, slots, -, -⟩ := frame_setWord? done
    exact alike _ _ recent (congrArg (List.map FixedSlot.unmarked) slots)

/-- A minor collection that comes to its end leaves the list in order. -/
theorem listed_minor (host : Host σ δ) (reason : Reason) {world : World σ δ}
    (listed : world.heap.regions.fixed.Listed)
    : Runs (minor host reason) world (fun _ final => final.heap.regions.fixed.Listed)
        fun _ _ => True := by
  apply runs_minor
  intro log
  have invariant := invariant_fixed FixedSpace.Listed fun (_ _ : FixedSpace δ) recent agree listed =>
    listed.alike recent agree
  refine Runs.mono (maintains_traceMinor invariant host.keeps_true
    (fun _ _ => FixedSpace.listed_of_nil rfl) _ ?_ trivial) ?_ ?_
  · exact listed
  · intro _ traced reached final _ same
    rw [same]
    exact reached.1
  · exact fun _ _ _ => trivial

/-- A full collection that comes to its end empties the list. -/
theorem listed_full (host : Host σ δ) (reason : Reason) (world : World σ δ)
    : Runs (full host reason) world (fun _ final => final.heap.regions.fixed.Listed)
        fun _ _ => True := by
  apply runs_full
  · intro words _ log
    refine (runs_anyhow _ _).mono (fun _ traced _ => ?_) fun _ _ _ => trivial
    split
    · intro final _ same
      rw [same]
      exact FixedSpace.listed_of_nil rfl
    · exact fun _ _ => trivial
  · exact fun _ _ _ => trivial

/-- Every collection on demand leaves the list in order, unless it is stopped in the middle. -/
theorem listed_collectFor (host : Host σ δ) (words : Nat) (wantsFull : Bool) (reason : Reason)
    {world : World σ δ} (listed : world.heap.regions.fixed.Listed)
    : Runs (collectFor host words wantsFull reason) world
        (fun _ final => final.heap.regions.fixed.Listed) fun _ _ => True := by
  apply runs_collectFor
  · exact fun _ _ => trivial
  · exact fun _ _ => trivial
  · exact fun _ _ reason => listed_full host reason world
  · intro _ _
    refine (listed_minor host reason listed).mono (fun _ middle reached => ?_) fun _ _ => id
    split_ifs
    · exact listed_full host _ middle
    · exact reached

end Collector

namespace World

/-- Every stride keeps the list in order, unless a collection is stopped in the middle. -/
theorem Stride.listed {host : Host σ δ} {before after : World σ δ}
    (stride : Stride host before after) (steady : before.heap.Steady)
    (listed : before.heap.regions.fixed.Listed) (idle : after.heap.phase = .idle)
    : after.heap.regions.fixed.Listed := by
  have alike : ∀ before after : World σ δ, before.SameMemory after →
      before.heap.regions.fixed.Listed → after.heap.regions.fixed.Listed := by
    intro before after same listed
    rw [same.regions]
    exact listed
  cases stride with
  | bookkeeping same => exact alike before after same listed
  | store done =>
      obtain ⟨recent, slots, -, -⟩ := Collector.frame_setWord? done
      exact listed.alike recent (congrArg (List.map FixedSlot.unmarked) slots)
  | reserve => exact listed
  | record => exact listed
  | @flush slot outside =>
      have recorded : (before.recorded slot).heap.regions.fixed.Listed := listed
      exact holds_after_collectFor alike (regular_recorded steady _) recorded
        (Collector.listed_collectFor host _ _ _ recorded) idle
  | collect =>
      exact holds_after_collectFor alike steady.toRegular listed
        (Collector.listed_collectFor host _ _ _ listed) idle
  | lodge positive same =>
      rw [same.regions]
      exact listed.allocate steady.consistent positive _ _
  | forget done => exact listed.forget? done

/-- In every run the fresh objects are listed once each whenever no collection runs. -/
theorem Reachable.listed {world : World σ δ} (reachable : world.Reachable)
    (idle : world.heap.phase = .idle)
    : world.heap.regions.fixed.Listed := by
  refine Reachable.keeps
    (fun world => world.heap.phase = .idle → world.heap.regions.fixed.Listed) ?_ ?_ ?_ reachable
    idle idle
  · intro mapper config state world created _
    apply FixedSpace.listed_of_nil
    rw [(created_of_create created).1.fixed]
  · intro host before after steady idle stride listed rests
    exact stride.listed steady (listed idle) rests
  · exact fun _ _ listed => listed

/-- The fresh objects are listed once each wherever a collection starts. -/
theorem Launches.listed {world begun : World σ δ} (launches : world.Launches begun)
    (reachable : world.Reachable) (idle : world.heap.phase = .idle)
    : begun.heap.regions.fixed.Listed := by
  induction launches with
  | here => exact reachable.listed idle
  | recorded => exact reachable.listed idle
  | promoted _ ends ih => exact (Collector.listed_minor _ _ ih).of_ok ends

end World

end MovingHeap
