import MovingHeap.Proofs.RenamedCopies

/-! Looking for duplicates among the last records loses none.
Two runs of the same calls, one that looks and one that does not, keep the same slots recorded, and the
minor collection that follows does the same in both.
-/

namespace MovingHeap

variable {σ δ : Type}

namespace World

variable {host : Host σ δ} {world first second : World σ δ}

-----------------------------------------------------------------------------------------
-- Two runs
-----------------------------------------------------------------------------------------

/-- The flag says nothing about memory and tables. -/
theorem steady_deduplicating (steady : world.heap.Steady) (flag : Bool)
    : (world.deduplicating flag).heap.Steady :=
  ⟨⟨steady.toResting, ⟨steady.entered, steady.numbered, steady.ranks, steady.groups, steady.grouped⟩⟩,
    steady.spare⟩

/-- Before the calls, nothing differs but the flag. -/
theorem sameAtRest_deduplicating (idle : world.heap.phase = .idle) (steady : world.heap.Steady)
    : (world.deduplicating true).SameAtRest (world.deduplicating false) where
  host := rfl
  heap := rfl
  words _ _ _ := rfl
  records _ := Iff.rfl
  idle := idle
  steady := steady_deduplicating steady true
  steady' := steady_deduplicating steady false

/-- Calls in two parts. -/
theorem called_append (world : World σ δ) (host : Host σ δ) (calls rest : List BarrierCall)
    : world.called host (calls ++ rest) = (world.called host calls).called host rest := by
  rw [called, called, called, List.map_append, play_append]

/-- Where all calls let no collection begin, the first ones do not. -/
theorem counted_earlier {calls earlier : List BarrierCall} (begins : earlier <+: calls)
    (rests : (world.called host calls).heap.collections = world.heap.collections)
    : (world.called host earlier).heap.collections = world.heap.collections := by
  obtain ⟨rest, rfl⟩ := begins
  rw [called_append] at rests
  have counted := counted_called host world earlier
  have onward := counted_called host (world.called host earlier) rest
  omega

/-- After the last of some calls its slot is a record, if it was reported. -/
theorem remembered_called {calls : List BarrierCall} {call : BarrierCall}
    (idle : (world.called host calls).heap.phase = .idle)
    (steady : (world.called host calls).heap.Steady)
    (rests
      : (world.called host (calls ++ [call])).heap.collections
        = (world.called host calls).heap.collections)
    (reports : call.Reports (world.called host calls))
    : call.slot.raw ∈ (world.called host (calls ++ [call])).heap.regions.birth.remembered := by
  rw [called_append] at rests ⊢
  change call.slot.raw
    ∈ ((world.called host calls).after (call.step host).run).heap.regions.birth.remembered
  rw [(after_call idle rests).1]
  exact remembered_leaves steady reports

/-- A host that plays by the rules in all steps leaves a fixed space that addresses can tell. -/
theorem Plays.addressable {contract : Contract σ} {steps : List (Step σ δ)}
    (plays : world.Plays contract steps)
    : (world.play steps).Addressable := by
  induction steps generalizing world with
  | nil => exact plays
  | cons step rest ih => exact ih plays.2.2

/-- Looking for duplicates loses no slot. In every run, whenever no collection runs, two runs of the
same calls of the write barrier, with and without looking for duplicates, are the same after each call as
long as no collection begins in either: the same slots are recorded, each slot that was reported is one of
them, and all else is the same. If the host plays by the rules, the minor collection that follows comes
to its end in both, promotes the same objects and as many bytes, and leaves the same heap up to a renaming
of the copies.
-/
theorem dedup_window_loses_no_slot (reachable : world.Reachable) (idle : world.heap.phase = .idle)
    (host : Host σ δ) (calls : List BarrierCall)
    (rests
      : ((world.deduplicating true).called host calls).heap.collections = world.heap.collections)
    (rests'
      : ((world.deduplicating false).called host calls).heap.collections = world.heap.collections)
    : let looking := fun earlier => (world.deduplicating true).called host earlier
      let plain := fun earlier => (world.deduplicating false).called host earlier
      (∀ earlier, earlier <+: calls → (looking earlier).SameButRecords (plain earlier))
      ∧ (∀ earlier call,
          earlier ++ [call] <+: calls →
          (call.Reports (plain earlier) ↔ call.Reports (looking earlier))
          ∧ (call.Reports (looking earlier) →
              call.slot.raw ∈ (looking (earlier ++ [call])).heap.regions.birth.remembered
              ∧ call.slot.raw ∈ (plain (earlier ++ [call])).heap.regions.birth.remembered))
      ∧ ∀ contract : Contract σ,
          world.Conforming contract →
          world.Plays contract (calls.map (BarrierCall.step host)) →
          host.Traces contract →
          ∀ reason,
            Ends (Collector.minor host reason) (looking calls) fun _ after =>
              Ends (Collector.minor host reason) (plain calls) fun _ after' =>
                PromoteAlike contract (looking calls) (plain calls) after after' := by
  intro looking plain
  have begins := sameAtRest_deduplicating idle (reachable.steady idle)
  have quiet : ∀ {earlier}, earlier <+: calls →
      (looking earlier).heap.collections = world.heap.collections
      ∧ (plain earlier).heap.collections = world.heap.collections := fun starts =>
    ⟨counted_earlier starts rests, counted_earlier starts rests'⟩
  have same : ∀ {earlier}, earlier <+: calls → (looking earlier).SameAtRest (plain earlier) :=
    fun starts => begins.called (quiet starts).1 (quiet starts).2
  refine ⟨fun earlier starts => (same starts).toSameButRecords, fun earlier call starts => ?_, ?_⟩
  · have before : earlier <+: calls := (List.prefix_append earlier [call]).trans starts
    have agree := same before
    have reports := agree.toSameButRecords.reports_iff call
    obtain ⟨still, still'⟩ := quiet before
    obtain ⟨later, later'⟩ := quiet starts
    refine ⟨reports, fun reported => ⟨?_, ?_⟩⟩
    · exact remembered_called agree.idle agree.steady (later.trans still.symm) reported
    · exact remembered_called agree.symm.idle agree.steady' (later'.trans still'.symm)
        (reports.mpr reported)
  · intro contract conforming plays faithful reason
    have whole := same (List.prefix_refl calls)
    have addressable := plays.addressable
    have ends := conforming.play plays
    have itself : (world.deduplicating world.heap.config.storeBufferDedup).called host calls
        = world.play (calls.map (BarrierCall.step host)) := rfl
    rw [← itself] at addressable ends
    -- The world itself is one of the two, depending on whether it looks for duplicates.
    cases flag : world.heap.config.storeBufferDedup with
    | true =>
        rw [flag] at addressable ends
        exact whole.promoteAlike (ends.sound whole.idle addressable) addressable faithful reason
    | false =>
        rw [flag] at addressable ends
        have sound := whole.symm.sound_other (ends.sound whole.symm.idle addressable)
        refine whole.promoteAlike sound ?_ faithful reason
        rw [Addressable, whole.symm.regions]
        exact addressable

end World

namespace Record

/-- A fixed object of two words beside the young record. -/
def slottedWorld : World HostState Destructor :=
  youngWorld.after ((Operation.allocateFixed 16 none false).run host)

/-- The first word of the fixed object is reported. -/
def noticed : BarrierCall := .notifyStore (.pack .fixed 0)

/-- No collection runs, and the fixed space begins with an object whose first word is null. -/
def Vacant (world : World HostState Destructor) : Prop :=
  world.heap.phase = .idle
  ∧ world.heap.regions.fixed.arena.size ≤ maxOffsetWords
  ∧ world.heap.regions.fixed.occupant? 0 = some { words := 2, destructor := none }
  ∧ world.heap.regions.cell noticed.slot.space noticed.slot.offset = 0

instance : DecidablePred Vacant := fun _ => inferInstanceAs (Decidable (_ ∧ _))

theorem conforming_slotted : slottedWorld.Conforming contract :=
  .operate conforming_young host_faithful trivial

theorem vacant_slotted
    : ∀ calls ∈ [[], [noticed], [noticed, noticed]], Vacant (slottedWorld.called host calls) := by
  decide +kernel

/-- The first word of a fixed object may be reported while it is null. -/
theorem permitted_vacant {world : World HostState Destructor} (conforming : world.Conforming contract)
    (vacant : Vacant world)
    : (noticed.operation : Operation Destructor).Permitted contract world := by
  obtain ⟨idle, addressable, found, null⟩ := vacant
  have sound := conforming.sound idle addressable
  refine fun _ => ⟨rfl, .fixed found Nat.two_pos, ?_⟩
  refine sound.wellFormed.of_within rfl sound.wellFormed.upholds fun value start => ?_
  cases start with
  | rooted rooted => exact Or.inr (.start (.rooted rooted))
  | noted noted => exact Or.inr (.start (.noted noted))
  | extra member =>
      change value ∈ [Value.mk (world.heap.regions.cell noticed.slot.space noticed.slot.offset)]
        at member
      rw [List.mem_singleton.mp member, null]
      exact Or.inl Value.address?_null

/-- Whoever plays by the rules may report the word twice. -/
theorem plays_slotted
    : slottedWorld.Plays contract ([noticed, noticed].map (BarrierCall.step host)) := by
  have vacant := vacant_slotted [] (by simp)
  have vacant' := vacant_slotted [noticed] (by simp)
  have ends := vacant_slotted [noticed, noticed] (by simp)
  have first := permitted_vacant conforming_slotted vacant
  have second := permitted_vacant (.operate conforming_slotted host_faithful first) vacant'
  exact ⟨vacant.2.1, ⟨host_faithful, first⟩, vacant'.2.1, ⟨host_faithful, second⟩, ends.2.1⟩

end Record

/-- A slot that is reported twice is recorded once in the one run and twice in the other, and the same
is promoted in both.
-/
theorem World.dedup_window_loses_no_slot_slotted
    : let calls := [Record.noticed, Record.noticed]
      let looking := (Record.slottedWorld.deduplicating true).called Record.host calls
      let plain := (Record.slottedWorld.deduplicating false).called Record.host calls
      (looking.heap.counters.barrierRecords = 1
        ∧ looking.heap.counters.barrierDuplicates = 1
        ∧ plain.heap.counters.barrierRecords = 2)
      ∧ looking.SameButRecords plain
      ∧ Record.noticed.slot.raw ∈ looking.heap.regions.birth.remembered
      ∧ Ends (Collector.minor Record.host .requestedByUser) looking fun _ after =>
          Ends (Collector.minor Record.host .requestedByUser) plain fun _ after' =>
            World.PromoteAlike Record.contract looking plain after after' := by
  intro calls looking plain
  have loses := World.dedup_window_loses_no_slot Record.conforming_slotted.reachable
    (Record.vacant_slotted [] (by simp)).1 Record.host calls (by decide +kernel) (by decide +kernel)
  obtain ⟨same, remembered, promote⟩ := loses
  have outside : Record.noticed.slot.space ≠ .birth := by decide
  refine ⟨by decide +kernel, same _ (List.prefix_refl _), ?_, ?_⟩
  · exact ((remembered [Record.noticed] Record.noticed (List.prefix_refl _)).2 outside).1
  · exact promote Record.contract Record.conforming_slotted Record.plays_slotted
      Record.host_faithful.toTraces .requestedByUser

end MovingHeap
