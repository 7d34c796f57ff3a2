import MovingHeap.Proofs.Forwards
import MovingHeap.Proofs.Handlers
import MovingHeap.Proofs.Initialisation
import MovingHeap.Proofs.Invisibility
import MovingHeap.Proofs.Lifetimes
import MovingHeap.Proofs.RecordContract
import MovingHeap.Proofs.Recording

/-! What a host that plays by the rules can rely on.
Collections keep the graph of all that can be reached, references into the birth region are never lost
sight of, and there is always room to promote what was born.
-/

namespace MovingHeap

variable {σ δ α : Type}

namespace World

variable {contract : Contract σ} {world : World σ δ}

-----------------------------------------------------------------------------------------
-- The graph
-----------------------------------------------------------------------------------------

/-- A minor collection clears nothing, so what differed always differs. -/
theorem Promotes.inj {move : Value → Value} {after : World σ δ}
    (promotes : World.Promotes contract move world after) {first second : Value}
    (met : world.Met contract [] first) (met' : world.Met contract [] second)
    (same : move first = move second)
    : first = second := by
  -- what would be cleared lies in the fixed space, and stays
  have stays : ∀ value, world.heap.regions.clears value → move value = value
      ∧ ∃ addr : Address, addr.Decodes ∧ addr.space = .fixed ∧ value = addr.toValue := by
    intro value clears
    simp only [Regions.clears, Option.any_eq_true, Bool.and_eq_true, beq_iff_eq] at clears
    obtain ⟨addr, refers, fixed, -⟩ := clears
    have valid := Value.decodes_of_address? refers
    have here := Value.toValue_of_address? refers
    rw [← here]
    exact ⟨promotes.stays addr valid (by simp [fixed]), addr, valid, fixed, rfl⟩
  -- nothing else becomes a reference into the fixed space
  have alone : ∀ {left right : Value}, world.Met contract [] right →
      world.heap.regions.clears left → move left = move right → left = right := by
    intro left right there clears equal
    obtain ⟨rests, addr, valid, fixed, rfl⟩ := stays left clears
    rw [rests] at equal
    rcases promotes.toRelocates.of_move valid there equal.symm with ⟨-, here, -⟩ | ⟨notFixed, -⟩
    · exact here.symm
    · exact absurd fixed notFixed
  cases left : world.heap.regions.clears first with
  | true => exact alone met' left same
  | false =>
      cases right : world.heap.regions.clears second with
      | true => exact (alone met right same.symm).symm
      | false => exact promotes.injective first second met met' left right same

/-- A minor collection ends where the host plays by the rules. Everything that can be met from the
roots and the noted cells has become something else, different things different ones: birth objects are
copied behind the old ones, the rest is where it was, and whatever held a reference holds what it became.
-/
theorem minor_keeps_graph (conforming : world.Conforming contract)
    (idle : world.heap.phase = .idle) (addressable : world.Addressable) {host : Host σ δ}
    (faithful : host.Faithful contract) (reason : Reason)
    : Ends (Collector.minor host reason) world fun _ final =>
        world.Collects final
        ∧ ∃ move,
            World.Promotes contract move world final
            ∧ ∀ first second,
                world.Met contract [] first →
                world.Met contract [] second →
                move first = move second →
                first = second := by
  have sound := conforming.sound idle addressable
  refine Ends.mono (sound.minor addressable faithful.toTraces reason) fun _ final reached => ?_
  obtain ⟨collects, -, move, promotes⟩ := reached
  exact ⟨collects, move, promotes, fun first second met met' => promotes.inj met met'⟩

end World

namespace Record

/-- A small heap: whatever is promoted leaves too little room to promote a full birth region. -/
def smallConfig : Config where
  birthSize := 1024
  oldSize := 1024
  safetyMargin := 8
  constantCapacity := 8
  maxModules := 2
  fixedThreshold := 1024

/-- The small heap as it was set up. -/
def emptyWorld : World HostState Destructor where
  heap :=
    { config := smallConfig
      regions :=
        { birth := .ofArena (.zeroed 128) 8, old := { space := .oldA, words := .zeroed 128 } }
      modules := { limit := 2 }
      constants := .withCapacity 8
      fixedThreshold := 128 }
  host := {}
  log := [.initialized 1024 1024]

/-- The words for a record of one field were handed out. -/
def reservedWorld : World HostState Destructor := emptyWorld.after ((Operation.allocate 16).run host)

/-- The first word is the header. -/
def headedWorld : World HostState Destructor :=
  reservedWorld.after ((Operation.store (.pack .birth 0) (header 1)).run host)

/-- The field holds a number. -/
def filledWorld : World HostState Destructor :=
  headedWorld.after ((Operation.store (.pack .birth 1) (Value.tagged 7).raw).run host)

/-- A global constant refers to the record. -/
def youngWorld : World HostState Destructor :=
  filledWorld.after ((Operation.setConstant 0 (Address.pack .birth 0).toValue).run host)

theorem conforming_reserved : reservedWorld.Conforming contract := by
  have created : World.create .standard smallConfig {} = .ok emptyWorld := rfl
  exact .operate (.create created ⟨rfl, rfl⟩ nofun) host_faithful trivial

/-- The words that were handed out belong to no object. -/
theorem unclaimed_reserved : reservedWorld.Unclaimed contract 0 := by
  have created : World.create .standard smallConfig {} = .ok emptyWorld := rfl
  have empty := (World.created_of_create created).1
  have upholds : contract.Upholds emptyWorld.host := ⟨rfl, rfl⟩
  exact (empty.sound upholds nofun).unclaimed_reserved 2 1

theorem sound_reserved : reservedWorld.Sound contract :=
  conforming_reserved.sound rfl (Nat.zero_le _)

/-- A word of the new record may be stored. -/
theorem permitted_header
    : (Operation.store (.pack .birth 0) (header 1)).Permitted contract reservedWorld :=
  ⟨fun _ done => unclaimed_reserved.storable (Nat.zero_le _) rfl done sound_reserved,
    fun young => absurd young (by decide)⟩

theorem conforming_headed : headedWorld.Conforming contract :=
  .operate conforming_reserved host_faithful permitted_header

theorem sound_headed : headedWorld.Sound contract := conforming_headed.sound rfl (Nat.zero_le _)

theorem unclaimed_headed : headedWorld.Unclaimed contract 0 := by
  have stored : reservedWorld.heap.regions.setWord? (.pack .birth 0) (header 1)
      = some headedWorld.heap.regions := rfl
  exact unclaimed_reserved.stored (Nat.zero_le _) rfl stored sound_reserved

theorem conforming_filled : filledWorld.Conforming contract :=
  .operate conforming_headed host_faithful
    ⟨fun _ done => unclaimed_headed.storable (Nat.zero_le _) rfl done sound_headed,
      fun young => absurd young (by decide)⟩

theorem unclaimed_filled : filledWorld.Unclaimed contract 0 := by
  have stored : headedWorld.heap.regions.setWord? (.pack .birth 1) (Value.tagged 7).raw
      = some filledWorld.heap.regions := rfl
  exact unclaimed_headed.stored (Nat.zero_le _) rfl stored sound_headed

/-- A reference to the record is well-formed. -/
theorem wellFormed_filled
    : filledWorld.WellFormed contract [(Address.pack .birth 0).toValue] := by
  have sound := conforming_filled.sound rfl (Nat.zero_le _)
  have first : filledWorld.heap.regions.field (.pack .birth 0) 0 = header 1 := by decide
  have second : filledWorld.heap.regions.field (.pack .birth 0) 1 = (Value.tagged 7).raw := by decide
  have size : contract.layout.size (filledWorld.heap.regions.field (.pack .birth 0)) = 2 := by
    simp only [contract, layout, first]
    decide
  have slots : ∀ index, contract.layout.IsSlot (filledWorld.heap.regions.field (.pack .birth 0)) index →
      index = 1 := by
    intro index slot
    simp only [contract, layout, first] at slot
    have one : fieldCount (header 1) = 1 := by decide
    omega
  refine sound.wellFormed.fresh sound.regular.apart rfl rfl ?_ ?_ unclaimed_filled.below ?_ ?_
  · simp only [contract, layout, first]
    decide
  · rw [size]
    exact Nat.le_refl 2
  · intro index slot
    rw [slots index slot, second]
    exact Or.inl (by decide)
  · exact fun slot => absurd (slots 0 slot) (by decide)

theorem conforming_young : youngWorld.Conforming contract :=
  .operate conforming_filled host_faithful wellFormed_filled

theorem idle_young : youngWorld.heap.phase = .idle := rfl

theorem addressable_young : youngWorld.Addressable := Nat.zero_le _

theorem sound_young : youngWorld.Sound contract :=
  conforming_young.sound idle_young addressable_young

theorem rooted_young : youngWorld.heap.rootValue (.constant 0) = (Address.pack .birth 0).toValue :=
  rfl

theorem mapped_young
    : host.mapper.map? (Collector.targetWords youngWorld.heap) = some (.zeroed 130) :=
  rfl

-- what is known of the heap is known by these facts, so that nothing evaluates its collections
attribute [irreducible] youngWorld

end Record

namespace World

variable {contract : Contract σ} {world : World σ δ}

theorem minor_keeps_graph_young
    : Record.youngWorld.Conforming Record.contract
      ∧ Ends (Collector.minor Record.host .requestedByUser) Record.youngWorld fun _ final =>
          Record.youngWorld.Collects final
          ∧ ∃ move,
              World.Promotes Record.contract move Record.youngWorld final
              ∧ ∀ first second,
                  Record.youngWorld.Met Record.contract [] first →
                  Record.youngWorld.Met Record.contract [] second →
                  move first = move second →
                  first = second :=
  ⟨Record.conforming_young, minor_keeps_graph Record.conforming_young Record.idle_young
    Record.addressable_young Record.host_faithful .requestedByUser⟩

/-- A full collection ends, unless memory for the survivors is refused, wherever the references that
can be reached are well-formed. The old region is then the copies of the moving objects that can be
reached, back to back and nothing else; references to forgotten fixed objects are cleared, and the other
fixed objects that can be reached are where they were.
-/
theorem full_keeps_graph (reachable : world.Reachable) (idle : world.heap.phase = .idle)
    (upholds : contract.Upholds world.host)
    (coherent : world.heap.regions.Coherent contract.layout (world.Reached contract))
    (addressable : world.Addressable) {host : Host σ δ} {words : Arena}
    (mapped : host.mapper.map? (Collector.targetWords world.heap) = some words)
    (faithful : host.Faithful contract) (reason : Reason)
    : Ends (Collector.full host reason) world fun _ final =>
        world.Collects final ∧ ∃ move, World.Compacts contract move world final := by
  have collectable : world.Collectable contract :=
    ⟨(reachable.steady idle).toRegular, upholds, coherent⟩
  refine Runs.mono (collectable.full addressable faithful reason) ?_ ?_
  · exact fun _ _ reached => ⟨reached.1, reached.2.2⟩
  · intro _ _ refused
    rw [mapped] at refused
    cases refused.1

theorem full_keeps_graph_young
    : Record.host.mapper.map? (Collector.targetWords Record.youngWorld.heap) = some (.zeroed 130)
      ∧ Ends (Collector.full Record.host .requestedByUser) Record.youngWorld fun _ final =>
          Record.youngWorld.Collects final
          ∧ ∃ move, World.Compacts Record.contract move Record.youngWorld final := by
  have sound := Record.sound_young
  exact ⟨Record.mapped_young, full_keeps_graph Record.conforming_young.reachable Record.idle_young
    sound.wellFormed.upholds sound.toOrderly.collectable.coherent Record.addressable_young
    Record.mapped_young Record.host_faithful .requestedByUser⟩

-----------------------------------------------------------------------------------------
-- The barrier
-----------------------------------------------------------------------------------------

/-- Whenever no collection runs, every reference into the birth region that is held elsewhere is known:
in an old or fixed object its slot is recorded or the object is fresh, modules that hold one lie at or
above the watermark, and constants in dirty groups.
-/
theorem birth_references_noted (conforming : world.Conforming contract)
    (idle : world.heap.phase = .idle) (addressable : world.Addressable)
    : world.heap.Generational contract.layout :=
  (conforming.sound idle addressable).generational

theorem birth_references_noted_young
    : Record.youngWorld.Conforming Record.contract
      ∧ Record.youngWorld.heap.Generational Record.contract.layout :=
  ⟨Record.conforming_young,
    birth_references_noted Record.conforming_young Record.idle_young Record.addressable_young⟩

-----------------------------------------------------------------------------------------
-- Room
-----------------------------------------------------------------------------------------

/-- Whenever no collection runs, there is room to promote the whole birth region. So no collection finds
too little room for a copy, whatever it was that made it run, and a full collection, which is stopped
only where memory is refused, leaves as much room again.
-/
theorem room_for_birth_region (conforming : world.Conforming contract)
    (idle : world.heap.phase = .idle) (addressable : world.Addressable)
    : world.heap.regions.birth.capacity ≤ world.heap.regions.old.free
      ∧ ∀ host : Host σ δ,
          host.Faithful contract →
          (∀ operation : Operation δ,
            operation.Permitted contract world →
            Runs (operation.run host) world
              (fun _ final =>
                final.heap.phase = .idle →
                final.Addressable →
                final.heap.regions.birth.capacity ≤ final.heap.regions.old.free)
              fun violation _ => violation.isBadCopy = false)
          ∧ ∀ reason,
              Ends (Collector.minor host reason) world (fun _ _ => True)
              ∧ Runs (Collector.full host reason) world
                  (fun _ final => final.heap.regions.birth.capacity ≤ final.heap.regions.old.free)
                  fun violation _ =>
                    host.mapper.map? (Collector.targetWords world.heap) = none
                    ∧ violation.isBadCopy = false := by
  have sound := conforming.sound idle addressable
  have steady := conforming.reachable.steady idle
  refine ⟨sound.room, fun host faithful => ⟨fun operation permitted => ?_, fun reason => ⟨?_, ?_⟩⟩⟩
  · have keeps := sound.run steady addressable faithful permitted
    have lasting := lasting_run host operation world
    refine Runs.mono (Runs.and keeps lasting) ?_ ?_
    · intro _ final reached busy _
      exact (reached.1 busy (reached.2.steady busy steady)).room
    · exact fun _ _ stopped => stopped.1.1
  · exact Ends.mono (sound.minor addressable faithful.toTraces reason) fun _ _ _ => trivial
  · refine Runs.mono (sound.toOrderly.collectable.full addressable faithful reason) ?_ ?_
    · exact fun _ _ reached => (reached.2.1 sound.toOrderly).room
    · rintro _ _ ⟨refused, rfl⟩
      exact ⟨refused, rfl⟩

theorem room_for_birth_region_young
    : Record.youngWorld.Conforming Record.contract
      ∧ Record.youngWorld.heap.regions.birth.capacity ≤ Record.youngWorld.heap.regions.old.free
      ∧ Ends (Collector.minor Record.host .requestedByUser) Record.youngWorld fun _ _ => True := by
  have room := room_for_birth_region Record.conforming_young Record.idle_young
    Record.addressable_young
  exact ⟨Record.conforming_young, room.1, ((room.2 Record.host Record.host_faithful).2 _).1⟩

-----------------------------------------------------------------------------------------
-- Fixed objects
-----------------------------------------------------------------------------------------

/-- Wherever an operation lets collections run, a minor one frees no fixed object and calls no destructor,
and a full one, which may follow it, frees exactly the objects that the host gave up on or that cannot be
reached where it begins. It calls the destructors of the others among them, each once. In a run this
is all that any step does to fixed objects, apart from allocating them and giving up on them. So an object
stays where it was allocated, without a call of its destructor, as long as it survives the full
collections, and until one frees it. None is called where there is no object.
-/
theorem fixed_objects_destroyed_once {calls : σ → List (Call δ)}
    (conforming : world.Conforming contract) (idle : world.heap.phase = .idle)
    (addressable : world.Addressable)
    : (∀ (host : Host σ δ) (operation : Operation δ),
          host.Records contract calls →
          operation.Permitted contract world →
          operation.Asks world →
          (∀ reason,
            Ends (Collector.minor host reason) (operation.start world) fun _ final =>
              (∃ move, World.Promotes contract move (operation.start world) final)
              ∧ (operation.start world).SparesFixed calls final)
          ∧ ∀ begun reason,
              (operation.start world).LaunchesFull host begun →
              Runs (Collector.full host reason) begun
                (fun _ final =>
                  ∃ move,
                    World.Compacts contract move begun final
                    ∧ begun.Destroys contract calls final)
                fun _ _ => host.mapper.map? (Collector.targetWords begun.heap) = none)
      ∧ ∀ steps : List (Step σ δ),
          world.Plays contract steps →
          world.Records contract calls steps →
          Runs (perform steps) world (fun _ _ => world.Uninterrupted steps) (fun _ _ => True)
          ∧ (world.Uninterrupted steps →
              world.Throughout (Step.Disposes contract calls) steps
              ∧ ∀ object : Address,
                  object.Decodes →
                  object.space = .fixed →
                  world.Throughout
                      (fun world step =>
                        world.Fate contract calls object step (world.after step.run))
                      steps
                  ∧ (∀ occupant,
                      world.tenant? object = some occupant →
                      world.Until (Houses calls object occupant (world.callsFor calls object))
                        (Outlives contract object) (Evicts contract calls object occupant) steps)
                  ∧ (world.tenant? object = none →
                      world.Until (Vacant calls object (world.callsFor calls object))
                        (fun _ _ => True) (Lodges calls object (world.callsFor calls object))
                        steps)) := by
  have sound := conforming.sound idle addressable
  have steady := conforming.reachable.steady idle
  refine ⟨fun host operation records permitted asks => ?_, fun steps plays records =>
    ⟨runs_uninterrupted conforming idle plays, fun uninterrupted => ?_⟩⟩
  · obtain ⟨begins, reaches⟩ := asks.sound sound steady addressable permitted
    refine ⟨fun reason => ?_, fun begun reason launches => ?_⟩
    · have minor := (begins.minor reaches records.faithful.toTraces reason).and
        (begins.minor_spares reaches records reason)
      exact minor.mono (fun _ _ reached => ⟨reached.1.2.2, reached.2⟩) fun _ _ => And.left
    · obtain ⟨orderly, still, -⟩ := launches.begins begins reaches records
      exact orderly.collectable.full_destroys still records reason
  · have taken := plays.taken conforming idle records uninterrupted
    refine ⟨taken.mono fun _ _ => Step.Taken.disposes, fun object valid fixed => ⟨?_, ?_, ?_⟩⟩
    · exact taken.mono fun _ _ taken => taken.fate valid fixed
    · exact fun occupant there => until_evicted taken valid fixed there
    · exact fun vacant => until_lodged taken valid fixed vacant

end World

namespace Record

/-- A fixed object of two words with a destructor is all there is, and the calls of destructors are
recorded.
-/
def lodgedWorld : World (HostState × List (Call Destructor)) Destructor :=
  World.after (Operation.run host.recording (.allocateFixed 16 (some .log) false))
    { heap := emptyWorld.heap, host := ({}, []), log := emptyWorld.log }

theorem conforming_lodged : lodgedWorld.Conforming contract.recording := by
  have created : World.create .standard smallConfig (({}, []) : HostState × List (Call Destructor))
      = .ok { heap := emptyWorld.heap, host := ({}, []), log := emptyWorld.log } := rfl
  exact .operate (.create created ⟨⟨rfl, rfl⟩, trivial⟩ nofun) host_faithful.recording.faithful
    trivial

theorem idle_lodged : lodgedWorld.heap.phase = .idle := rfl

theorem addressable_lodged : lodgedWorld.Addressable := by
  unfold World.Addressable
  decide

theorem tenant_lodged
    : lodgedWorld.tenant? (.pack .fixed 0) = some { words := 2, destructor := some .log } :=
  rfl

/-- Everything is collected, and calls are recorded. -/
def sweeps : List (Step (HostState × List (Call Destructor)) Destructor) :=
  [.operate host.recording .collectFull]

theorem plays_lodged : lodgedWorld.Plays contract.recording sweeps := by
  have ends : (lodgedWorld.play sweeps).Addressable := by
    unfold World.Addressable
    decide +kernel
  exact ⟨addressable_lodged, ⟨host_faithful.recording.faithful, trivial⟩, ends⟩

theorem uninterrupted_sweeps : lodgedWorld.Uninterrupted sweeps := ⟨by decide +kernel, trivial⟩

attribute [irreducible] lodgedWorld

end Record

namespace World

variable {contract : Contract σ} {world : World σ δ}

/-- The only fixed object of a heap is destroyed by the first full collection. -/
theorem fixed_objects_destroyed_once_lodged
    : Record.lodgedWorld.Conforming Record.contract.recording
      ∧ Record.lodgedWorld.Uninterrupted Record.sweeps
      ∧ Record.lodgedWorld.Until
          (Houses Prod.snd (.pack .fixed 0) { words := 2, destructor := some .log }
            (Record.lodgedWorld.callsFor Prod.snd (.pack .fixed 0)))
          (Outlives Record.contract.recording (.pack .fixed 0))
          (Evicts Record.contract.recording Prod.snd (.pack .fixed 0)
            { words := 2, destructor := some .log })
          Record.sweeps
      ∧ Ends (perform Record.sweeps) Record.lodgedWorld fun _ final =>
          final.host.2 = [.mk .log (.pack .fixed 0) [0, 0]] := by
  have lives := (fixed_objects_destroyed_once Record.conforming_lodged Record.idle_lodged
    Record.addressable_lodged).2 Record.sweeps Record.plays_lodged
    ⟨Record.host_faithful.recording, trivial⟩
  refine ⟨Record.conforming_lodged, Record.uninterrupted_sweeps, ?_, by decide +kernel⟩
  exact ((lives.2 Record.uninterrupted_sweeps).2 (.pack .fixed 0)
    (Address.decodes_pack .fixed (Nat.zero_le _)) (Address.space_pack .fixed (Nat.zero_le _))).2.1 _
    Record.tenant_lodged

-----------------------------------------------------------------------------------------
-- Stale references
-----------------------------------------------------------------------------------------

/-- Where stale references to the birth objects that could be reached lead after the collections that
an operation let run.
-/
structure LeadsHome (contract : Contract σ) (world final : World σ δ) : Prop where
  /-- At most two collections ran. -/
  few : final.heap.collections ≤ world.heap.collections + 2
  /-- After one, they lead to where the object lives now, and so do all references to it. -/
  once
    : final.heap.collections = world.heap.collections + 1 →
      ∃ move,
        World.Relocates contract (world.Reached contract) move world final
        ∧ ∀ object : Address,
            object.Decodes →
            world.Reached contract object.toValue →
            object.space = .birth →
            final.heap.followForwards? object.toValue = some (move object.toValue)
            ∧ ∃ home : Address,
                move object.toValue = home.toValue
                ∧ final.heap.classify (move object.toValue) = .old home
  /-- After two, they lead out of the heap: to where the first one put the object. -/
  twice
    : final.heap.collections = world.heap.collections + 2 →
      ∀ object : Address,
        object.Decodes →
        world.Reached contract object.toValue →
        object.space = .birth →
        ∃ stale : Address,
          final.heap.followForwards? object.toValue = some stale.toValue
          ∧ final.heap.classify stale.toValue = .foreign stale.raw

/-- If an operation lets exactly one collection run, then every stale reference to a birth object that
could be reached leads to where the object lives now. If a full collection follows a minor one, it leads
to where the minor one had put the object, which is no memory of the heap any more.
-/
theorem stale_references_lead_home (conforming : world.Conforming contract)
    (idle : world.heap.phase = .idle) (addressable : world.Addressable) {host : Host σ δ}
    (faithful : host.Faithful contract) {operation : Operation δ}
    (claiming : operation.isClaiming) (permitted : operation.Permitted contract world)
    : Runs (operation.run host) world (fun _ final => world.LeadsHome contract final)
        fun _ _ => True := by
  have sound := conforming.sound idle addressable
  have steady := conforming.reachable.steady idle
  refine (Operation.takes_run sound steady addressable faithful permitted).mono ?_
    fun _ _ _ => trivial
  intro _ final course
  cases course with
  | direct spares =>
      have collections := spares.collections
      exact ⟨by omega, fun one => by omega, fun two => by omega⟩
  | @collected words wantsFull reason middle _ begins reaches ran =>
      obtain ⟨cells, old, size, numbered⟩ := @Operation.outline_finish σ δ operation middle
      obtain ⟨size', numbered'⟩ := @Operation.outline_start σ δ operation world claiming
      obtain ⟨collects, -, move, collected⟩ :=
        (begins.collectFor reaches faithful words wantsFull reason).of_ok ran
      have capacity : (operation.finish middle).heap.regions.birth.capacity
          = world.heap.regions.birth.capacity := by
        rw [size, collects.capacity, size']
      have single : ∀ {move}, World.Relocates contract ((operation.start world).Reached contract) move
            (operation.start world) middle →
          ∃ move,
            World.Relocates contract (world.Reached contract) move world (operation.finish middle)
            ∧ ∀ object : Address,
                object.Decodes →
                world.Reached contract object.toValue →
                object.space = .birth →
                (operation.finish middle).heap.followForwards? object.toValue
                  = some (move object.toValue)
                ∧ ∃ home : Address,
                    move object.toValue = home.toValue
                    ∧ (operation.finish middle).heap.classify (move object.toValue)
                      = .old home := by
        intro move relocates
        have moved := Operation.relocates_finish claiming sound steady relocates
        exact ⟨move, moved, fun object valid reached birth =>
          moved.follows sound capacity valid reached birth⟩
      cases collected with
      | promoted promotes =>
          have count := promotes.numbered
          refine ⟨by omega, fun _ => single (promotes.toRelocates.mono fun _ reached => ?_),
            fun two => by omega⟩
          exact reached.mono fun _ => .rooted
      | compacted compacts =>
          have count := compacts.numbered
          exact ⟨by omega, fun _ => single compacts.toRelocates, fun two => by omega⟩
      | both promotes between compacts =>
          have count := promotes.numbered
          have count' := compacts.numbered
          refine ⟨by omega, fun one => by omega, fun _ object valid reached birth => ?_⟩
          refine follows_stale begins promotes between compacts cells (by rw [old]) ?_ valid
            (Operation.reached_start claiming sound steady reached) birth
          rw [capacity, size']

theorem stale_references_lead_home_young
    : Record.youngWorld.Conforming Record.contract
      ∧ Runs (Operation.collectFull.run Record.host) Record.youngWorld
          (fun _ final => Record.youngWorld.LeadsHome Record.contract final) fun _ _ => True :=
  ⟨Record.conforming_young, stale_references_lead_home Record.conforming_young Record.idle_young
    Record.addressable_young Record.host_faithful rfl trivial⟩

/-- A full collection that follows a minor one leaves stale references behind: the record is in the
second semispace, and its former address still leads to the first.
-/
theorem stale_reference_leads_astray
    : Record.youngWorld.Conforming Record.contract
      ∧ Record.youngWorld.heap.phase = .idle
      ∧ Record.youngWorld.Addressable
      ∧ Record.host.Faithful Record.contract
      ∧ Record.youngWorld.Reached Record.contract (Address.pack .birth 0).toValue
      ∧ Record.youngWorld.heap.rootValue (.constant 0) = (Address.pack .birth 0).toValue
      ∧ Ends (Operation.collectMinor.run Record.host) Record.youngWorld fun _ final =>
          final.heap.rootValue (.constant 0) = (Address.pack .oldB 0).toValue
          ∧ final.heap.followForwards? (Address.pack .birth 0).toValue
            = some (Address.pack .oldA 0).toValue := by
  have reached : Record.youngWorld.Reached Record.contract (Address.pack .birth 0).toValue := by
    rw [← Record.rooted_young]
    exact .start (.root (.constant 0))
  exact ⟨Record.conforming_young, Record.idle_young, Record.addressable_young, Record.host_faithful,
    reached, Record.rooted_young, by decide +kernel⟩

-----------------------------------------------------------------------------------------
-- Exceptions
-----------------------------------------------------------------------------------------

/-- A block whose body fails hands back the exception that the body failed with, if the handler kept it
since it was thrown, or could take no other for it and no collection ran. Its payload is what the
collections made of it meanwhile. The block is stopped only where its body is, or where frames that it
began with are missing.
-/
theorem exceptions_come_back (conforming : world.Conforming contract)
    (idle : world.heap.phase = .idle) {host : Host σ δ} (faithful : host.Faithful contract)
    {before rest : List (Step σ δ)} {thrown : Thrown}
    (plays : world.opened.Plays contract (before ++ rest))
    (delivers : (world.opened.play before).Delivers world.heap.handlers.depth rest thrown)
    : Runs
        (exceptBlock do
          perform (before ++ rest)
          return (.error thrown : Except Thrown α))
        world
        (fun result final =>
          ∃ move,
            (world.opened.play before).Moves contract rest move
            ∧ result = .error { thrown with payload := move thrown.payload }
            ∧ final.heap.regions = (world.opened.play (before ++ rest)).heap.regions
            ∧ final.heap.phase = .idle)
        fun violation final =>
          perform (before ++ rest) world.opened = .error violation final
          ∨ ∃ expected left, violation = .exceptUnwind expected left := by
  have begins := conforming.opened faithful
  obtain ⟨earlier, later⟩ := plays_append plays
  have body : Runs (perform (before ++ rest)) world.opened
      (fun _ final =>
        final = world.opened.play (before ++ rest)
        ∧ final.heap.phase = .idle
        ∧ world.heap.handlers.depth < final.heap.handlers.depth
        ∧ ∃ move,
            (world.opened.play before).Moves contract rest move
            ∧ final.heap.handlers.handsBack world.heap.handlers.depth thrown
              = { thrown with payload := move thrown.payload })
      fun _ _ => True := by
    rw [runs_perform_append]
    refine ((runs_perform_pending begins idle earlier).and
      (runs_perform before world.opened)).mono ?_ fun _ _ _ => trivial
    rintro _ middle ⟨⟨rests, -⟩, rfl⟩
    refine ((runs_perform_delivers (begins.play earlier) rests later delivers).and
      (runs_perform rest _)).mono ?_ fun _ _ _ => trivial
    rintro _ final ⟨reached, same⟩
    exact ⟨same.trans (play_append _ _ _).symm, reached⟩
  have opens : Runs openBlock world
      (fun block opened => block.depth = world.heap.handlers.depth ∧ opened = world.opened)
      fun violation final =>
        perform (before ++ rest) world.opened = .error violation final
        ∨ ∃ expected left, violation = .exceptUnwind expected left := ⟨rfl, rfl⟩
  rw [exceptBlock, runs_bind]
  refine opens.mono ?_ fun _ _ => id
  rintro block _ ⟨depth, rfl⟩
  simp only [bind_assoc, pure_bind]
  rw [runs_bind]
  refine body.seen.mono ?_ fun _ _ => Or.inl
  rintro _ final ⟨same, ends, installed, move, moves, handed⟩
  rw [← depth] at installed handed
  refine (runs_closeBlock_error installed).mono ?_ fun _ _ => Or.inr
  rintro result last ⟨back, regions, phase⟩
  refine ⟨move, moves, ?_, ?_, phase.trans ends⟩
  · rw [back, handed]
  · rw [regions, same]

end World

namespace Record

/-- The record is thrown. -/
def throws : List (Step HostState Destructor) :=
  [.operate host (.throwException 5 (Address.pack .birth 0).toValue)]

/-- Everything is collected. -/
def collects : List (Step HostState Destructor) := [.operate host .collectFull]

/-- The record may be thrown to a block, and collections may run then. -/
theorem plays_young : youngWorld.opened.Plays contract (throws ++ collects) := by
  have begins := conforming_young.opened host_faithful
  have here : youngWorld.opened.Addressable := addressable_young
  have sound := begins.sound idle_young here
  have rooted : youngWorld.opened.heap.rootValue (.constant 0) = (Address.pack .birth 0).toValue :=
    rooted_young
  have thrown : youngWorld.opened.WellFormed contract [(Address.pack .birth 0).toValue] := by
    rw [← rooted]
    exact sound.wellFormed.met (.start (.rooted (.root (.constant 0))))
  have still : (youngWorld.opened.play throws).Addressable := by
    unfold World.Addressable
    decide +kernel
  have ends : ((youngWorld.opened.play throws).play collects).Addressable := by
    unfold World.Addressable
    decide +kernel
  exact ⟨here, ⟨host_faithful, thrown⟩, still, ⟨host_faithful, trivial⟩, ends⟩

theorem pending_throws
    : (youngWorld.opened.play throws).heap.handlers.pendingAt? youngWorld.heap.handlers.depth
      = some { code := 5, payload := (Address.pack .birth 0).toValue } := by
  decide +kernel

end Record

namespace World

variable {contract : Contract σ} {world : World σ δ}

/-- The record is thrown, and moves before the block ends. -/
theorem exceptions_come_back_young
    : Record.youngWorld.Conforming Record.contract
      ∧ Runs
          (exceptBlock do
            perform (Record.throws ++ Record.collects)
            return (.error { code := 5, payload := (Address.pack .birth 0).toValue }
              : Except Thrown Unit))
          Record.youngWorld
          (fun result _ =>
            ∃ move,
              (Record.youngWorld.opened.play Record.throws).Moves Record.contract Record.collects move
              ∧ result
                = .error { code := 5, payload := move (Address.pack .birth 0).toValue })
          fun _ _ => True := by
  have delivers : (Record.youngWorld.opened.play Record.throws).Delivers
      Record.youngWorld.heap.handlers.depth Record.collects
      { code := 5, payload := (Address.pack .birth 0).toValue } :=
    .kept Record.pending_throws ⟨trivial, trivial⟩
  refine ⟨Record.conforming_young, Runs.mono (exceptions_come_back Record.conforming_young
    Record.idle_young Record.host_faithful Record.plays_young delivers) ?_ fun _ _ _ => trivial⟩
  rintro result _ ⟨move, moves, same, -⟩
  exact ⟨move, moves, same⟩

/-- Two exceptions with one code are taken for each other: the block fails with the first and hands back
the second. And nothing keeps an exception after another one was thrown: its payload is stale once the
record has moved.
-/
theorem exceptions_mistaken
    : (Ends
        (exceptBlock do
          let first ← throwException 5 (.tagged 1)
          let _ ← throwException 5 (.tagged 2)
          return (.error first : Except Thrown Unit))
        Record.youngWorld fun result _ => result = .error { code := 5, payload := .tagged 2 })
      ∧ Ends
          (exceptBlock do
            let first ← throwException 5 (Address.pack .birth 0).toValue
            let _ ← throwException 6 .null
            collectFull Record.host
            return (.error first : Except Thrown Unit))
          Record.youngWorld fun result final =>
            result = .error { code := 5, payload := (Address.pack .birth 0).toValue }
            ∧ final.heap.rootValue (.constant 0) = (Address.pack .oldB 0).toValue := by
  constructor
  · decide +kernel
  · decide +kernel

-----------------------------------------------------------------------------------------
-- Programs
-----------------------------------------------------------------------------------------

end World

namespace Record

/-- A heap of other sizes, which records slots again. -/
def wideConfig : Config where
  birthSize := 2048
  oldSize := 4096
  safetyMargin := 16
  constantCapacity := 16
  maxModules := 4
  fixedThreshold := 4096
  storeBufferDedup := false

/-- The wide heap as it was set up. -/
def wideWorld : World HostState Destructor where
  heap :=
    { config := wideConfig
      regions :=
        { birth := .ofArena (.zeroed 256) 16, old := { space := .oldA, words := .zeroed 512 } }
      modules := { limit := 4 }
      constants := .withCapacity 16
      fixedThreshold := 512 }
  host := {}
  log := [.initialized 2048 4096]

/-- A record of two fields: a fixed object is written to the one, and the other is a number. -/
def tour : Program :=
  [.enter { name := "tour", params := 0, locals := 1 } [],
    .record (.slot ⟨1⟩ .local 0) none [.word (header 2), .word 0, .word (Value.tagged 7).raw],
    .fixed (.constant 1) 16 false,
    .write (.slot ⟨1⟩ .local 0) 1 (.place (.constant 1)),
    .read (.constant 2) (.slot ⟨1⟩ .local 0) 1,
    .equal (.constant 1) (.constant 2),
    .read (.constant 3) (.slot ⟨1⟩ .local 0) 2,
    .integer (.constant 3),
    .exit ⟨1⟩,
    .isNull (.constant 2)]

/-- Collections on the way. -/
def stops : List (List Extra) := [[.full], [], [.minor], [.full], [.minor, .full], [.full]]

/-- Without extra collections, a program is as proper as its instructions are where they come. -/
theorem proper_cons {instruction : Instruction} {rest : Program}
    {world : World HostState Destructor} (begins : instruction.Proper layout world)
    (continues : Program.Proper layout host [] rest (world.after (instruction.run host)))
    : Program.Proper layout host [] (instruction :: rest) world := by
  rw [Program.Proper, List.headD_nil, List.tail_nil, Extra.runAll, runs_pure]
  exact ⟨begins, World.runs_of_after continues⟩

/-- The words behind the header of a record are its fields. -/
theorem isField_of_header {world : World HostState Destructor} {place : Place} {index : Nat}
    (object : Address) (refers : (place.value world).address? = some object)
    (moves : object.space ≠ .fixed)
    (inside : 0 < index ∧ index ≤ fieldCount (world.heap.regions.field object 0))
    {other : Address} (found : (place.value world).address? = some other)
    : world.heap.regions.IsField layout other index := by
  obtain rfl : object = other := Option.some.inj (refers.symm.trans found)
  rw [Regions.IsField, if_neg moves]
  exact inside

theorem prepared_empty : emptyWorld.Prepared contract := by
  have created : World.create .standard smallConfig {} = .ok emptyWorld := rfl
  exact .create created ⟨rfl, rfl⟩ nofun

theorem prepared_wide : wideWorld.Prepared contract := by
  have created : World.create .standard wideConfig {} = .ok wideWorld := rfl
  exact .create created ⟨rfl, rfl⟩ nofun

/-- The tour names no module. -/
theorem links_tour (world : World HostState Destructor) : tour.Links world := by
  intro instruction member rank named
  simp only [tour, List.mem_cons, List.not_mem_nil, or_false] at member
  rcases member with rfl | rfl | rfl | rfl | rfl | rfl | rfl | rfl | rfl | rfl <;>
    simp [Instruction.places, Operand.places] at named

/-- What is learnt on the tour: the record refers to the fixed object, which is not null, and holds 7. -/
def learnt : List Answer :=
  [.frame ⟨1⟩, .nothing, .nothing, .nothing, .nothing, .truth true, .nothing, .integer (some 7),
    .nothing, .truth false]

theorem ends_tour
    : Ends (tour.run host []) emptyWorld fun answers final =>
        answers = learnt ∧ final.Addressable := by
  decide +kernel

theorem ends_stops : Ends (tour.run host stops) wideWorld fun _ final => final.Addressable := by
  decide +kernel

/-- On the tour, a record is initialised, and its fields are written and read. -/
theorem proper_tour : tour.Proper layout host [] emptyWorld := by
  refine proper_cons nofun (proper_cons ?_ (proper_cons trivial (proper_cons ?_ (proper_cons ?_
    (proper_cons trivial (proper_cons ?_ (proper_cons trivial (proper_cons trivial
      (proper_cons trivial trivial)))))))))
  · have headed : header 2 ≠ 0 := by decide
    have small : words (header 2) ≤ 3 := by decide
    refine ⟨headed, small, fun index operand here slot => ?_, fun index place here => ?_⟩
    · have inside : 0 < index ∧ index ≤ 2 := slot
      obtain rfl | rfl : index = 1 ∨ index = 2 := by omega
      · cases here
        rfl
      · cases here
        rfl
    · match index, here with
      | 0, here => cases here
      | 1, here => cases here
      | 2, here => cases here
      | index + 3, here => cases here
  · refine ⟨trivial, fun other found => ⟨isField_of_header (.pack .birth 0) ?_ ?_ ?_ found,
      fun _ zero => absurd zero (by decide)⟩⟩
    · decide
    · decide
    · decide
  · refine fun other found => isField_of_header (.pack .birth 0) ?_ ?_ ?_ found
    · decide
    · decide
    · decide
  · refine fun other found => isField_of_header (.pack .birth 0) ?_ ?_ ?_ found
    · decide
    · decide
    · decide

attribute [irreducible] emptyWorld wideWorld tour

end Record

namespace World

variable {contract : Contract σ} {world : World σ δ}

end World

end MovingHeap
