import MovingHeap.Proofs.PreciseRoots

/-! Whole collections of two heaps that agree in the words that matter.
Before and after it traces, a collection reads nothing of birth and old words but what tracing left in
them, so two runs that trace in tandem end together.
-/

namespace MovingHeap

variable {σ δ α : Type}

namespace Pass

/-- Two runs of a collection agree in all that they share, and semispaces are told apart. -/
structure Together (pass : Pass σ δ) (matters : Space → Nat → Prop) (first second : World σ δ) : Prop
    where
  apart : first.heap.regions.Apart
  agrees : first.AgreesOn (pass.Shared matters first.heap.regions) second

variable {pass : Pass σ δ} {matters : Space → Nat → Prop} {first second : World σ δ}

/-- Runs that visit roots are together. -/
theorem Accompanied.together (ready : pass.Ready) {origin : Heap δ} {kept : List Value}
    {fresh : List Nat} (accompanied : pass.Accompanied matters origin kept fresh first second)
    : pass.Together matters first second := by
  obtain ⟨⟨trail, standing⟩, -, agrees⟩ := accompanied
  exact ⟨standing.moment.progress.evolves.apart ready.apart, agrees⟩

/-- Where as much was copied, runs that agree in what they shared are together. -/
theorem Together.of_cursor (first : World σ δ) {next next' : World σ δ}
    (apart : next.heap.regions.Apart)
    (cursor
      : next.heap.regions.destination.cursor = first.heap.regions.destination.cursor)
    (agrees : next.AgreesOn (pass.Shared matters first.heap.regions) next')
    : pass.Together matters next next' :=
  ⟨apart, by rwa [shared_of_cursor cursor]⟩

-----------------------------------------------------------------------------------------
-- What is done besides tracing
-----------------------------------------------------------------------------------------

namespace Together

variable (together : pass.Together matters first second)

include together

/-- What both runs do alike to the parts that callbacks see, they do to their worlds. -/
theorem onSite {action : Action (Site σ δ) α}
    (tends
      : Runs action first.site (fun _ final => first.site.Advances final)
          fun _ final => first.site.Advances final)
    (tandem
      : Alongside action action first.site second.site fun _ => pass.InTandem matters)
    : Alongside (World.onSite action) (World.onSite action) first second
        fun _ => pass.Together matters := by
  refine .onSite ((tandem.and_runs tends).mono ?_)
  rintro _ final final' ⟨advances, tandem⟩
  exact ⟨advances.1.apart together.apart, together.agrees.withSite tandem⟩

/-- Both runs log the same event. -/
theorem report (event : Event)
    : Alongside (World.report event) (World.report event) first second
        fun _ => pass.Together matters := by
  have agrees := together.agrees
  refine .onSite ?_
  intro _ _ run
  cases run
  exact ⟨_, rfl, together.apart, agrees.regions, agrees.rest, agrees.host,
    congrArg (event :: ·) agrees.log⟩

/-- Both runs change their heaps in a way that has nothing to do with memory. -/
theorem modifyHeap (change : Heap δ → Heap δ) (memory : ∀ heap, (change heap).regions = heap.regions)
    (outside : ∀ heap regions, change { heap with regions } = { change heap with regions })
    : Alongside (World.modifyHeap change) (World.modifyHeap change) first second
        fun _ => pass.Together matters := by
  refine .modifyHeap (.of_cursor first ?_ ?_ (together.agrees.heap ?_ ?_))
  · rw [memory]
    exact together.apart
  · rw [memory]
  · rw [memory, memory]
    exact together.agrees.regions
  · rw [memory, together.agrees.rest]
    exact outside _ _

/-- Both runs move on to the same phase. -/
theorem enterPhase (phase : Phase)
    : Alongside (World.enterPhase phase) (World.enterPhase phase) first second
        fun _ => pass.Together matters := by
  refine .heapNow_bind ?_
  rw [together.agrees.table Heap.phase fun _ _ => rfl]
  exact .bind (together.report _) fun _ _ _ together =>
    together.modifyHeap _ (fun _ => rfl) fun _ _ => rfl

/-- Both runs empty the birth region. -/
theorem resetYoung
    : Alongside (World.modifyHeap Collector.resetYoung) (World.modifyHeap Collector.resetYoung) first
        second fun _ => pass.Together matters :=
  .modifyHeap (.of_cursor first ⟨together.apart.old, together.apart.target⟩ rfl
    (together.agrees.heap together.agrees.regions.reset
      (congrArg (fun heap : Heap δ =>
        { Collector.resetYoung heap with
          regions := { second.heap.regions with birth := second.heap.regions.birth.reset } })
        together.agrees.rest)))

/-- Both runs go on in the semispace that was copied to. -/
theorem adoptTarget
    : Alongside (World.modifyRegions Collector.adoptTarget)
        (World.modifyRegions Collector.adoptTarget) first second fun _ => pass.Together matters := by
  have agrees := together.agrees
  refine .onSite ?_
  intro _ _ run
  cases run
  exact ⟨_, rfl, .of_cursor first ⟨together.apart.isOld_destination, nofun⟩ rfl
    (agrees.withSite ⟨agrees.regions.adopted together.apart, agrees.host, agrees.log⟩)⟩

/-- Both runs let the host know the same. -/
theorem callHook (hook : σ → Reply σ Unit)
    : Alongside (World.onSite (Collector.callHook hook)) (World.onSite (Collector.callHook hook)) first
        second fun _ => pass.Together matters := by
  have agrees := together.agrees
  refine .onSite (.get_bind ?_)
  rw [show second.site.host = first.site.host from agrees.host]
  refine .accept (.of_cursor first together.apart rfl (agrees.withSite ⟨agrees.regions, rfl, ?_⟩))
  exact congrArg (_ ++ ·) agrees.log

/-- Both runs sweep the same fixed objects. -/
theorem sweepFixed (host : Host σ δ)
    : Alongside (World.onSite (Collector.sweepFixed host)) (World.onSite (Collector.sweepFixed host))
        first second fun _ => pass.Together matters := by
  have agrees := together.agrees
  refine .onSite (.get_bind ?_)
  rw [show second.site.host = first.site.host from agrees.host, agrees.site.regions.fixed]
  split
  next => exact .stop
  next swept _ =>
    refine .modifyRegions_bind (.accept (.of_cursor first
      ⟨together.apart.old, together.apart.target⟩ rfl (agrees.withSite
      ⟨agrees.regions.changeFixed fun _ => swept.space, rfl, ?_⟩)))
    exact congrArg (_ ++ ·) agrees.log

end Together

-----------------------------------------------------------------------------------------
-- Minor collections
-----------------------------------------------------------------------------------------

section Minor

variable {contract : Contract σ} {world : World σ δ} (sound : world.Sound contract)
  (addressable : world.Addressable) {host : Host σ δ} (faithful : host.Traces contract)
  (discreet : host.Discreet contract)
  (covers : ∀ space offset, (ofMinor contract world).DependsOn space offset → matters space offset)

include sound addressable faithful discreet covers

/-- Both runs visit the recorded slots, if these matter. -/
theorem visitRemembered_accompanied {kept : List Value} {fresh : List Nat}
    (recorded : ∀ offset, world.heap.regions.birth.bufferStart ≤ offset → matters .birth offset)
    (accompanied : (ofMinor contract world).Accompanied matters world.heap kept fresh first second)
    {next next' : Action (World σ δ) α} {ended : α → World σ δ → World σ δ → Prop}
    (further
      : ∀ between between',
          (ofMinor contract world).Accompanied matters world.heap kept fresh between between' →
          Alongside next next' between between' ended)
    : Alongside
        (do
          World.onSite (Collector.visitRemembered host
            (← World.heapNow).regions.birth.remembered)
          next)
        (do
          World.onSite (Collector.visitRemembered host
            (← World.heapNow).regions.birth.remembered)
          next') first second ended := by
  have ready := ready_ofMinor sound addressable
  obtain ⟨trail, standing⟩ := accompanied.standing
  have start : first.heap.regions.birth.bufferStart = world.heap.regions.birth.bufferStart :=
    standing.moment.progress.evolves.bufferStart
  refine .heapNow_bind ?_
  rw [accompanied.agrees.regions.remembered fun offset above => .inl (recorded offset (start ▸ above))]
  refine .bind (accompanied.onSite (fun _ => kept) (Collector.tends_visitRemembered host _ _) ?_)
    fun _ between between' => further between between'
  intro trail moment tandem
  have handles := remembered_handled sound moment.progress
  refine ((visitRemembered_inTandem ready covers faithful discreet _ handles moment
    tandem).and_runs (visitRemembered_forwards ready faithful _ handles moment)).mono ?_
  rintro _ final final' ⟨⟨later, visits, -⟩, tandem⟩
  exact ⟨⟨later, visits.toOnward⟩, tandem⟩

/-- Both runs scan the fresh fixed objects, which then count as fresh no longer. -/
theorem scanFresh_accompanied {kept : List Value}
    (accompanied
      : (ofMinor contract world).Accompanied matters world.heap kept
          world.heap.regions.fixed.recent first second)
    {next next' : Action (World σ δ) α} {ended : α → World σ δ → World σ δ → Prop}
    (further
      : ∀ between between',
          (ofMinor contract world).Accompanied matters world.heap kept [] between between' →
          Alongside next next' between between' ended)
    : Alongside
        (do
          let fresh := (← World.heapNow).regions.fixed.freshObjects
          World.modifyRegions fun regions => { regions with fixed := regions.fixed.clearFresh }
          World.onSite
            (Collector.scanFixedList host (← World.heapNow).phase host.scanFixedMinor fresh)
          next)
        (do
          let fresh := (← World.heapNow).regions.fixed.freshObjects
          World.modifyRegions fun regions => { regions with fixed := regions.fixed.clearFresh }
          World.onSite
            (Collector.scanFixedList host (← World.heapNow).phase host.scanFixedMinor fresh)
          next') first second ended := by
  have ready := ready_ofMinor sound addressable
  have minor := full_ofMinor sound
  have handles : ∀ start ∈ first.heap.regions.fixed.freshObjects,
      (ofMinor contract world).HandlesObject start := fresh_handled accompanied.recent
  refine .heapNow_bind ?_
  rw [accompanied.agrees.regions.fixed]
  refine .bind accompanied.clearFresh fun _ _ _ accompanied => .heapNow_bind ?_
  rw [accompanied.agrees.table Heap.phase fun _ _ => rfl]
  refine .bind (accompanied.onSite (fun _ => kept) (Collector.tends_scanFixedList host _ _ _ _) ?_)
    fun _ between between' => further between between'
  intro trail moment tandem
  refine ((scanFixedList_inTandem ready covers faithful discreet minor _ _ handles moment
    tandem).and_runs (scanFixedList_filled ready minor faithful _ _ handles moment)).mono ?_
  rintro _ final final' ⟨⟨later, visits, -⟩, tandem⟩
  exact ⟨⟨later, visits.toOnward⟩, tandem⟩

/-- Both runs visit the same places that a minor collection starts from. -/
theorem visitMinorRoots_accompanied
    (recorded : ∀ offset, world.heap.regions.birth.bufferStart ≤ offset → matters .birth offset)
    (accompanied
      : (ofMinor contract world).Accompanied matters world.heap (contract.roots world.host)
          world.heap.regions.fixed.recent first second)
    : Alongside (Collector.visitMinorRoots host) (Collector.visitMinorRoots host) first second
        fun _ final =>
          (ofMinor contract world).Accompanied matters world.heap (contract.roots final.host) []
            final := by
  have ready := ready_ofMinor sound addressable
  have traced : ∀ root, (ofMinor contract world).Traced (world.heap.rootValue root) :=
    fun root => .start (.rooted (.root root))
  have forwards := faithful.extraMinorRoots (contract.roots world.host)
  rw [← full_ofMinor sound] at forwards
  unfold Collector.visitMinorRoots
  refine visitTable_accompanied ready covers faithful discreet traced Heap.frameRoots (fun _ _ => rfl)
    accompanied ?_
  intro _ _ accompanied
  refine visitTable_accompanied ready covers faithful discreet traced Heap.pendingRoots (fun _ _ => rfl)
    accompanied ?_
  intro _ _ accompanied
  refine visitRemembered_accompanied sound addressable faithful discreet covers recorded accompanied ?_
  intro _ _ accompanied
  refine visitTable_accompanied ready covers faithful discreet traced Heap.changedModuleRoots (fun _ _ => rfl)
    accompanied ?_
  intro _ _ accompanied
  refine visitTable_accompanied ready covers faithful discreet traced Heap.dirtyConstantRoots (fun _ _ => rfl)
    accompanied ?_
  intro _ _ accompanied
  refine scanFresh_accompanied sound addressable faithful discreet covers accompanied ?_
  intro _ _ accompanied
  exact visitHost_accompanied ready covers faithful discreet accompanied forwards
    fun root member => .start (.rooted (.kept member))

/-- Both runs scan the same promoted objects. -/
theorem scanPromoted_together {kept : List Value} {fresh : List Nat}
    (accompanied : (ofMinor contract world).Accompanied matters world.heap kept fresh first second)
    : Alongside
        (World.onSite (Collector.scanPromoted host .relocating world.heap.regions.old.space
          world.heap.regions.old.free world.heap.regions.old.cursor))
        (World.onSite (Collector.scanPromoted host .relocating world.heap.regions.old.space
          world.heap.regions.old.free world.heap.regions.old.cursor)) first second
        fun _ => (ofMinor contract world).Together matters := by
  have ready := ready_ofMinor sound addressable
  have destination := destination_ofMinor sound
  have space : (ofMinor contract world).space = world.heap.regions.old.space := by
    rw [Pass.space, destination]
  have base : (ofMinor contract world).base = world.heap.regions.old.cursor := by
    rw [Pass.base, destination]
  obtain ⟨trail, standing⟩ := accompanied.standing
  rw [← space, ← base]
  exact (accompanied.together ready).onSite (Collector.tends_scanPromoted host _ _ _ _ _)
    (scanPromoted_inTandem ready covers faithful discreet (full_ofMinor sound) _ _ standing.moment
      (.initial trail _) accompanied.agrees.site)

/-- Two minor collections of worlds that agree in what matters stay together to the end. -/
theorem minor_together
    (recorded : ∀ offset, world.heap.regions.birth.bufferStart ≤ offset → matters .birth offset)
    (agrees : world.AgreesOn matters second) (reason : Reason)
    : Alongside (Collector.minor host reason) (Collector.minor host reason) world second
        fun _ => (ofMinor contract world).Together matters := by
  have old := agrees.regions.oldSpace
  have cursor := agrees.regions.oldCursor
  have free : second.heap.regions.old.free = world.heap.regions.old.free := by
    simp only [Semispace.free, Semispace.capacity, agrees.regions.oldSize, cursor]
  simp only [Collector.minor, Collector.nextId, bind_assoc, pure_bind]
  refine .heapNow_bind ?_
  rw [agrees.table Heap.collections fun _ _ => rfl]
  refine .modifyHeap_bind (.heapNow_bind (.modifyMemory_bind (.enterPhase_bind ?_)))
  simp only [old, cursor, free]
  -- nothing was copied yet
  have shared : ∀ space offset,
      (ofMinor contract world).Shared matters (Collector.minorStart world.heap).regions space
        offset →
      matters space offset := by
    rintro space offset (here | ⟨-, above, below⟩)
    · exact here
    · have start : (Collector.minorStart world.heap).regions.destination.cursor
          = (ofMinor contract world).base := rfl
      omega
  refine .bind (visitMinorRoots_accompanied sound addressable faithful discreet covers recorded
    ⟨⟨{}, standing_ofMinor sound addressable _⟩, rfl, (agrees.regions.recounted 0).mono shared, ?_,
      agrees.host, ?_⟩) fun _ _ _ accompanied => ?_
  · exact congrArg (fun heap : Heap δ =>
      { heap with
        collections := world.heap.collections + 1
        regions := { second.heap.regions with copied := 0 }
        phase := .scanningRoots }) agrees.rest
  · have same : second.heap.phase = world.heap.phase := agrees.table Heap.phase fun _ _ => rfl
    change Event.phaseChanged second.heap.phase .scanningRoots :: second.log
      = .phaseChanged world.heap.phase .scanningRoots :: world.log
    rw [same, agrees.log]
  refine .bind (accompanied.enterPhase (by decide)) fun _ _ _ accompanied => ?_
  refine .bind (scanPromoted_together sound addressable faithful discreet covers accompanied)
    fun _ _ _ together => ?_
  refine .bind (together.enterPhase _) fun _ _ _ together => .heapNow_bind ?_
  rw [together.agrees.regions.copied]
  refine .bind together.resetYoung fun _ _ _ together => ?_
  refine .bind (together.enterPhase _) fun _ _ _ together => ?_
  refine .bind (together.modifyHeap _ (fun _ => rfl) fun _ _ => rfl) fun _ _ _ together => ?_
  refine .bind (together.report _) fun _ _ _ together => .heapNow_bind ?_
  rw [together.agrees.table Heap.config fun _ _ => rfl, together.agrees.regions.oldCursor]
  exact .ite (fun _ => together.report _) fun _ => .pure together

end Minor

-----------------------------------------------------------------------------------------
-- Full collections
-----------------------------------------------------------------------------------------

section Full

variable {contract : Contract σ} {world : World σ δ} {words : Arena}
  (collectable : world.Collectable contract) (addressable : world.Addressable)
  {host : Host σ δ} (mapped : host.mapper.map? (Collector.targetWords world.heap) = some words)
  (faithful : host.Traces contract) (discreet : host.Discreet contract)
  (covers
    : ∀ space offset, (ofFull contract world words).DependsOn space offset → matters space offset)

include collectable addressable mapped faithful discreet covers

/-- Both runs visit the same roots of a full collection. -/
theorem visitFullRoots_accompanied {fresh : List Nat}
    (accompanied
      : (ofFull contract world words).Accompanied matters world.heap (contract.roots world.host)
          fresh first second)
    : Alongside (Collector.visitFullRoots host) (Collector.visitFullRoots host) first second
        fun _ final =>
          (ofFull contract world words).Accompanied matters world.heap (contract.roots final.host)
            fresh final := by
  have ready := ready_ofFull collectable addressable mapped
  have traced : ∀ root, (ofFull contract world words).Traced (world.heap.rootValue root) :=
    fun root => .start (.root root)
  unfold Collector.visitFullRoots
  refine visitTable_accompanied ready covers faithful discreet traced Heap.frameRoots (fun _ _ => rfl)
    accompanied ?_
  intro _ _ accompanied
  refine visitTable_accompanied ready covers faithful discreet traced Heap.pendingRoots
    (fun _ _ => rfl) accompanied ?_
  intro _ _ accompanied
  refine visitTable_accompanied ready covers faithful discreet traced Heap.moduleRoots
    (fun _ _ => rfl) accompanied ?_
  intro _ _ accompanied
  refine visitTable_accompanied ready covers faithful discreet traced Heap.constantRoots
    (fun _ _ => rfl) accompanied ?_
  intro _ _ accompanied
  exact visitHost_accompanied ready covers faithful discreet accompanied
    (faithful.extraFullRoots (contract.roots world.host)) fun root member => .start (.kept member)

/-- Both runs scan the same survivors. -/
theorem scanSurvivors_together {kept : List Value} {fresh : List Nat} (steps : Nat)
    (accompanied
      : (ofFull contract world words).Accompanied matters world.heap kept fresh first second)
    : Alongside
        (World.onSite (Collector.scanSurvivors host .relocating world.heap.regions.old.space.flipped
          steps 0))
        (World.onSite (Collector.scanSurvivors host .relocating world.heap.regions.old.space.flipped
          steps 0)) first second fun _ => (ofFull contract world words).Together matters := by
  have ready := ready_ofFull collectable addressable mapped
  obtain ⟨trail, standing⟩ := accompanied.standing
  have isFull : first.site.regions.isFull := standing.moment.isFull
  exact (accompanied.together ready).onSite (Collector.runs_scanSurvivors host _ _ _ _ isFull)
    (scanSurvivors_inTandem ready covers faithful discreet full_ofFull _
      (fun _ _ progress _ marked => (handles_ofFull progress marked).2) steps standing.moment
      (.initial trail _) accompanied.agrees.site)

/-- Two full collections of worlds that agree in what matters stay together to the end. -/
theorem full_together (agrees : world.AgreesOn matters second) (reason : Reason)
    : Alongside (Collector.full host reason) (Collector.full host reason) world second
        fun _ => (ofFull contract world words).Together matters := by
  have regions := agrees.regions
  have phase : second.heap.phase = world.heap.phase := agrees.table Heap.phase fun _ _ => rfl
  have config : second.heap.config = world.heap.config := agrees.table Heap.config fun _ _ => rfl
  have collections : second.heap.collections = world.heap.collections :=
    agrees.table Heap.collections fun _ _ => rfl
  simp only [Collector.full, Collector.nextId, Collector.openTarget, bind_assoc, pure_bind]
  refine .heapNow_bind ?_
  rw [collections]
  refine .modifyHeap_bind (.step_bind rfl rfl (.heapNow_bind (.enterPhase_bind (.heapNow_bind ?_))))
  -- nothing that was read so far is a word that may differ
  simp only [World.withSite, World.site, Collector.targetWords, BirthRegion.capacity, agrees.host,
    agrees.log, phase, config, regions.oldSpace, regions.oldCursor, regions.fixed,
    regions.birthCursor, regions.birthSize]
  refine .requireWorld_bind fun found there => .modifyMemory_bind ?_
  obtain rfl : words = found := Option.some.inj (mapped.symm.trans there)
  -- nothing was copied yet
  have shared : ∀ space offset,
      (ofFull contract world words).Shared matters (Collector.fullStart world.heap words).regions
        space offset →
      matters space offset :=
    fun space offset here => here.resolve_right fun copied => Nat.not_lt_zero _ copied.2.2
  refine .bind (visitFullRoots_accompanied collectable addressable mapped faithful discreet covers
    ⟨⟨{}, standing_ofFull collectable addressable mapped faithful _⟩, rfl,
      ((regions.opened (Collector.fullTarget world.heap words)).recounted 0).mono shared, ?_, rfl,
      rfl⟩) fun _ _ _ accompanied => ?_
  · exact congrArg (fun heap : Heap δ =>
      { heap with
        config := world.heap.config
        collections := world.heap.collections + 1
        regions :=
          { second.heap.regions with
            target := some (Collector.fullTarget world.heap words), copied := 0 }
        phase := .scanningRoots }) agrees.rest
  refine .bind (accompanied.enterPhase (by decide)) fun _ _ _ accompanied => ?_
  refine .bind (scanSurvivors_together collectable addressable mapped faithful discreet covers _
    accompanied) fun _ _ _ together => ?_
  refine .bind (together.enterPhase _) fun _ _ _ together => .heapNow_bind ?_
  rw [together.agrees.regions.copied]
  refine .bind (together.sweepFixed host) fun _ _ _ together => ?_
  refine .bind together.adoptTarget fun _ _ _ together => ?_
  refine .bind together.resetYoung fun _ _ _ together => .heapNow_bind ?_
  rw [together.agrees.regions.fixed]
  refine .bind (together.enterPhase _) fun _ _ _ together => ?_
  refine .bind (together.modifyHeap _ (fun _ => rfl) fun _ _ => rfl) fun _ _ _ together => ?_
  refine .bind (together.modifyHeap _ (fun _ => rfl) fun _ _ => rfl) fun _ _ _ together => ?_
  refine .bind (together.callHook host.afterFull) fun _ _ _ together => ?_
  refine .bind (together.report _) fun _ _ _ together => .heapNow_bind ?_
  rw [together.agrees.table Heap.config fun _ _ => rfl, together.agrees.regions.oldCursor]
  exact .ite (fun _ => together.report _) fun _ => .pure together

end Full

end Pass

end MovingHeap
