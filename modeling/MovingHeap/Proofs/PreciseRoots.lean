import MovingHeap.Proofs.FullCollection
import MovingHeap.Proofs.MinorCollection
import MovingHeap.Proofs.PreciseScanning

/-! Visiting the roots of two heaps that agree in the words that matter.
The tables of roots are the same in both, so both runs visit the same roots, recorded slots and fresh
fixed objects in the same order. The first run shows which objects were met.
-/

namespace MovingHeap

variable {σ δ α : Type}

namespace Pass

/-- Two runs of a collection have come as far in their worlds: of the first it is known which fixed
objects count as fresh, and both agree in all that they share.
-/
structure Accompanied (pass : Pass σ δ) (matters : Space → Nat → Prop) (origin : Heap δ)
    (kept : List Value) (fresh : List Nat) (first second : World σ δ)
    : Prop where
  standing : ∃ trail, pass.Standing origin kept trail first
  recent : first.heap.regions.fixed.recent = fresh
  agrees : first.AgreesOn (pass.Shared matters first.heap.regions) second

variable {pass : Pass σ δ} {matters : Space → Nat → Prop} {origin : Heap δ} {kept : List Value}
  {fresh : List Nat} {first second : World σ δ}

-----------------------------------------------------------------------------------------
-- Steps
-----------------------------------------------------------------------------------------

/-- What both runs do alike to the parts that callbacks see, they do to their worlds. -/
theorem Accompanied.onSite (accompanied : pass.Accompanied matters origin kept fresh first second)
    {action : Action (Site σ δ) α} (kept' : Site σ δ → List Value)
    (tends
      : Runs action first.site (fun _ final => first.site.Advances final)
          fun _ final => first.site.Advances final)
    (visits
      : ∀ trail,
          pass.Moment kept trail first.site →
          pass.InTandem matters first.site second.site →
          Alongside action action first.site second.site fun _ final final' =>
            (∃ later, pass.Onward (kept' final) trail first.heap.regions later final)
            ∧ pass.InTandem matters final final')
    : Alongside (World.onSite action) (World.onSite action) first second fun _ final =>
        pass.Accompanied matters origin (kept' final.site) fresh final := by
  obtain ⟨⟨trail, standing⟩, recent, agrees⟩ := accompanied
  refine .onSite (((visits trail standing.moment agrees.site).and_runs tends).mono ?_)
  rintro _ final final' ⟨advances, ⟨later, onward⟩, tandem⟩
  exact ⟨⟨later, (standing.withSite advances onward).standing⟩, advances.2.trans recent,
    agrees.withSite tandem⟩

/-- Both runs move on to the same phase of the collection. -/
theorem Accompanied.enterPhase
    (accompanied : pass.Accompanied matters origin kept fresh first second) {phase : Phase}
    (busy : phase ≠ .idle)
    : Alongside (World.enterPhase phase) (World.enterPhase phase) first second
        fun _ => pass.Accompanied matters origin kept fresh := by
  obtain ⟨⟨trail, standing⟩, recent, agrees⟩ := accompanied
  intro _ _ run
  cases run
  refine ⟨_, rfl, ⟨trail, (standing.enterPhase busy _).standing⟩, recent, agrees.regions, ?_,
    agrees.host, ?_⟩
  · exact congrArg (fun heap : Heap δ => { heap with phase }) agrees.rest
  · have same : second.heap.phase = first.heap.phase := agrees.table Heap.phase fun _ _ => rfl
    change Event.phaseChanged second.heap.phase phase :: second.log = _
    rw [agrees.log, same]
    rfl

/-- Both runs forget which objects are fresh. -/
theorem Accompanied.clearFresh
    (accompanied : pass.Accompanied matters origin kept fresh first second)
    : Alongside
        (World.modifyRegions fun regions => { regions with fixed := regions.fixed.clearFresh })
        (World.modifyRegions fun regions => { regions with fixed := regions.fixed.clearFresh }) first
        second fun _ => pass.Accompanied matters origin kept [] := by
  obtain ⟨⟨trail, standing⟩, -, agrees⟩ := accompanied
  intro _ _ run
  cases run
  refine ⟨_, rfl, ⟨trail, standing.moment.clearFresh.moment, fun root => ?_⟩, rfl,
    agrees.withSite ⟨agrees.regions.changeFixed FixedSpace.clearFresh, agrees.host, agrees.log⟩⟩
  cases root <;> exact standing.carried _

section Visits

variable (ready : pass.Ready)
  (covers : ∀ space offset, pass.DependsOn space offset → matters space offset) {host : Host σ δ}
  (faithful : host.Traces pass.contract) (discreet : host.Discreet pass.contract)

include ready covers faithful discreet

-----------------------------------------------------------------------------------------
-- Roots
-----------------------------------------------------------------------------------------

/-- Both runs forward what a root holds. -/
theorem visitRoot_accompanied
    (accompanied : pass.Accompanied matters origin kept fresh first second) {root : Root}
    (traced : pass.Traced (origin.rootValue root))
    : Alongside (Collector.visitRoot host root) (Collector.visitRoot host root) first second
        fun _ => pass.Accompanied matters origin kept fresh := by
  obtain ⟨⟨trail, standing⟩, recent, agrees⟩ := accompanied
  have moment := standing.moment
  have forwards : Alongside (World.onSite (Collector.forward host (first.heap.rootValue root)))
      (World.onSite (Collector.forward host (first.heap.rootValue root))) first second
      fun _ final final' => final.AgreesOn (pass.Shared matters final.heap.regions) final' :=
    .onSite ((forward_inTandem ready moment covers agrees.site faithful discreet
      fun addr found moves => moment.progress.met_of_carried ready traced (standing.carried root)
        found moves).mono fun _ _ _ tandem => agrees.withSite tandem)
  have together : Alongside (Collector.visitRoot host root) (Collector.visitRoot host root) first
      second fun _ final final' =>
        final.AgreesOn (pass.Shared matters final.heap.regions) final' := by
    refine .heapNow_bind ?_
    rw [agrees.rootValue]
    refine forwards.bind fun forwarded between between' agrees => .ite (fun _ => .modifyHeap ?_)
      fun _ => .pure agrees
    rw [Heap.regions_setRoot]
    exact agrees.setRoot root forwarded
  refine (together.and_runs (visitRoot_forwards ready standing faithful traced)).mono ?_
  rintro _ final final' ⟨⟨later, proceeds, -⟩, agrees⟩
  exact ⟨⟨later, proceeds.standing⟩, proceeds.recent.trans recent, agrees⟩

/-- Both runs forward what some roots hold, by one root after another. -/
theorem visitRoots_accompanied (traced : ∀ root, pass.Traced (origin.rootValue root))
    (roots : List Root) (accompanied : pass.Accompanied matters origin kept fresh first second)
    : Alongside (Collector.visitRoots host roots) (Collector.visitRoots host roots) first second
        fun _ => pass.Accompanied matters origin kept fresh := by
  induction roots generalizing first second with
  | nil => exact .pure accompanied
  | cons root roots ih =>
      exact .bind (visitRoot_accompanied ready covers faithful discreet accompanied (traced root))
        fun _ _ _ accompanied => ih accompanied

/-- Both runs forward the roots of a table, which is the same in both heaps. -/
theorem visitTable_accompanied (traced : ∀ root, pass.Traced (origin.rootValue root))
    (table : Heap δ → List Root) (outside : ∀ heap regions, table { heap with regions } = table heap)
    (accompanied : pass.Accompanied matters origin kept fresh first second)
    {next next' : Action (World σ δ) α} {ended : α → World σ δ → World σ δ → Prop}
    (further
      : ∀ between between',
          pass.Accompanied matters origin kept fresh between between' →
          Alongside next next' between between' ended)
    : Alongside (do
          Collector.visitRoots host (table (← World.heapNow))
          next)
        (do
          Collector.visitRoots host (table (← World.heapNow))
          next') first second ended := by
  refine .heapNow_bind ?_
  rw [accompanied.agrees.table table outside]
  exact .bind (visitRoots_accompanied ready covers faithful discreet traced _ accompanied)
    fun _ between between' => further between between'

/-- Both runs forward the roots that the host keeps itself. -/
theorem visitHost_accompanied (accompanied : pass.Accompanied matters origin kept fresh first second)
    {program : Visit σ Unit} (forwards : program.ForwardsRoots pass.contract pass.full kept kept [])
    (traced : ∀ root ∈ kept, pass.Traced root)
    : Alongside (Collector.visit host program) (Collector.visit host program) first second
        fun _ final => pass.Accompanied matters origin (pass.contract.roots final.host) fresh final
          := by
  refine .heapNow_bind ?_
  rw [accompanied.agrees.table Heap.phase fun _ _ => rfl]
  refine accompanied.onSite (fun site => pass.contract.roots site.host)
    (Collector.tends_runVisit host _ _ _) fun trail moment tandem => ?_
  refine ((runVisit_rootsInTandem ready covers faithful discreet _ traced forwards moment nofun
    tandem).and_runs (runVisit_forwardsRoots ready faithful _ traced forwards moment nofun)).mono ?_
  rintro _ final final' ⟨⟨later, visits, -⟩, tandem⟩
  exact ⟨⟨later, visits.toOnward⟩, tandem⟩

end Visits

end Pass

end MovingHeap
