import MovingHeap.Proofs.ScanBounds

/-! Collections end on their own, whatever the host does.
The bounds that the loops are given are never what ends them, and the scans that a host is asked for
are few: so many as there is room for copies, and one for each fixed object that is due.
-/

namespace MovingHeap

variable {σ δ α : Type}

-----------------------------------------------------------------------------------------
-- Scans of a minor collection
-----------------------------------------------------------------------------------------

/-- The scans that a minor collection may ask for: one for every word of the old region that is free
when it starts, and one for each fresh fixed object.
-/
structure Heap.MinorScans (heap : Heap δ) (calls : List Scan) : Prop where
  promoted : calls.countP Scan.isMinor ≤ heap.regions.old.capacity - heap.regions.old.cursor
  fixed
    : ∃ starts : List Nat,
        starts.Nodup
        ∧ (∀ start ∈ starts, start ∈ heap.regions.fixed.freshObjects)
        ∧ calls.filterMap Scan.fixedMinor? = starts.map (Address.pack .fixed)

/-- The scans that a full collection may ask for: one for every word of the target, and one for each
fixed object that the host has not given up.
-/
structure Heap.FullScans (heap : Heap δ) (calls : List Scan) : Prop where
  copied : calls.countP Scan.isFull ≤ Collector.targetWords heap
  fixed
    : ∃ starts : List Nat,
        starts.Nodup
        ∧ (∀ start ∈ starts,
            ∃ occupant,
              heap.regions.fixed.occupant? start = some occupant ∧ occupant.forgotten = false)
        ∧ calls.filterMap Scan.fixedFull? = starts.map (Address.pack .fixed)

/-- What the two parts of a minor collection ask for is what it may ask for. -/
theorem Heap.minorScans_of_parts {heap : Heap δ} (listed : heap.regions.fixed.Listed)
    {middle calls : List Scan}
    (fixed : Scan.FixedMinors heap.regions.fixed.freshObjects [] middle)
    (promoted
      : Scan.Minors (heap.regions.old.capacity - heap.regions.old.cursor) middle calls)
    : heap.MinorScans calls := by
  obtain ⟨done, fewer, rfl⟩ := fixed
  obtain ⟨more, rfl, short, all⟩ := promoted
  have nodup : heap.regions.fixed.freshObjects.Nodup := List.nodup_reverse.mpr listed.nodup
  have others : more.filterMap Scan.fixedMinor? = [] := by
    apply List.filterMap_eq_nil_iff.mpr
    intro scan member
    cases scan with
    | fixedMinor => exact absurd (all _ member) (by simp [Scan.isMinor])
    | _ => rfl
  refine ⟨?_, done.reverse, ?_, ?_, ?_⟩
  · have fixed : List.countP Scan.isMinor
        (done.map fun start => Scan.fixedMinor (.pack .fixed start)).reverse = 0 := by
      apply List.countP_eq_zero.mpr
      intro scan member
      obtain ⟨start, -, rfl⟩ := List.mem_map.mp (List.mem_reverse.mp member)
      simp [Scan.isMinor]
    rw [List.append_nil, List.countP_append, fixed]
    exact List.countP_le_length.trans short
  · exact List.nodup_reverse.mpr (nodup.sublist fewer)
  · exact fun start member => fewer.subset (List.mem_reverse.mp member)
  · rw [List.append_nil, List.filterMap_append, others, ← List.map_reverse, List.filterMap_map,
      List.nil_append]
    exact congrFun List.filterMap_eq_map _

namespace Collector

/-- Before promoted objects are scanned, fresh fixed objects are, and nothing else. -/
theorem fixedMinors_visitMinorRoots (host : Host σ δ) (world : World (σ × List Scan) δ)
    : Runs (visitMinorRoots host.counting) world
        (fun _ final =>
          Scan.FixedMinors world.heap.regions.fixed.freshObjects world.host.2 final.host.2)
        fun _ final =>
          Scan.FixedMinors world.heap.regions.fixed.freshObjects world.host.2 final.host.2 := by
  have invariant := invariant_fixed
    (fun space : FixedSpace δ => space.recent = world.heap.regions.fixed.recent)
    fun _ _ recent _ same => recent.trans same
  have roots : ∀ (list : List Root) (now : World (σ × List Scan) δ),
      now.heap.regions.fixed.recent = world.heap.regions.fixed.recent →
      now.host.2 = world.host.2 →
      Runs (visitRoots host.counting list) now
        (fun _ final =>
          final.heap.regions.fixed.recent = world.heap.regions.fixed.recent
          ∧ final.host.2 = world.host.2)
        fun _ final => final.host.2 = world.host.2 := by
    intro list now here there
    exact (maintains_visitRoots invariant (copyKeeps_counting _) list here there).mono
      (fun _ _ => id) fun _ _ => And.right
  have none : ∀ calls, calls = world.host.2 →
      Scan.FixedMinors world.heap.regions.fixed.freshObjects world.host.2 calls := by
    intro calls same
    rw [same]
    exact .none _ _
  simp only [visitMinorRoots, visit, runs_bind, World.runs_heapNow, World.runs_modifyRegions]
  refine (roots _ _ rfl rfl).mono (fun _ framed first => ?_) fun _ _ => none _
  refine (roots _ _ first.1 first.2).mono (fun _ pended second => ?_) fun _ _ => none _
  refine (maintains_onSite (maintains_visitRemembered invariant (copyKeeps_counting _) _) second.1
    second.2).mono (fun _ noted third => ?_) fun _ _ stopped => none _ stopped.2
  refine (roots _ _ third.1 third.2).mono (fun _ loaded fourth => ?_) fun _ _ => none _
  refine (roots _ _ fourth.1 fourth.2).mono (fun _ rooted fifth => ?_) fun _ _ => none _
  have fresh : rooted.heap.regions.fixed.freshObjects = world.heap.regions.fixed.freshObjects :=
    congrArg List.reverse fifth.1
  rw [fresh, ← fifth.2, World.runs_onSite]
  refine Runs.mono (fixedMinors_scanFixedList invariant_true rooted.heap.phase _ trivial) ?_ ?_
  · intro _ scanned sixth
    refine (maintains_onSite (maintains_runVisit invariant_true (copyKeeps_counting scanned.host.2)
      _ (host.extraMinorRoots.keeps_beside _)) trivial rfl).mono ?_ ?_
    · intro _ final last
      rw [last.2]
      exact sixth.2
    · intro _ final last
      rw [last.2]
      exact sixth.2
  · exact fun _ _ stopped => stopped.2

/-- What a minor collection traces asks for few scans. -/
theorem minorScans_traceMinor (host : Host σ δ) {heap : Heap δ} (regular : heap.Regular)
    (listed : heap.regions.fixed.Listed) (state : σ) (log : List Event)
    : Runs (traceMinor host.counting heap.regions.old)
        { heap := minorStart heap, host := (state, []), log }
        (fun _ final => heap.MinorScans final.host.2) fun _ final => heap.MinorScans final.host.2 := by
  have begins : Scannable (minorStart heap).regions :=
    ⟨regular.target, regular.oldInside, regular.oldSmall⟩
  simp only [traceMinor, runs_bind, World.runs_enterPhase, World.runs_onSite]
  refine Runs.mono ((fixedMinors_visitMinorRoots host _).and (tends_visitMinorRoots host.counting _))
    ?_ ?_
  · intro _ middle reached
    obtain ⟨still, size⟩ := begins.evolves reached.2.regions
    have promoted : ∀ calls, Scan.Minors (middle.heap.regions.old.capacity
        - heap.regions.old.cursor) middle.host.2 calls → heap.MinorScans calls := by
      intro calls minors
      rw [size] at minors
      exact Heap.minorScans_of_parts listed reached.1 minors
    refine Runs.mono (minors_scanPromoted _ _ _ _ ?_) ?_ ?_
    · exact still
    · exact fun _ final minors => promoted _ minors
    · exact fun _ final minors => promoted _ minors
  · intro _ final stopped
    exact Heap.minorScans_of_parts listed stopped.1 (.none _ _)

/-- A minor collection asks for few scans, whether or not a violation stops it. -/
theorem minorScans_minor (host : Host σ δ) (reason : Reason) {world : World σ δ}
    (regular : world.heap.Regular) (listed : world.heap.regions.fixed.Listed)
    : Runs (minor host.counting reason) (world.beside [])
        (fun _ final => world.heap.MinorScans final.host.2)
        fun _ final => world.heap.MinorScans final.host.2 := by
  apply runs_minor
  intro log
  refine Runs.mono (minorScans_traceMinor host regular listed world.host log) ?_ fun _ _ => id
  intro _ traced few final same _
  rw [same]
  exact few

-----------------------------------------------------------------------------------------
-- Scans of a full collection
-----------------------------------------------------------------------------------------

/-- What a full collection has scanned is what it may ask for. -/
theorem fullScans_of_tallies {heap : Heap δ} {regions : Regions δ} {calls : List Scan}
    (tallies : Tallies heap.regions.fixed (targetWords heap) regions calls)
    : heap.FullScans calls := by
  obtain ⟨moving, scanned, awaits, fixed⟩ := tallies
  refine ⟨moving, scanned, awaits.nodup.sublist (List.sublist_append_left _ _), ?_, fixed⟩
  intro start member
  obtain ⟨occupant, found, -, kept⟩ := awaits.reached start (List.mem_append_left _ member)
  have alike := FixedSpace.occupant?_alike awaits.agree start
  rw [found] at alike
  obtain ⟨former, there, same⟩ := Option.map_eq_some_iff.mp alike.symm
  refine ⟨former, there, ?_⟩
  have forgotten := congrArg Occupant.forgotten same
  rw [Occupant.forgotten_unmarked, Occupant.forgotten_unmarked] at forgotten
  rw [forgotten, kept]

/-- What a full collection traces asks for few scans. -/
theorem fullScans_traceFull (host : Host σ δ) {heap : Heap δ} (regular : heap.Regular)
    {words : Arena} (mapped : host.mapper.map? (targetWords heap) = some words) (slots : Nat)
    (state : σ) (log : List Event)
    : Runs (traceFull host.counting (fullTarget heap words) slots)
        { heap := fullStart heap words, host := (state, []), log }
        (fun _ final => heap.FullScans final.host.2) fun _ final => heap.FullScans final.host.2 := by
  obtain ⟨zeroed, small⟩ := Mapper.size_of_map? mapped
  have size : words.size = targetWords heap := by
    rw [zeroed]
    rfl
  have begins : Awaits heap.regions.fixed [] (fullStart heap words).regions := by
    refine ⟨rfl, ?_, ?_⟩
    · simp [fullStart, regular.unscanned]
    · simp [fullStart, regular.unscanned]
  simp only [traceFull, runs_bind, World.runs_enterPhase, World.runs_onSite]
  refine Runs.mono ((maintains_visitFullRoots (invariant_awaits heap.regions.fixed [])
    (copyKeeps_counting []) (host.extraFullRoots.keeps_beside []) ?_ rfl).and
    (tends_visitFullRoots host.counting _)) ?_ ?_
  · exact begins
  · intro _ middle reached
    obtain ⟨⟨awaits, none⟩, comes⟩ := reached
    have evolves := comes.regions
    have capacity : middle.heap.regions.destination.capacity = targetWords heap :=
      Eq.trans evolves.destinationSize size
    have tallies : ∀ regions calls, Tallies heap.regions.fixed
        middle.heap.regions.destination.capacity regions calls → heap.FullScans calls := by
      intro regions calls tallies
      rw [capacity] at tallies
      exact fullScans_of_tallies tallies
    refine Runs.mono (tallies_scanSurvivors heap.regions.fixed _ _ _ 0 ?_ ?_ ?_ (Nat.zero_le _) ?_) ?_ ?_
    · exact evolves.isFull.trans rfl
    · exact evolves.inside (Nat.zero_le _)
    · exact (Nat.le_of_eq capacity).trans small
    · exact ⟨by simp [World.site, none], [], awaits, by simp [World.site, none]⟩
    · exact fun _ final => tallies _ _
    · exact fun _ final => tallies _ _
  · intro _ final stopped
    rw [stopped.1.2]
    exact ⟨Nat.zero_le _, [], .nil, List.forall_mem_nil _, rfl⟩

/-- Sweeping asks for no scan. -/
theorem calls_sweep_counting {host : Host σ δ} {space : FixedSpace δ} {state : σ × List Scan}
    {swept : Swept (σ × List Scan) δ}
    (sweeps : space.sweep host.counting.destroy state = .ok swept)
    : swept.host.2 = state.2 := by
  simp only [FixedSpace.sweep, runDestructors_counting] at sweeps
  split at sweeps
  · cases sweeps
  · cases sweeps
    rfl

/-- A full collection asks for few scans, whether or not a violation stops it. -/
theorem fullScans_full (host : Host σ δ) (reason : Reason) {world : World σ δ}
    (regular : world.heap.Regular)
    : Runs (full host.counting reason) (world.beside [])
        (fun _ final => world.heap.FullScans final.host.2)
        fun _ final => world.heap.FullScans final.host.2 := by
  cases mapped : host.mapper.map? (targetWords world.heap) with
  | none =>
      simp only [full, nextId, openTarget, callHook, runs_bind, runs_pure, runs_get,
        World.runs_heapNow, World.runs_modifyHeap, World.runs_onSite, Site.runs_accept,
        World.runs_enterPhase, World.runs_require]
      split
      next words found => exact absurd (mapped.symm.trans found) (by simp)
      next => exact ⟨Nat.zero_le _, [], .nil, List.forall_mem_nil _, rfl⟩
  | some words =>
      apply runs_full
      · intro words mapped log
        have isFull : (fullStart world.heap words).regions.isFull := rfl
        refine Runs.mono ((comes_traceFull host.counting _ _ isFull).and
          (fullScans_traceFull host regular mapped _ _ log)) (fun _ traced reached => ?_)
          fun _ _ => And.right
        obtain ⟨comes, few⟩ := reached
        have consistent := comes.regions.consistent regular.consistent
        obtain ⟨swept, sweeps, -⟩ := consistent.sweep host.counting.destroy traced.host
        rw [sweeps]
        intro final same _
        have calls : final.host.2 = traced.host.2 := by
          rw [same]
          exact calls_sweep_counting sweeps
        rw [calls]
        exact few
      · exact fun refused => absurd (mapped.symm.trans refused) (by simp)

-----------------------------------------------------------------------------------------
-- Bounds that are never reached
-----------------------------------------------------------------------------------------

/-- A larger bound makes no difference to scanning promoted objects if the bound covers the words behind
the first one, by induction over the number of steps.
-/
theorem scanPromoted_enough (host : Host σ δ) (phase : Phase) (space : Space) {objects more : Nat}
    (larger : objects ≤ more) (scan : Nat) {site : Site σ δ} (scannable : Scannable site.regions)
    (enough : site.regions.old.capacity - scan ≤ objects)
    : scanPromoted host phase space more scan site
      = scanPromoted host phase space objects scan site := by
  have inside := scannable.inside
  induction objects generalizing more scan site with
  | zero =>
      cases more with
      | zero => rfl
      | succ more =>
          simp only [scanPromoted, get_bind_apply]
          rw [if_neg (by omega)]
  | succ objects ih =>
      obtain ⟨more, rfl⟩ : ∃ fewer, more = fewer + 1 := ⟨more - 1, by omega⟩
      simp only [scanPromoted, get_bind_apply]
      split_ifs with below
      · apply Runs.bind_congr
        apply (tends_runVisit host phase _ site).mono ?_ fun _ _ _ => trivial
        intro next middle advances
        obtain ⟨still, size⟩ := scannable.evolves advances.1
        have limit := still.inside
        rw [get_bind_apply, get_bind_apply]
        apply Runs.bind_congr
        simp only [checkNext, runs_ite, runs_pure, Site.runs_stop]
        split_ifs with onward
        · have place : (Address.pack space scan).offset = scan :=
            Address.offset_pack space (by have small := scannable.small; omega)
          rw [place] at onward
          exact ih (by omega) next.offset still (by omega) limit
      · rfl

/-- A larger bound makes no difference to scanning survivors if the bound covers the words behind the
first one and the fixed objects, by induction over the number of steps.
-/
theorem scanSurvivors_enough (host : Host σ δ) (phase : Phase) (space : Space) {steps more : Nat}
    (larger : steps ≤ more) (scan : Nat) {site : Site σ δ} (full : site.regions.isFull)
    (inside : site.regions.destination.cursor ≤ site.regions.destination.capacity)
    (small : site.regions.destination.capacity ≤ maxOffsetWords)
    (enough
      : site.regions.destination.capacity - scan + site.regions.pendingWork ≤ steps)
    : scanSurvivors host phase space more scan site
      = scanSurvivors host phase space steps scan site := by
  induction steps generalizing more scan site with
  | zero =>
      cases more with
      | zero => rfl
      | succ more =>
          have none : site.regions.unscanned = [] := Regions.unscanned_eq_nil (by omega)
          simp only [scanSurvivors, get_bind_apply]
          rw [if_neg (by omega), none]
  | succ steps ih =>
      obtain ⟨more, rfl⟩ : ∃ fewer, more = fewer + 1 := ⟨more - 1, by omega⟩
      simp only [scanSurvivors, get_bind_apply]
      split_ifs with below
      · apply Runs.bind_congr
        apply (tends_runVisit host phase _ site).mono ?_ fun _ _ _ => trivial
        intro next middle advances
        have evolves := advances.1
        have capacity : middle.regions.destination.capacity
            = site.regions.destination.capacity := evolves.destinationSize
        have limit := evolves.inside inside
        have work := evolves.work
        rw [get_bind_apply, get_bind_apply]
        apply Runs.bind_congr
        simp only [checkNext, runs_ite, runs_pure, Site.runs_stop]
        split_ifs with onward
        · have place : (Address.pack space scan).offset = scan :=
            Address.offset_pack space (by omega)
          rw [place] at onward
          exact ih (by omega) next.offset (evolves.isFull.trans full) limit (capacity ▸ small)
            (by omega)
      · cases listed : site.regions.unscanned with
        | nil => rfl
        | cons start rest =>
            have still := evolves_unscanned full listed
            dsimp only
            apply Runs.bind_congr
            apply Site.runs_modifyRegions.mpr
            apply Runs.bind_congr
            apply (tends_scanFixed host phase _ start _).mono ?_ fun _ _ _ => trivial
            intro _ middle advances
            have evolves := still.trans advances.1
            have capacity : middle.regions.destination.capacity
                = site.regions.destination.capacity := evolves.destinationSize
            have less := advances.1.pendingWork_lt listed
            exact ih (by omega) scan (evolves.isFull.trans full) (evolves.inside inside)
              (capacity ▸ small) (by omega)

/-- What is done to the part of the world that callbacks see is all that matters. -/
theorem onSite_congr {first second : Action (Site σ δ) α} {world : World σ δ}
    (same : first world.site = second world.site)
    : World.onSite first world = World.onSite second world := by
  simp only [World.onSite, same]

/-- How a minor collection traces if it is given so many steps for promoted objects. -/
def traceMinorWithin (host : Host σ δ) (start : Semispace) (objects : Nat)
    : Action (World σ δ) Unit := do
  visitMinorRoots host
  World.enterPhase .relocating
  World.onSite (scanPromoted host .relocating start.space objects start.cursor)

/-- A minor collection traces no more where it is given more steps. -/
theorem traceMinorWithin_enough (host : Host σ δ) {heap : Heap δ} (regular : heap.Regular)
    {objects : Nat} (enough : heap.regions.old.free ≤ objects) (state : σ) (log : List Event)
    : traceMinorWithin host heap.regions.old objects { heap := minorStart heap, host := state, log }
      = traceMinor host heap.regions.old { heap := minorStart heap, host := state, log } := by
  have begins : Scannable (minorStart heap).regions :=
    ⟨regular.target, regular.oldInside, regular.oldSmall⟩
  apply Runs.bind_congr
  apply (tends_visitMinorRoots host _).mono ?_ fun _ _ _ => trivial
  intro _ middle comes
  obtain ⟨still, size⟩ := begins.evolves comes.regions
  have words : middle.heap.regions.old.capacity - heap.regions.old.cursor
      ≤ heap.regions.old.free := by
    rw [size]
    exact Nat.le_refl _
  apply Runs.bind_congr
  apply World.runs_enterPhase.mpr
  apply onSite_congr
  exact scanPromoted_enough host .relocating _ enough _ still words

/-- A full collection traces no more where it is given more steps. -/
theorem traceFull_enough (host : Host σ δ) {world : World σ δ} (regular : world.heap.Regular)
    {words : Arena} (mapped : host.mapper.map? (targetWords world.heap) = some words) {slots : Nat}
    (enough : world.heap.regions.fixed.slots.length ≤ slots) (state : σ) (log : List Event)
    : traceFull host (fullTarget world.heap words) slots
          { heap := fullStart world.heap words, host := state, log }
        = traceFull host (fullTarget world.heap words) world.heap.regions.fixed.slots.length
            { heap := fullStart world.heap words, host := state, log } := by
  apply Runs.bind_congr
  apply (tends_visitFullRoots host _).mono ?_ fun _ _ _ => trivial
  intro _ middle comes
  have evolves := comes.regions
  obtain ⟨small, work⟩ := steps_traceFull regular mapped rfl comes
  apply Runs.bind_congr
  apply World.runs_enterPhase.mpr
  apply onSite_congr
  refine scanSurvivors_enough host .relocating _ (Nat.add_le_add_left enough _) 0
    (evolves.isFull.trans rfl) (evolves.inside (Nat.zero_le _)) small ?_
  exact work

end Collector

end MovingHeap
