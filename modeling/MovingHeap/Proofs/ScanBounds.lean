import MovingHeap.Proofs.Counting
import MovingHeap.Proofs.FreshObjects

/-! How often a collection asks its host to scan, whatever the host does.
Scanning moves forward through words that do not become more, and a fixed object waits to be scanned
only once, so that the loops of a collection end on their own.
-/

namespace MovingHeap

variable {σ δ α β : Type}

-----------------------------------------------------------------------------------------
-- What is not counted
-----------------------------------------------------------------------------------------

/-- A visit leaves alone what is beside the state, by one step after another. -/
theorem Visit.keeps_beside (visit : Visit σ α) (kept : β)
    : visit.beside.Keeps fun state => state.2 = kept := by
  induction visit with
  | done | allocate | collect | fail => trivial
  | getHost next ih => exact fun state _ => ih state.1
  | setHost host next ih => exact fun state same => ⟨same, ih⟩
  | note line next ih => exact ih
  | isFull next ih => exact ih
  | load addr next ih => exact ih
  | words addr count next ih => exact ih
  | visitSlot slot next ih => exact ih
  | visitValue value next ih => exact ih

-----------------------------------------------------------------------------------------
-- Lists of scans
-----------------------------------------------------------------------------------------

namespace Scan

/-- Some of the fixed objects that begin at these places were scanned in a minor collection, in order;
lists of scans begin with the newest.
-/
def FixedMinors (starts : List Nat) (before after : List Scan) : Prop :=
  ∃ done : List Nat,
    done.Sublist starts
    ∧ after = (done.map fun start => fixedMinor (.pack .fixed start)).reverse ++ before

/-- So many moving objects at most were scanned in a minor collection. -/
def Minors (most : Nat) (before after : List Scan) : Prop :=
  ∃ more, after = more ++ before ∧ more.length ≤ most ∧ ∀ scan ∈ more, scan.isMinor

/-- One of the fixed objects was scanned, and then some of those behind it. -/
theorem FixedMinors.cons {start : Nat} {starts : List Nat} {before after : List Scan}
    (minors : FixedMinors starts (fixedMinor (.pack .fixed start) :: before) after)
    : FixedMinors (start :: starts) before after := by
  obtain ⟨done, fewer, calls⟩ := minors
  exact ⟨start :: done, fewer.cons_cons start, by simp [calls]⟩

/-- None was scanned. -/
theorem FixedMinors.none (starts : List Nat) (calls : List Scan)
    : FixedMinors starts calls calls :=
  ⟨[], List.nil_sublist starts, rfl⟩

/-- The first of the fixed objects was not there. -/
theorem FixedMinors.skip {starts : List Nat} {before after : List Scan} (start : Nat)
    (minors : FixedMinors starts before after)
    : FixedMinors (start :: starts) before after := by
  obtain ⟨done, fewer, calls⟩ := minors
  exact ⟨done, fewer.cons start, calls⟩

/-- None was scanned. -/
theorem Minors.none (most : Nat) (calls : List Scan) : Minors most calls calls :=
  ⟨[], rfl, Nat.zero_le most, nofun⟩

/-- One was scanned, and then so many at most that one more may be. -/
theorem Minors.cons {object : Address} {fewer most : Nat} {before after : List Scan}
    (minors : Minors fewer (minor object :: before) after) (less : fewer < most)
    : Minors most before after := by
  obtain ⟨more, calls, short, all⟩ := minors
  refine ⟨more ++ [minor object], by simp [calls], ?_, ?_⟩
  · rw [List.length_append, List.length_singleton]
    omega
  · intro scan member
    rcases List.mem_append.mp member with later | first
    · exact all scan later
    · rw [List.mem_singleton.mp first]
      rfl

end Scan

namespace Collector

/-- What is not asked is kept. -/
theorem invariant_true : Regions.Invariant fun _ : Regions δ => True where
  fill _ _ _ := trivial
  relocate _ _ _ _ _ _ _ _ _ := trivial
  mark _ _ _ _ _ _ _ := trivial
  pop _ _ _ _ _ := trivial
  store _ _ _ _ _ _ := trivial

section Counted

variable {holds : Regions δ → Prop} (invariant : Regions.Invariant holds) {host : Host σ δ}

/-- Copying counts nothing. -/
theorem copyKeeps_counting (calls : List Scan)
    : host.counting.CopyKeeps fun state => state.2 = calls := fun _ _ _ same => same

include invariant

/-- A visit that is put on the list adds one scan to it. -/
theorem maintains_counted (phase : Phase) (visit : Visit σ α) (scan : Scan)
    {site : Site (σ × List Scan) δ} (here : holds site.regions)
    : Runs (runVisit host.counting phase (visit.counted scan)) site
        (fun _ final => holds final.regions ∧ final.host.2 = scan :: site.host.2)
        fun _ final => holds final.regions ∧ final.host.2 = scan :: site.host.2 :=
  maintains_runVisit invariant (copyKeeps_counting _) phase (visit.keeps_beside _)
    { site with host := (site.host.1, scan :: site.host.2) } here rfl

/-- Fixed objects are scanned in order, as far as they are there. -/
theorem fixedMinors_scanFixedList (phase : Phase) (starts : List Nat)
    {site : Site (σ × List Scan) δ} (here : holds site.regions)
    : Runs (scanFixedList host.counting phase host.counting.scanFixedMinor starts) site
        (fun _ final => holds final.regions ∧ Scan.FixedMinors starts site.host.2 final.host.2)
        fun _ final =>
          holds final.regions ∧ Scan.FixedMinors starts site.host.2 final.host.2 := by
  induction starts generalizing site with
  | nil => exact ⟨here, .none _ _⟩
  | cons start starts ih =>
      simp only [scanFixedList, scanFixed, runs_bind, runs_get]
      split
      · apply (maintains_counted invariant phase _ _ here).mono
        · intro _ middle reached
          have rest := ih reached.1
          rw [reached.2] at rest
          apply rest.mono
          · exact fun _ _ onward => ⟨onward.1, onward.2.cons⟩
          · exact fun _ _ onward => ⟨onward.1, onward.2.cons⟩
        · intro _ final reached
          rw [reached.2]
          exact ⟨reached.1, (Scan.FixedMinors.none starts _).cons⟩
      · apply (ih here).mono
        · exact fun _ _ onward => ⟨onward.1, onward.2.skip start⟩
        · exact fun _ _ onward => ⟨onward.1, onward.2.skip start⟩

end Counted

-----------------------------------------------------------------------------------------
-- Promoted objects
-----------------------------------------------------------------------------------------

/-- The old region of a minor collection that can be scanned. -/
structure Scannable (regions : Regions δ) : Prop where
  minor : regions.target = none
  inside : regions.old.cursor ≤ regions.old.capacity
  small : regions.old.capacity ≤ maxOffsetWords

/-- It can be scanned as long as tracing goes on, and has the same size. -/
theorem Scannable.evolves {before now : Regions δ} (scannable : Scannable before)
    (evolves : before.Evolves now)
    : Scannable now ∧ now.old.capacity = before.old.capacity := by
  have target : now.target = none := by
    simpa [scannable.minor] using evolves.target
  have inside := evolves.inside
  simp only [Regions.destination, target, scannable.minor, Option.getD_none] at inside
  have size : now.old.capacity = before.old.capacity := evolves.oldSize
  exact ⟨⟨target, inside scannable.inside, size ▸ scannable.small⟩, size⟩

/-- Scanning promoted objects moves forward with every scan, so that no more are made than there are
words behind the first object, by induction over the number of steps.
-/
theorem minors_scanPromoted {host : Host σ δ} (phase : Phase) (space : Space) (objects scan : Nat)
    {site : Site (σ × List Scan) δ} (scannable : Scannable site.regions)
    : Runs (scanPromoted host.counting phase space objects scan) site
        (fun _ final =>
          Scan.Minors (site.regions.old.capacity - scan) site.host.2 final.host.2)
        fun _ final =>
          Scan.Minors (site.regions.old.capacity - scan) site.host.2 final.host.2 := by
  induction objects generalizing scan site with
  | zero => exact .none _ _
  | succ objects ih =>
      simp only [scanPromoted, runs_bind, runs_get, runs_ite]
      split_ifs with below
      · have inside := scannable.inside
        have room : 0 < site.regions.old.capacity - scan := by omega
        apply ((maintains_counted invariant_true phase _ _ trivial).and
          (tends_runVisit host.counting phase _ site)).mono
        · intro next middle reached
          obtain ⟨⟨-, counted⟩, advances⟩ := reached
          obtain ⟨still, size⟩ := scannable.evolves advances.1
          have stops : Scan.Minors (site.regions.old.capacity - scan) site.host.2 middle.host.2 := by
            rw [counted]
            exact (Scan.Minors.none 0 _).cons room
          simp only [checkNext, runs_ite, runs_pure, Site.runs_stop]
          split_ifs with onward
          · have place : (Address.pack space scan).offset = scan :=
              Address.offset_pack space (by have small := scannable.small; omega)
            rw [place] at onward
            have rest := ih next.offset still
            rw [counted, size] at rest
            have less : site.regions.old.capacity - next.offset
                < site.regions.old.capacity - scan := by omega
            apply rest.mono
            · exact fun _ _ minors => minors.cons less
            · exact fun _ _ minors => minors.cons less
          · exact stops
        · intro _ final reached
          rw [reached.1.2]
          exact (Scan.Minors.none 0 _).cons room
      · exact .none _ _

-----------------------------------------------------------------------------------------
-- Survivors
-----------------------------------------------------------------------------------------

/-- The fixed objects that were scanned in a full collection and those that wait for it are all marked
and not given up, and each is listed once.
-/
structure Awaits (before : FixedSpace δ) (scanned : List Nat) (regions : Regions δ) : Prop where
  agree : regions.fixed.unmarkedSlots = before.unmarkedSlots
  nodup : (scanned ++ regions.unscanned).Nodup
  reached
    : ∀ start ∈ scanned ++ regions.unscanned,
        ∃ occupant,
          regions.fixed.occupant? start = some occupant
          ∧ occupant.marked
          ∧ occupant.forgotten = false

/-- What waits does not depend on words. -/
theorem Awaits.congr {before : FixedSpace δ} {scanned : List Nat} {regions now : Regions δ}
    (awaits : Awaits before scanned regions) (slots : now.fixed.slots = regions.fixed.slots)
    (unscanned : now.unscanned = regions.unscanned)
    : Awaits before scanned now where
  agree := (congrArg (List.map FixedSlot.unmarked) slots).trans awaits.agree
  nodup := by
    rw [unscanned]
    exact awaits.nodup
  reached := by
    rw [unscanned]
    simp only [FixedSpace.occupant?, FixedSpace.slot?, slots]
    exact awaits.reached

/-- An object is added only when it is marked, and it is marked once. -/
theorem Awaits.marked {before : FixedSpace δ} {scanned : List Nat} {regions : Regions δ}
    (awaits : Awaits before scanned regions) {offset : Nat} {mark : Mark} {fixed : FixedSpace δ}
    (done : regions.fixed.mark? offset = some (mark, fixed))
    : Awaits before scanned (regions.marked mark fixed) := by
  obtain ⟨start, covers, found⟩ := Option.bind_eq_some_iff.mp done
  obtain ⟨occupant, here, result⟩ := Option.map_eq_some_iff.mp found
  split_ifs at result with forgotten already
  · cases result
    exact awaits
  · cases result
    exact awaits
  · cases result
    have newly : start ∉ scanned ++ regions.unscanned := by
      intro member
      obtain ⟨former, there, markedOnce, -⟩ := awaits.reached start member
      rw [here] at there
      cases there
      exact already markedOnce
    refine ⟨?_, ?_, fun other member => ?_⟩
    · exact (FixedSpace.unmarkedSlots_mark regions.fixed start).trans awaits.agree
    · exact List.nodup_middle.mpr (List.nodup_cons.mpr ⟨newly, awaits.nodup⟩)
    · simp only [Regions.marked, FixedSpace.occupant?_updateOccupant]
      rcases List.mem_cons.mp (List.perm_middle.mem_iff.mp member) with rfl | former
      · rw [if_pos rfl, here]
        exact ⟨_, rfl, rfl, by simpa using forgotten⟩
      · have apart : other ≠ start := fun same => newly (same ▸ former)
        rw [if_neg apart]
        exact awaits.reached other former

/-- The object that waits first is scanned. -/
theorem Awaits.pop {before : FixedSpace δ} {scanned : List Nat} {regions : Regions δ} {start : Nat}
    {rest : List Nat} (awaits : Awaits before scanned regions)
    (listed : regions.unscanned = start :: rest)
    : Awaits before (start :: scanned) { regions with unscanned := rest } := by
  have order : (scanned ++ regions.unscanned).Perm (start :: scanned ++ rest) := by
    rw [listed]
    exact List.perm_middle
  refine ⟨awaits.agree, order.nodup_iff.mp awaits.nodup, fun other member => ?_⟩
  exact awaits.reached other (order.mem_iff.mpr member)

/-- Tracing adds objects that wait, and takes none away that was scanned. -/
theorem invariant_awaits (before : FixedSpace δ) (scanned : List Nat)
    : Regions.Invariant (Awaits before scanned) where
  fill regions words awaits := awaits.congr (by simp) (Pass.unscanned_setDestination _ _)
  relocate regions words extended count object young _ _ awaits := by
    refine awaits.congr (by simp [relocated]) ?_
    simp [relocated, Pass.unscanned_bury, Pass.unscanned_setDestination]
  mark regions offset mark fixed _ done awaits := awaits.marked done
  pop regions start rest listed awaits := by
    refine ⟨awaits.agree, ?_, fun other member => awaits.reached other ?_⟩
    · have nodup := awaits.nodup
      rw [listed] at nodup
      exact nodup.sublist ((List.sublist_cons_self start rest).append_left scanned)
    · rw [listed]
      exact ((List.sublist_cons_self start rest).append_left scanned).subset member
  store regions next addr word done awaits := by
    obtain ⟨-, slots, unscanned, -⟩ := frame_setWord? done
    exact awaits.congr slots unscanned

/-- What a full collection has scanned: so many moving objects at most, and fixed objects that are
marked and not given up, each once.
-/
structure Tallies (before : FixedSpace δ) (most : Nat) (regions : Regions δ) (calls : List Scan)
    : Prop where
  moving : calls.countP Scan.isFull ≤ most
  fixed
    : ∃ scanned,
        Awaits before scanned regions
        ∧ calls.filterMap Scan.fixedFull? = scanned.map (Address.pack .fixed)

theorem Tallies.more {before : FixedSpace δ} {fewer most : Nat} {regions : Regions δ}
    {calls : List Scan} (tallies : Tallies before fewer regions calls) (less : fewer ≤ most)
    : Tallies before most regions calls :=
  ⟨tallies.moving.trans less, tallies.fixed⟩

/-- A moving object was scanned. -/
theorem tallies_full {before : FixedSpace δ} {scan : Nat} {regions : Regions δ} {calls : List Scan}
    {scanned : List Nat} (awaits : Awaits before scanned regions)
    (moving : calls.countP Scan.isFull ≤ scan)
    (fixed : calls.filterMap Scan.fixedFull? = scanned.map (Address.pack .fixed)) (object : Address)
    : Tallies before (scan + 1) regions (.full object :: calls) := by
  refine ⟨?_, scanned, awaits, fixed⟩
  rw [List.countP_cons_of_pos (by rfl)]
  exact Nat.succ_le_succ moving

/-- A fixed object was scanned. -/
theorem tallies_fixedFull {before : FixedSpace δ} {scan start : Nat} {regions : Regions δ}
    {calls : List Scan} {scanned : List Nat} (awaits : Awaits before (start :: scanned) regions)
    (moving : calls.countP Scan.isFull ≤ scan)
    (fixed : calls.filterMap Scan.fixedFull? = scanned.map (Address.pack .fixed))
    : Tallies before scan regions (.fixedFull (.pack .fixed start) :: calls) := by
  refine ⟨?_, start :: scanned, awaits, congrArg (Address.pack .fixed start :: ·) fixed⟩
  rwa [List.countP_cons_of_neg (by simp [Scan.isFull])]

/-- Scanning survivors moves forward with every moving object, and takes each fixed object off the list
for good, by induction over the number of steps.
-/
theorem tallies_scanSurvivors {host : Host σ δ} (before : FixedSpace δ) (phase : Phase)
    (space : Space) (steps scan : Nat) {site : Site (σ × List Scan) δ} (full : site.regions.isFull)
    (inside : site.regions.destination.cursor ≤ site.regions.destination.capacity)
    (small : site.regions.destination.capacity ≤ maxOffsetWords)
    (within : scan ≤ site.regions.destination.capacity)
    (tallies : Tallies before scan site.regions site.host.2)
    : Runs (scanSurvivors host.counting phase space steps scan) site
        (fun _ final =>
          Tallies before site.regions.destination.capacity final.regions final.host.2)
        fun _ final =>
          Tallies before site.regions.destination.capacity final.regions final.host.2 := by
  induction steps generalizing scan site with
  | zero => exact tallies.more within
  | succ steps ih =>
      obtain ⟨moving, scanned, awaits, fixed⟩ := tallies
      simp only [scanSurvivors, runs_bind, runs_get, runs_ite]
      split_ifs with below
      · apply ((maintains_counted (invariant_awaits before scanned) phase _ _ awaits).and
          (tends_runVisit host.counting phase _ site)).mono
        · intro next middle reached
          obtain ⟨⟨awaits, counted⟩, advances⟩ := reached
          have evolves := advances.1
          have capacity : middle.regions.destination.capacity
              = site.regions.destination.capacity := evolves.destinationSize
          have limit := evolves.inside inside
          have counts := tallies_full awaits moving fixed (.pack space scan)
          rw [← counted] at counts
          simp only [checkNext, runs_ite, runs_pure, Site.runs_stop]
          split_ifs with onward
          · have place : (Address.pack space scan).offset = scan :=
              Address.offset_pack space (by omega)
            rw [place] at onward
            rw [← capacity]
            exact ih next.offset (evolves.isFull.trans full) limit (capacity ▸ small) (by omega)
              (counts.more (by omega))
          · exact counts.more (by omega)
        · intro _ final reached
          have counts := tallies_full reached.1.1 moving fixed (.pack space scan)
          rw [← reached.1.2] at counts
          exact counts.more (by omega)
      · split
        next => exact Tallies.more ⟨moving, scanned, awaits, fixed⟩ within
        next start rest listed =>
          let begun : Site (σ × List Scan) δ :=
            { site with regions := { site.regions with unscanned := rest } }
          have still : site.regions.Evolves begun.regions := evolves_unscanned full listed
          have popped : Awaits before (start :: scanned) begun.regions := awaits.pop listed
          obtain ⟨occupant, found, -⟩ := popped.reached start List.mem_cons_self
          have here : site.regions.fixed.occupant? start = some occupant := found
          simp only [runs_bind, Site.runs_modifyRegions, scanFixed, runs_get, here]
          refine Runs.mono ((maintains_counted (invariant_awaits before (start :: scanned)) phase _ _
            popped).and (tends_runVisit host.counting phase _ begun)) ?_ ?_
          · intro _ middle reached
            obtain ⟨⟨awaits, counted⟩, advances⟩ := reached
            have evolves := still.trans advances.1
            have capacity : middle.regions.destination.capacity
                = site.regions.destination.capacity := evolves.destinationSize
            have counts := tallies_fixedFull awaits moving fixed
            rw [← counted] at counts
            rw [← capacity]
            exact ih scan (evolves.isFull.trans full) (evolves.inside inside) (capacity ▸ small)
              (capacity ▸ within) counts
          · intro _ final reached
            have counts := tallies_fixedFull reached.1.1 moving fixed
            rw [← reached.1.2] at counts
            exact counts.more within

end Collector

end MovingHeap
