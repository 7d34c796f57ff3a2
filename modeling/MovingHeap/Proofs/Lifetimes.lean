import MovingHeap.Proofs.Destructors
import MovingHeap.Proofs.Histories

/-! The lives of fixed objects in whole runs.
An object stays where it was allocated, without a call of its destructor, until the one full collection
that it does not survive; that calls the destructor once if the host did not give up on the object
before.
-/

namespace MovingHeap

variable {σ δ : Type}

/-- The object as the host leaves it that gives up on it. -/
def Occupant.givenUp (occupant : Occupant δ) : Occupant δ :=
  { occupant with destructor := none, forgotten := true }

/-- A full collection runs in a step, from one world to another: the step is an operation that lets
collections run, this one runs there or behind the minor collection that runs first, and the operation
goes on to what it leaves.
-/
inductive Step.Sweeps (world : World σ δ) : Step σ δ → World σ δ → World σ δ → Prop where
  | operate {host : Host σ δ} {operation : Operation δ} {begun swept : World σ δ} {reason : Reason}
      (asks : operation.Asks world) (launches : (operation.start world).LaunchesFull host begun)
      (ran : Collector.full host reason begun = .ok () swept)
      (finishes : world.after (operation.run host) = operation.finish swept)
      : Sweeps world (.operate host operation) begun swept

namespace World

/-- The object that is allocated at an address of the fixed space. -/
def tenant? (world : World σ δ) (object : Address) : Option (Occupant δ) :=
  world.heap.regions.fixed.occupant? object.offset

/-- The recorded calls for one address. -/
def callsFor (calls : σ → List (Call δ)) (object : Address) (world : World σ δ)
    : List (Call δ) :=
  (calls world.host).filter (·.object = object)

/-- An object is freed: a full collection ran in the step, the object did not survive it, and its
destructor, if it still has one, was called once with the words of the object as the collection found
them.
-/
structure Frees (contract : Contract σ) (calls : σ → List (Call δ)) (object : Address)
    (occupant : Occupant δ) (step : Step σ δ) (before after : World σ δ)
    : Prop where
  there : before.tenant? object = some occupant
  gone : after.tenant? object = none
  dies
    : ∃ begun swept,
        step.Sweeps before begun swept
        ∧ ¬ begun.Survives contract object.offset
        ∧ after.callsFor calls object
          = before.callsFor calls object
            ++ (occupant.destructor.map
                (.mk · object
                  (begun.heap.regions.fixed.arena.words object.offset occupant.words))).toList

/-- What a step makes of an address of the fixed space. -/
inductive Fate (contract : Contract σ) (calls : σ → List (Call δ)) (object : Address)
    (step : Step σ δ) (before after : World σ δ)
    : Prop where
  | rests (same : after.tenant? object = before.tenant? object)
      (silent : after.callsFor calls object = before.callsFor calls object)
  | born {words : Nat} {destructor : Option δ} (vacant : before.tenant? object = none)
      (there : after.tenant? object = some { words, destructor })
      (silent : after.callsFor calls object = before.callsFor calls object)
  | given {occupant : Occupant δ} (there : before.tenant? object = some occupant)
      (gives : after.tenant? object = some occupant.givenUp)
      (silent : after.callsFor calls object = before.callsFor calls object)
  | freed {occupant : Occupant δ}
      (frees : before.Frees contract calls object occupant step after)

variable {contract : Contract σ} {calls : σ → List (Call δ)} {before begun swept after : World σ δ}
  {step : Step σ δ} {object : Address}

/-- Nothing happens to objects where slots and calls stay the same. -/
theorem Fate.of_same (slots : after.heap.regions.fixed.slots = before.heap.regions.fixed.slots)
    (silent : calls after.host = calls before.host)
    : before.Fate contract calls object step after := by
  refine .rests ?_ ?_
  · rw [tenant?, tenant?, FixedSpace.occupant?, FixedSpace.slot?, slots]
    rfl
  · rw [callsFor, callsFor, silent]

/-- One call for an address is all that is found among calls for different addresses. -/
theorem filter_calls {made : List (Call δ)} (nodup : (made.map Call.object).Nodup) {call : Call δ}
    (member : call ∈ made)
    : made.filter (·.object = call.object) = [call] := by
  induction made with
  | nil => cases member
  | cons other rest ih =>
      obtain ⟨fresh, later⟩ := List.nodup_cons.mp nodup
      rcases List.mem_cons.mp member with rfl | inside
      · have none : rest.filter (·.object = call.object) = [] := by
          rw [List.filter_eq_nil_iff]
          intro later there same
          exact fresh (List.mem_map.mpr ⟨later, there, by simpa using same⟩)
        rw [List.filter_cons_of_pos (by simp), none]
      · have differs : other.object ≠ call.object := by
          intro same
          exact fresh (same ▸ List.mem_map_of_mem inside)
        rw [List.filter_cons_of_neg (by simpa using differs), ih later inside]

/-- Of the calls that were made for objects that died, those for an address are the one that was due
there.
-/
theorem filter_made {space : FixedSpace δ} {dies : Nat → Prop} {made : List (Call δ)}
    [Decidable (dies object.offset)]
    (small : ∀ begin occupant, space.occupant? begin = some occupant → begin ≤ maxOffsetWords)
    (nodup : (made.map Call.object).Nodup)
    (exactly : ∀ call, call ∈ made ↔ ∃ begin, space.call? begin = some call ∧ dies begin)
    (valid : object.Decodes) (fixed : object.space = .fixed)
    : made.filter (·.object = object)
      = if dies object.offset then (space.call? object.offset).toList else [] := by
  have here : ∀ call ∈ made, call.object = object →
      space.call? object.offset = some call ∧ dies object.offset := by
    intro call member named
    obtain ⟨begin, due, dead⟩ := (exactly call).mp member
    obtain ⟨occupant, destructor, found, -, rfl⟩ := FixedSpace.call?_eq_some_iff.mp due
    have offset : object.offset = begin := by
      rw [← named, Address.offset_pack _ (small begin occupant found)]
    rw [offset]
    exact ⟨due, dead⟩
  split_ifs with dead
  · cases due : space.call? object.offset with
    | none =>
        refine List.filter_eq_nil_iff.mpr fun call member named => ?_
        have called := (here call member (by simpa using named)).1
        rw [due] at called
        cases called
    | some call =>
        obtain ⟨occupant, destructor, -, -, rfl⟩ := FixedSpace.call?_eq_some_iff.mp due
        have place : Address.pack .fixed object.offset = object := by
          rw [← fixed, Address.pack_space_offset valid]
        rw [place] at due ⊢
        exact filter_calls nodup ((exactly _).mpr ⟨_, due, dead⟩)
  · exact List.filter_eq_nil_iff.mpr fun call member named =>
      dead (here call member (by simpa using named)).2

/-- What a full collection that ran in a step makes of an address. -/
theorem Destroys.fate (destroys : begun.Destroys contract calls swept)
    (sweeps : step.Sweeps before begun swept) (spares : before.SparesFixed calls begun)
    (left : after.heap.regions.fixed = swept.heap.regions.fixed) (host : after.host = swept.host)
    (consistent : before.heap.regions.fixed.Consistent) (addressable : before.Addressable)
    (valid : object.Decodes) (fixed : object.space = .fixed)
    : before.Fate contract calls object step after := by
  classical
  obtain ⟨made, recorded, nodup, exactly⟩ := destroys.called
  have same : ∀ begin, begun.heap.regions.fixed.occupant? begin
      = before.heap.regions.fixed.occupant? begin := by
    intro begin
    rw [FixedSpace.occupant?, FixedSpace.slot?, spares.slots]
    rfl
  have small : ∀ begin occupant,
      begun.heap.regions.fixed.occupant? begin = some occupant → begin ≤ maxOffsetWords := by
    intro begin occupant found
    rw [same] at found
    exact Nat.le_trans (Nat.le_of_add_right_le (consistent.payload found).1) addressable
  have added : after.callsFor calls object
      = before.callsFor calls object
        ++ if ¬ begun.Survives contract object.offset
          then (begun.heap.regions.fixed.call? object.offset).toList else [] := by
    rw [callsFor, host, recorded, spares.silent, List.filter_append,
      filter_made small nodup exactly valid fixed]
    rfl
  have survivors : ∀ occupant, after.tenant? object = some occupant
      ↔ begun.heap.regions.fixed.occupant? object.offset = some occupant
        ∧ begun.Survives contract object.offset := by
    intro occupant
    rw [tenant?, left]
    exact destroys.survivors _ _
  cases found : before.heap.regions.fixed.occupant? object.offset with
  | none =>
      have held : begun.heap.regions.fixed.occupant? object.offset = none := (same _).trans found
      refine .rests ?_ ?_
      · have vacant : before.tenant? object = none := found
        rw [vacant, Option.eq_none_iff_forall_ne_some]
        intro occupant there
        rw [((survivors _).mp there).1] at held
        cases held
      · have idle : begun.heap.regions.fixed.call? object.offset = none := by
          refine Option.eq_none_iff_forall_ne_some.mpr fun call due => ?_
          obtain ⟨occupant, _, there, -⟩ := FixedSpace.call?_eq_some_iff.mp due
          rw [held] at there
          cases there
        rw [added, idle, Option.toList_none, ite_self, List.append_nil]
  | some occupant =>
      have held : begun.heap.regions.fixed.occupant? object.offset = some occupant :=
        (same _).trans found
      by_cases lives : begun.Survives contract object.offset
      · refine .rests ?_ ?_
        · have former : before.tenant? object = some occupant := found
          rw [former]
          exact (survivors _).mpr ⟨held, lives⟩
        · rw [added, if_neg (not_not_intro lives), List.append_nil]
      · refine .freed ⟨found, ?_, begun, swept, sweeps, lives, ?_⟩
        · rw [Option.eq_none_iff_forall_ne_some]
          exact fun later there => lives ((survivors _).mp there).2
        · have place : Address.pack .fixed object.offset = object := by
            rw [← fixed, Address.pack_space_offset valid]
          rw [added, if_pos lives, FixedSpace.call?_of_occupant held, place]

/-- Allocating a fixed object at a vacant place is all that happens to fixed objects then. -/
theorem fate_allocateFixed (consistent : before.heap.regions.fixed.Consistent) {size : Nat}
    {destructor : Option δ} {executable : Bool}
    (fixed
      : after.heap.regions.fixed
        = (before.heap.regions.fixed.allocate (max (wordsFor size) 1) destructor executable).2)
    (host : after.host = before.host)
    : before.Fate contract calls object step after := by
  have positive : 0 < max (wordsFor size) 1 := by omega
  obtain ⟨slot, -, holds, reserves⟩ :=
    consistent.reserves_allocate positive destructor executable
  have silent : after.callsFor calls object = before.callsFor calls object := by
    rw [callsFor, callsFor, host]
  by_cases here : object.offset = slot.start
  · have there : after.tenant? object = some { words := max (wordsFor size) 1, destructor } := by
      rw [tenant?, fixed, here, reserves.occupant?_start, holds]
    exact .born (by rw [tenant?, here, reserves.vacant]) there silent
  · refine .rests ?_ silent
    rw [tenant?, fixed, reserves.occupant?_ne consistent here]
    rfl

/-- Giving up on an object is all that happens to fixed objects then. -/
theorem fate_forgetFixed {start : Nat}
    (forgets : before.heap.regions.fixed.forget? start = some after.heap.regions.fixed)
    (host : after.host = before.host)
    : before.Fate contract calls object step after := by
  have silent : after.callsFor calls object = before.callsFor calls object := by
    rw [callsFor, callsFor, host]
  obtain ⟨occupant, found, same⟩ := Option.map_eq_some_iff.mp forgets
  have tenant : after.tenant? object
      = if object.offset = start then (before.tenant? object).map Occupant.givenUp
        else before.tenant? object := by
    rw [tenant?, ← same, FixedSpace.occupant?_updateOccupant]
    rfl
  by_cases here : object.offset = start
  · have there : before.tenant? object = some occupant := by rw [tenant?, here, found]
    refine .given there ?_ silent
    rw [tenant, if_pos here, there, Option.map_some]
  · exact .rests (by rw [tenant, if_neg here]) silent

end World

-----------------------------------------------------------------------------------------
-- Steps
-----------------------------------------------------------------------------------------

/-- What an operation does before it lets a collection run spares fixed objects. -/
theorem Operation.spares_start {calls : σ → List (Call δ)} (operation : Operation δ)
    (world : World σ δ)
    : world.SparesFixed calls (operation.start world) := by
  obtain ⟨regions, counters, log, slots, fulls, start⟩ := operation.start_eq world
  rw [start]
  exact ⟨slots, rfl, fulls⟩

namespace Step

/-- The step is recorded: its host records calls, and the host leaves the record alone otherwise. -/
def Records (contract : Contract σ) (calls : σ → List (Call δ)) (world : World σ δ)
    : Step σ δ → Prop
  | operate host _ => host.Records contract calls
  | change state => calls state = calls world.host

/-- Whether the step is about fixed objects. -/
def isFixing : Step σ δ → Bool
  | operate _ operation => operation.isFixing
  | change _ => false

/-- A host that plays by the rules takes a recorded step on an idle heap, and no violation interrupts a
collection in it.
-/
structure Taken (contract : Contract σ) (calls : σ → List (Call δ)) (world : World σ δ)
    (step : Step σ δ)
    : Prop where
  conforming : world.Conforming contract
  idle : world.heap.phase = .idle
  addressable : world.Addressable
  conforms : step.Conforms contract world
  records : step.Records contract calls world
  rests : (world.after step.run).heap.phase = .idle

/-- What a step does to fixed objects. As long as no full collection runs in it, no destructor is called
and no object is freed. Otherwise a minor collection that ran first has done as little, and all the rest
is what the full one does.
-/
inductive Disposes (contract : Contract σ) (calls : σ → List (Call δ)) (world : World σ δ)
    (step : Step σ δ)
    : Prop where
  | spared
      (fulls
        : (world.after step.run).heap.counters.fullCollections
          = world.heap.counters.fullCollections)
      (silent : calls (world.after step.run).host = calls world.host)
      (slots
        : step.isFixing = false →
            (world.after step.run).heap.regions.fixed.slots = world.heap.regions.fixed.slots)
  | swept {begun swept : World σ δ} (sweeps : step.Sweeps world begun swept)
      (spares : world.SparesFixed calls begun) (destroys : begun.Destroys contract calls swept)
      (left : (world.after step.run).heap.regions.fixed = swept.heap.regions.fixed)
      (host : (world.after step.run).host = swept.host)
      (fulls
        : (world.after step.run).heap.counters.fullCollections
          = world.heap.counters.fullCollections + 1)

variable {contract : Contract σ} {calls : σ → List (Call δ)} {world begun swept : World σ δ}
  {step : Step σ δ} {object : Address}

/-- A full collection that runs in a step destroys what it does not find alive. -/
theorem Sweeps.disposes (sweeps : step.Sweeps world begun swept)
    (taken : step.Taken contract calls world)
    : world.SparesFixed calls begun
      ∧ begun.Destroys contract calls swept
      ∧ (world.after step.run).heap.regions.fixed = swept.heap.regions.fixed
      ∧ (world.after step.run).host = swept.host
      ∧ (world.after step.run).heap.counters.fullCollections
        = world.heap.counters.fullCollections + 1 := by
  obtain ⟨conforming, idle, addressable, conforms, records, -⟩ := taken
  cases sweeps with
  | @operate host operation _ _ reason asks launches ran finishes =>
      obtain ⟨begins, reaches⟩ := asks.sound (conforming.sound idle addressable)
        (conforming.reachable.steady idle) addressable conforms.2
      obtain ⟨orderly, still, spares⟩ := launches.begins begins reaches records
      obtain ⟨-, -, destroys⟩ := (orderly.collectable.full_destroys still records reason).of_ok ran
      have counted := (Collector.fulls_full host reason begun).of_ok ran
      have spares := (operation.spares_start world).trans spares
      -- behind the collection nothing happens but to the birth region
      obtain ⟨birth, finish⟩ := operation.finish_eq swept
      rw [run, finishes, finish]
      exact ⟨spares, destroys, rfl, rfl, counted.trans (congrArg (· + 1) spares.fulls)⟩

/-- An object that a step leaves survived the full collections that ran in it. -/
theorem Sweeps.survives (sweeps : step.Sweeps world begun swept)
    (taken : step.Taken contract calls world) {occupant : Occupant δ}
    (there : (world.after step.run).tenant? object = some occupant)
    : begun.Survives contract object.offset := by
  obtain ⟨-, destroys, left, -⟩ := sweeps.disposes taken
  rw [World.tenant?, left] at there
  exact ((destroys.survivors _ _).mp there).2

/-- Every step does to fixed objects what the full collection does that runs in it. -/
theorem Taken.disposes (taken : step.Taken contract calls world)
    : step.Disposes contract calls world := by
  cases step with
  | change state => exact .spared rfl taken.records fun _ => rfl
  | operate host operation =>
      have course := operation.course (taken.conforming.sound taken.idle taken.addressable)
        (taken.conforming.reachable.steady taken.idle) taken.addressable taken.conforms.1
        taken.conforms.2 taken.rests
      generalize after : world.after (operation.run host) = final at course
      cases course with
      | direct spares =>
          rw [← after] at spares
          exact .spared spares.fulls (congrArg calls spares.host) spares.fixed
      | @collected words wantsFull reason middle asks begins reaches collects =>
          have records : host.Records contract calls := taken.records
          cases (begins.collectFor_disposes reaches records _ _ _).of_ok collects with
          | spared spares =>
              have spares := (operation.spares_start world).trans spares
              obtain ⟨birth, finish⟩ := operation.finish_eq middle
              rw [finish] at after
              refine .spared ?_ ?_ fun _ => ?_
              · rw [run, after]
                exact spares.fulls
              · rw [run, after]
                exact spares.silent
              · rw [run, after]
                exact spares.slots
          | swept launches ran _ =>
              have sweeps : (Step.operate host operation).Sweeps world _ middle :=
                .operate asks launches ran after
              obtain ⟨spares, destroys, left, host, fulls⟩ := sweeps.disposes taken
              exact .swept sweeps spares destroys left host fulls

/-- Every step leaves every address of the fixed space to its fate. -/
theorem Taken.fate (taken : step.Taken contract calls world) (valid : object.Decodes)
    (fixed : object.space = .fixed)
    : world.Fate contract calls object step (world.after step.run) := by
  have sound := taken.conforming.sound taken.idle taken.addressable
  have consistent := sound.regular.consistent
  cases taken.disposes with
  | swept sweeps spares destroys left host =>
      exact destroys.fate sweeps spares left host consistent taken.addressable valid fixed
  | spared fulls silent slots =>
      cases step with
      | change state => exact .of_same rfl taken.records
      | operate host operation =>
          cases fixing : operation.isFixing with
          | false => exact .of_same (slots fixing) silent
          | true =>
              -- only these two change slots without a collection
              refine World.after_of_runs ?_
              cases operation with
              | allocateFixed size destructor executable =>
                  simp only [run, Operation.run, runs_map, World.allocateFixed, World.ensureIdle,
                    runs_bind, World.runs_heapNow, runs_ite, World.runs_stop,
                    World.runs_modifyRegions, World.runs_count, World.requestFull,
                    World.runs_modifyHeap, runs_pure]
                  split_ifs
                  · exact .of_same rfl rfl
                  · exact World.fate_allocateFixed consistent rfl rfl
                  · exact World.fate_allocateFixed consistent rfl rfl
              | forgetFixed place =>
                  simp only [run, Operation.run, World.forgetFixed, runs_bind, World.runs_heapNow,
                    World.runs_require, World.runs_modifyRegions]
                  split
                  next fixed found =>
                    split_ifs at found
                    exact World.fate_forgetFixed found rfl
                  next => exact .of_same rfl rfl
              | _ => cases fixing

end Step

-----------------------------------------------------------------------------------------
-- Runs
-----------------------------------------------------------------------------------------

namespace World

/-- Something is so of every step, where it is taken. -/
def Throughout (holds : World σ δ → Step σ δ → Prop) (world : World σ δ)
    : List (Step σ δ) → Prop
  | [] => True
  | step :: rest => holds world step ∧ (world.after step.run).Throughout holds rest

/-- All steps are recorded. -/
def Records (contract : Contract σ) (calls : σ → List (Call δ))
    : World σ δ → List (Step σ δ) → Prop :=
  Throughout (Step.Records contract calls)

/-- No violation interrupts a collection in any of the steps. -/
def Uninterrupted : World σ δ → List (Step σ δ) → Prop :=
  Throughout fun world step => (world.after step.run).heap.phase = .idle

/-- Something holds all along the steps, each of which keeps it, or until the first of them by which it
turns into something else.
-/
def Until (holds : World σ δ → Prop) (keeps turns : World σ δ → Step σ δ → Prop)
    (world : World σ δ)
    : List (Step σ δ) → Prop
  | [] => holds world
  | step :: rest =>
      holds world
      ∧ (turns world step
        ∨ keeps world step ∧ (world.after step.run).Until holds keeps turns rest)

/-- An object is there as it was allocated, or given up, and so many calls were recorded for it. -/
def Houses (calls : σ → List (Call δ)) (object : Address) (occupant : Occupant δ)
    (made : List (Call δ)) (world : World σ δ)
    : Prop :=
  (world.tenant? object = some occupant ∨ world.tenant? object = some occupant.givenUp)
  ∧ world.callsFor calls object = made

/-- No object is there, and so many calls were recorded for it. -/
def Vacant (calls : σ → List (Call δ)) (object : Address) (made : List (Call δ))
    (world : World σ δ)
    : Prop :=
  world.tenant? object = none ∧ world.callsFor calls object = made

/-- An object survives every full collection that runs in a step. -/
def Outlives (contract : Contract σ) (object : Address) (world : World σ δ) (step : Step σ δ)
    : Prop :=
  ∀ begun swept, step.Sweeps world begun swept → begun.Survives contract object.offset

/-- An object that the host may have given up on is freed. -/
def Evicts (contract : Contract σ) (calls : σ → List (Call δ)) (object : Address)
    (occupant : Occupant δ) (world : World σ δ) (step : Step σ δ)
    : Prop :=
  world.Frees contract calls object occupant step (world.after step.run)
  ∨ world.Frees contract calls object occupant.givenUp step (world.after step.run)

/-- An object is allocated, without any call. -/
def Lodges (calls : σ → List (Call δ)) (object : Address) (made : List (Call δ))
    (world : World σ δ) (step : Step σ δ)
    : Prop :=
  ∃ words destructor, (world.after step.run).Houses calls object { words, destructor } made

variable {contract : Contract σ} {calls : σ → List (Call δ)} {world : World σ δ}
  {steps : List (Step σ δ)} {object : Address}

/-- Steps that end were not interrupted. -/
theorem runs_uninterrupted (conforming : world.Conforming contract)
    (idle : world.heap.phase = .idle) (plays : world.Plays contract steps)
    : Runs (perform steps) world (fun _ _ => world.Uninterrupted steps) fun _ _ => True := by
  induction steps generalizing world with
  | nil => trivial
  | cons step rest ih =>
      rw [perform, runs_bind]
      refine ((Step.runs_idle conforming idle plays.1 plays.2.1).and
        (runs_after step.run world)).mono ?_ fun _ _ _ => trivial
      rintro _ middle ⟨rests, rfl⟩
      exact (ih (conforming.step plays.2.1) rests plays.2.2).mono
        (fun _ _ further => ⟨rests, further⟩) fun _ _ => id

theorem Throughout.mono {holds weaker : World σ δ → Step σ δ → Prop}
    (throughout : world.Throughout holds steps)
    (weaken : ∀ world step, holds world step → weaker world step)
    : world.Throughout weaker steps := by
  induction steps generalizing world with
  | nil => trivial
  | cons step rest ih => exact ⟨weaken world step throughout.1, ih throughout.2⟩

/-- A host that plays by the rules all along does so in every step. -/
theorem Plays.taken (plays : world.Plays contract steps) (conforming : world.Conforming contract)
    (idle : world.heap.phase = .idle) (records : world.Records contract calls steps)
    (uninterrupted : world.Uninterrupted steps)
    : world.Throughout (Step.Taken contract calls) steps := by
  induction steps generalizing world with
  | nil => trivial
  | cons step rest ih =>
      exact ⟨⟨conforming, idle, plays.1, plays.2.1, records.1, uninterrupted.1⟩,
        ih plays.2.2 (conforming.step plays.2.1) uninterrupted.1 records.2 uninterrupted.2⟩

/-- What is so at first and is kept by every step, unless it turns by it, is so until it turns. -/
theorem Throughout.until {holds : World σ δ → Prop} {keeps turns : World σ δ → Step σ δ → Prop}
    (taken : world.Throughout (Step.Taken contract calls) steps)
    (goes
      : ∀ (world : World σ δ) (step : Step σ δ),
          step.Taken contract calls world →
          holds world →
          turns world step ∨ keeps world step ∧ holds (world.after step.run))
    (starts : holds world)
    : world.Until holds keeps turns steps := by
  induction steps generalizing world with
  | nil => exact starts
  | cons step rest ih =>
      refine ⟨starts, ?_⟩
      rcases goes world step taken.1 starts with turned | ⟨kept, still⟩
      · exact Or.inl turned
      · exact Or.inr ⟨kept, ih taken.2 still⟩

/-- A fixed object stays where it is, without a call of its destructor, as long as it survives every full
collection, and until one that it does not survive frees it.
-/
theorem until_evicted {occupant : Occupant δ}
    (taken : world.Throughout (Step.Taken contract calls) steps) (valid : object.Decodes)
    (fixed : object.space = .fixed) (there : world.tenant? object = some occupant)
    : world.Until (Houses calls object occupant (world.callsFor calls object))
        (Outlives contract object) (Evicts contract calls object occupant) steps := by
  refine taken.until ?_ ⟨Or.inl there, rfl⟩
  rintro before step taken ⟨housed, recorded⟩
  have outlives : ∀ {left}, (before.after step.run).tenant? object = some left →
      before.Outlives contract object step :=
    fun there _ _ sweeps => sweeps.survives taken there
  cases taken.fate valid fixed with
  | rests same silent =>
      rw [← same] at housed
      refine Or.inr ⟨?_, housed, silent.trans recorded⟩
      rcases housed with first | second
      · exact outlives first
      · exact outlives second
  | born vacant => rcases housed with first | second <;> simp_all
  | given here gives silent =>
      refine Or.inr ⟨outlives gives, Or.inr ?_, silent.trans recorded⟩
      rcases housed with first | second
      · rw [here] at first
        cases first
        exact gives
      · rw [here] at second
        cases second
        exact gives
  | freed frees =>
      rcases housed with first | second
      · rw [frees.there] at first
        cases first
        exact Or.inl (Or.inl frees)
      · rw [frees.there] at second
        cases second
        exact Or.inl (Or.inr frees)

/-- Where there is no fixed object, no destructor is called until one is allocated. -/
theorem until_lodged (taken : world.Throughout (Step.Taken contract calls) steps)
    (valid : object.Decodes) (fixed : object.space = .fixed)
    (vacant : world.tenant? object = none)
    : world.Until (Vacant calls object (world.callsFor calls object)) (fun _ _ => True)
        (Lodges calls object (world.callsFor calls object)) steps := by
  refine taken.until ?_ ⟨vacant, rfl⟩
  rintro before step taken ⟨empty, recorded⟩
  cases taken.fate valid fixed with
  | rests same silent => exact Or.inr ⟨trivial, same.trans empty, silent.trans recorded⟩
  | born _ there silent => exact Or.inl ⟨_, _, Or.inl there, silent.trans recorded⟩
  | given there => simp [empty] at there
  | freed frees =>
      have there := frees.there
      simp [empty] at there

end World

end MovingHeap
