import MovingHeap.Proofs.Completions
import MovingHeap.Proofs.Upkeep

/-! Which destructors collections call.
A host that records the calls of its destructors shows that a minor collection makes none, and that a
full one makes exactly one for each fixed object that it frees and that has a destructor.
-/

namespace MovingHeap

variable {σ δ : Type}

/-- A call of a destructor, for a fixed object with the words of its payload. -/
structure Call (δ : Type) where
  destructor : δ
  object : Address
  words : List Word
  deriving DecidableEq, Repr

/-- The destructor that is called and the object that it is called for. -/
def Call.target (call : Call δ) : δ × Address := (call.destructor, call.object)

/-- The promise kept while the record of calls stays as it is. -/
def Contract.having (contract : Contract σ) (calls : σ → List (Call δ)) (made : List (Call δ))
    : Contract σ :=
  { contract with Upholds := fun state => contract.Upholds state ∧ calls state = made }

/-- The host keeps a promise and a record of the calls of its destructors, to which nothing but such a
call adds.
-/
structure Host.Records (host : Host σ δ) (contract : Contract σ) (calls : σ → List (Call δ))
    : Prop where
  faithful : host.Faithful contract
  traces : ∀ made, host.Traces (contract.having calls made)
  destroy
    : ∀ destructor object words state,
        contract.Upholds state →
        calls (host.destroy destructor object words state).host
        = calls state ++ [.mk destructor object words]

-----------------------------------------------------------------------------------------
-- Sweeping
-----------------------------------------------------------------------------------------

/-- The call that destroys what is in a slot over these words, if it has a destructor. -/
def FixedSlot.call? (arena : Arena) (slot : FixedSlot δ) : Option (Call δ) :=
  slot.occupant.bind fun occupant =>
    occupant.destructor.map fun destructor =>
      { destructor
        object := .pack .fixed slot.start
        words := arena.words slot.start occupant.words }

/-- The destructor of what is in a slot, if it has one, and what it is to destroy. -/
def FixedSlot.target? (slot : FixedSlot δ) : Option (δ × Address) :=
  slot.occupant.bind fun occupant => occupant.destructor.map (·, .pack .fixed slot.start)

/-- A call for what is in a slot calls its destructor. -/
theorem FixedSlot.target_call? (arena : Arena) (slot : FixedSlot δ)
    : (slot.call? arena).map Call.target = slot.target? := by
  simp [call?, target?, Call.target, Option.map_bind, Function.comp_def]

namespace FixedSpace

/-- The call that destroys the object at a place, if it has a destructor. -/
def call? (space : FixedSpace δ) (start : Nat) : Option (Call δ) :=
  (space.slot? start).bind (·.call? space.arena)

/-- The calls that a sweep makes. -/
def sweepCalls (space : FixedSpace δ) : List (Call δ) :=
  (space.slots.filter FixedSlot.isGarbage).filterMap (·.call? space.arena)

/-- The same call is due over other words if the payload is the same. -/
theorem slot_call?_congr {slot : FixedSlot δ} {first second : Arena}
    (same
      : ∀ occupant,
          slot.occupant = some occupant →
          first.words slot.start occupant.words = second.words slot.start occupant.words)
    : slot.call? first = slot.call? second := by
  unfold FixedSlot.call?
  cases holds : slot.occupant with
  | none => rfl
  | some occupant => simp only [Option.bind_some, same occupant holds]

/-- Destructors are called one after another, each with the payload as it was before the first call. -/
theorem calls_runDestructors {destroy : δ → Address → List Word → σ → Reply σ (List Word)}
    {kept : σ → Prop} {calls : σ → List (Call δ)}
    (keeps : ∀ destructor object words state, kept state →
      kept (destroy destructor object words state).host)
    (records
      : ∀ destructor object words state,
          kept state →
          calls (destroy destructor object words state).host
          = calls state ++ [.mk destructor object words])
    {slots : List (FixedSlot δ)} {arena : Arena} {host : σ} (holds : kept host)
    (fits
      : ∀ slot ∈ slots,
          ∀ occupant, slot.occupant = some occupant → occupant.words ≤ slot.capacity)
    (apart : slots.Pairwise fun newer older => older.stop ≤ newer.start)
    : calls (runDestructors destroy slots arena host).2.1
      = calls host ++ slots.filterMap (·.call? arena) := by
  fun_induction runDestructors destroy slots arena host with
  | case1 => simp
  | case2 slot slots arena host none? ih =>
      have silent : slot.call? arena = none := by
        rw [FixedSlot.call?]
        simpa using none?
      rw [List.filterMap_cons_none silent]
      exact ih holds (fun other inside => fits other (List.mem_cons_of_mem _ inside)) apart.tail
  | case3 slot slots arena host words destructor found reply written final host' notes run ih =>
      obtain ⟨occupant, held, equal⟩ := Option.bind_eq_some_iff.mp found
      obtain ⟨_, named, pair⟩ := Option.map_eq_some_iff.mp equal
      cases pair
      have call : slot.call? arena
          = some
            { destructor
              object := .pack .fixed slot.start
              words := arena.words slot.start occupant.words } := by
        rw [FixedSlot.call?, held, Option.bind_some, named, Option.map_some]
      -- what is written here is not what the destructors that follow read
      have rest : slots.filterMap (·.call? written) = slots.filterMap (·.call? arena) := by
        refine List.filterMap_congr fun other inside => slot_call?_congr fun later there => ?_
        refine Arena.words_congr fun index above below => Arena.get_setMany_outside _ ?_
        have under := (List.pairwise_cons.mp apart).1 other inside
        have small := fits other (List.mem_cons_of_mem _ inside) later there
        simp only [FixedSlot.stop] at under
        omega
      have later := ih (keeps _ _ _ _ holds)
        (fun other inside => fits other (List.mem_cons_of_mem _ inside)) apart.tail
      rw [run] at later
      rw [List.filterMap_cons_some call, later, rest, records _ _ _ _ holds, List.append_assoc]
      rfl

/-- The call for an object is told by what is known of it. -/
theorem call?_eq_some_iff {space : FixedSpace δ} {start : Nat} {call : Call δ}
    : space.call? start = some call
      ↔ ∃ occupant destructor,
          space.occupant? start = some occupant
          ∧ occupant.destructor = some destructor
          ∧ call = .mk destructor (.pack .fixed start) (space.arena.words start occupant.words) := by
  constructor
  · intro due
    obtain ⟨slot, found, called⟩ := Option.bind_eq_some_iff.mp due
    obtain ⟨occupant, holds, named⟩ := Option.bind_eq_some_iff.mp called
    obtain ⟨destructor, has, same⟩ := Option.map_eq_some_iff.mp named
    obtain ⟨-, rfl⟩ := mem_of_slot? found
    refine ⟨occupant, destructor, ?_, has, same.symm⟩
    rw [occupant?, found, Option.bind_some, holds]
  · rintro ⟨occupant, destructor, found, has, rfl⟩
    obtain ⟨slot, there, holds⟩ := Option.bind_eq_some_iff.mp found
    obtain ⟨-, rfl⟩ := mem_of_slot? there
    rw [call?, there, Option.bind_some, FixedSlot.call?, holds, Option.bind_some, has]
    rfl

/-- The call that is due for an object, by its destructor. -/
theorem call?_of_occupant {space : FixedSpace δ} {start : Nat} {occupant : Occupant δ}
    (found : space.occupant? start = some occupant)
    : space.call? start
      = occupant.destructor.map
          (.mk · (.pack .fixed start) (space.arena.words start occupant.words)) := by
  ext call
  rw [call?_eq_some_iff, Option.map_eq_some_iff]
  constructor
  · rintro ⟨other, destructor, found', has, rfl⟩
    obtain rfl : occupant = other := Option.some.inj (found.symm.trans found')
    exact ⟨destructor, has, rfl⟩
  · rintro ⟨destructor, has, rfl⟩
    exact ⟨occupant, destructor, found, has, rfl⟩

section Consistent

variable {space : FixedSpace δ} (consistent : space.Consistent)

include consistent

/-- A sweep calls the destructors of the objects that are not marked. -/
theorem Consistent.mem_sweepCalls {call : Call δ}
    : call ∈ space.sweepCalls
      ↔ ∃ start occupant,
          space.occupant? start = some occupant
          ∧ occupant.marked = false
          ∧ space.call? start = some call := by
  rw [sweepCalls, List.mem_filterMap]
  constructor
  · rintro ⟨slot, member, called⟩
    obtain ⟨inside, garbage⟩ := List.mem_filter.mp member
    cases holds : slot.occupant with
    | none => simp [FixedSlot.isGarbage, holds] at garbage
    | some occupant =>
        refine ⟨slot.start, occupant, ?_, by simpa [FixedSlot.isGarbage, holds] using garbage, ?_⟩
        · exact consistent.occupant?_eq_some_iff.mpr ⟨slot, inside, rfl, holds⟩
        · rwa [call?, consistent.slot?_start inside, Option.bind_some]
  · rintro ⟨start, occupant, found, unmarked, called⟩
    obtain ⟨slot, there, holds⟩ := Option.bind_eq_some_iff.mp found
    obtain ⟨inside, rfl⟩ := mem_of_slot? there
    rw [call?, there, Option.bind_some] at called
    refine ⟨slot, List.mem_filter.mpr ⟨inside, ?_⟩, called⟩
    simp [FixedSlot.isGarbage, holds, unmarked]

/-- A sweep calls destructors in the order of the slots, for what is not marked. -/
theorem Consistent.targets_sweepCalls {before : FixedSpace δ} {marked : Nat → Prop}
    [DecidablePred marked] (same : space.unmarkedSlots = before.unmarkedSlots)
    (marks
      : ∀ start occupant,
          space.occupant? start = some occupant → (occupant.marked = true ↔ marked start))
    : space.sweepCalls.map Call.target
      = before.slots.filterMap fun slot => if marked slot.start then none else slot.target? := by
  -- what is due is told by a slot without its mark
  have due : ∀ slots : List (FixedSlot δ),
      slots.filterMap (fun slot => if marked slot.start then none else slot.target?)
      = (slots.map FixedSlot.unmarked).filterMap fun slot =>
          if marked slot.start then none else slot.target? := by
    intro slots
    rw [List.filterMap_map]
    refine List.filterMap_congr fun slot _ => ?_
    simp [FixedSlot.unmarked, FixedSlot.target?, Occupant.unmarked, Option.bind_map,
      Function.comp_def]
  rw [due, ← unmarkedSlots, ← same, unmarkedSlots, ← due, sweepCalls, List.map_filterMap,
    List.filterMap_filter]
  refine List.filterMap_congr fun slot inside => ?_
  rw [FixedSlot.target_call?]
  cases held : slot.occupant with
  | none => simp [FixedSlot.target?, held]
  | some occupant =>
      have iff := marks slot.start occupant
        (consistent.occupant?_eq_some_iff.mpr ⟨slot, inside, rfl, held⟩)
      rw [FixedSlot.isGarbage, held]
      by_cases there : marked slot.start
      · simp [there, iff.mpr there]
      · have unmarked : occupant.marked = false := by simpa [there] using iff
        simp [there, unmarked]

/-- A sweep makes no two calls for one object. -/
theorem Consistent.nodup_sweepCalls (small : space.arena.size ≤ maxOffsetWords)
    : (space.sweepCalls.map Call.object).Nodup := by
  have object : ∀ {slot : FixedSlot δ} {call : Call δ}, slot.call? space.arena = some call →
      call.object = .pack .fixed slot.start := by
    intro slot call called
    obtain ⟨occupant, -, named⟩ := Option.bind_eq_some_iff.mp called
    obtain ⟨destructor, -, rfl⟩ := Option.map_eq_some_iff.mp named
    rfl
  have reaches : ∀ slot ∈ space.slots, slot.start < slot.stop ∧ slot.stop ≤ maxOffsetWords := by
    intro slot member
    have positive := consistent.stacked.capacity_pos member
    exact ⟨Nat.lt_add_of_pos_right positive,
      Nat.le_trans (consistent.stacked.stop_le member) small⟩
  rw [sweepCalls, List.Nodup, List.pairwise_map, List.pairwise_filterMap]
  refine (consistent.stacked.pairwise.imp_of_mem ?_).filter _
  intro newer older left right apart call called other called' same
  obtain ⟨low, high⟩ := reaches newer left
  obtain ⟨low', high'⟩ := reaches older right
  rw [object called, object called', Address.pack_inj (by omega) (by omega)] at same
  omega

/-- A sweep adds its calls to the record, and they are all it changes of what the destructors keep. -/
theorem Consistent.calls_sweep {destroy : δ → Address → List Word → σ → Reply σ (List Word)}
    {kept : σ → Prop} {calls : σ → List (Call δ)}
    (keeps : ∀ destructor object words state, kept state →
      kept (destroy destructor object words state).host)
    (records
      : ∀ destructor object words state,
          kept state →
          calls (destroy destructor object words state).host
          = calls state ++ [.mk destructor object words])
    {host : σ} {swept : Swept σ δ} (done : space.sweep destroy host = .ok swept)
    (holds : kept host)
    : calls swept.host = calls host ++ space.sweepCalls := by
  unfold FixedSpace.sweep at done
  split at done
  · cases done
  · cases done
    refine calls_runDestructors keeps records holds (fun slot member occupant held => ?_) ?_
    · exact (consistent.fits slot (List.mem_filter.mp member).1 occupant held).2
    · exact consistent.stacked.pairwise.filter _

end Consistent

end FixedSpace

-----------------------------------------------------------------------------------------
-- Collections
-----------------------------------------------------------------------------------------

namespace Collector

/-- A minor collection counts no full one. -/
theorem fulls_minor (host : Host σ δ) (reason : Reason) (world : World σ δ)
    : Runs (minor host reason) world
        (fun _ final =>
          final.heap.counters.fullCollections = world.heap.counters.fullCollections)
        fun _ _ => True := by
  refine runs_minor_counted fun log => ?_
  refine (tends_traceMinor host _ _).mono (fun _ traced comes final _ ends => ?_) fun _ _ _ => trivial
  rw [ends]
  exact congrArg (fun heap => heap.counters.fullCollections) comes.rest

/-- A full collection counts itself. -/
theorem fulls_full (host : Host σ δ) (reason : Reason) (world : World σ δ)
    : Runs (full host reason) world
        (fun _ final =>
          final.heap.counters.fullCollections = world.heap.counters.fullCollections + 1)
        fun _ _ => True := by
  refine runs_full_completed fun words log _ => ?_
  refine (comes_traceFull host _ _ rfl).mono (fun _ traced comes swept _ final ends _ => ?_)
    fun _ _ _ => trivial
  rw [ends]
  exact congrArg (fun heap => heap.counters.fullCollections + 1) comes.rest

end Collector

namespace World

/-- What a full collection does to fixed objects: it frees those that do not survive, and calls the
destructors of these, each once.
-/
structure Destroys (contract : Contract σ) (calls : σ → List (Call δ)) (before after : World σ δ)
    : Prop where
  survivors
    : ∀ begin occupant,
        after.heap.regions.fixed.occupant? begin = some occupant
        ↔ before.heap.regions.fixed.occupant? begin = some occupant
          ∧ before.Survives contract begin
  called
    : ∃ made,
        calls after.host = calls before.host ++ made
        ∧ (made.map Call.object).Nodup
        ∧ ∀ call,
            call ∈ made
            ↔ ∃ begin,
                before.heap.regions.fixed.call? begin = some call
                ∧ ¬ before.Survives contract begin

variable {contract : Contract σ} {calls : σ → List (Call δ)} {world : World σ δ} {host : Host σ δ}

/-- What roots hold does not depend on the record. -/
theorem rooted_having (made : List (Call δ))
    : world.Rooted (contract.having calls made) = world.Rooted contract := by
  funext value
  refine propext ⟨fun rooted => ?_, fun rooted => ?_⟩
  · cases rooted with
    | root root => exact .root root
    | kept member => exact .kept member
  · cases rooted with
    | root root => exact .root root
    | kept member => exact .kept member

/-- What can be reached does not depend on the record. -/
theorem reached_having (made : List (Call δ))
    : world.Reached (contract.having calls made) = world.Reached contract := by
  unfold Reached
  rw [rooted_having]
  rfl

/-- What is met does not depend on the record. -/
theorem met_having (made : List (Call δ)) (extra : List Value)
    : world.Met (contract.having calls made) extra = world.Met contract extra := by
  have same : world.Rooted (contract.having calls made) = world.Rooted contract :=
    rooted_having made
  have starts : world.Starts (contract.having calls made) extra = world.Starts contract extra := by
    funext value
    refine propext ⟨fun start => ?_, fun start => ?_⟩
    · cases start with
      | rooted rooted =>
          rw [same] at rooted
          exact .rooted rooted
      | noted noted => exact .noted noted
      | extra member => exact .extra member
    · cases start with
      | rooted rooted =>
          rw [← same] at rooted
          exact .rooted rooted
      | noted noted => exact .noted noted
      | extra member => exact .extra member
  unfold Met
  rw [starts]
  rfl

/-- A sound heap is sound with the calls recorded so far. -/
theorem Sound.having (sound : world.Sound contract) (calls : σ → List (Call δ))
    : world.Sound (contract.having calls (calls world.host)) := by
  have wellFormed := sound.wellFormed
  have met
      : world.Met (contract.having calls (calls world.host)) [] = world.Met contract [] :=
    met_having (calls world.host) []
  refine ⟨⟨sound.regular, ⟨⟨wellFormed.upholds, rfl⟩, ?_, ?_, ?_, ?_⟩, sound.generational⟩, sound.room⟩
  · rw [met]
    exact wellFormed.coherent
  · rw [met]
    exact wellFormed.heads
  · rw [met]
    exact wellFormed.tiled
  · exact wellFormed.recorded

/-- No fixed object is freed, no destructor is called and no full collection is counted. -/
structure SparesFixed (calls : σ → List (Call δ)) (before after : World σ δ) : Prop where
  slots : after.heap.regions.fixed.slots = before.heap.regions.fixed.slots
  silent : calls after.host = calls before.host
  fulls : after.heap.counters.fullCollections = before.heap.counters.fullCollections

theorem SparesFixed.trans {before middle after : World σ δ} (first : before.SparesFixed calls middle)
    (second : middle.SparesFixed calls after)
    : before.SparesFixed calls after :=
  ⟨second.slots.trans first.slots, second.silent.trans first.silent,
    second.fulls.trans first.fulls⟩

/-- A minor collection calls no destructor. -/
theorem Sound.minor_silent (sound : world.Sound contract) (addressable : world.Addressable)
    (records : host.Records contract calls) (reason : Reason)
    : Ends (Collector.minor host reason) world fun _ final =>
        calls final.host = calls world.host := by
  have traces := records.traces (calls world.host)
  refine Ends.mono ((sound.having calls).minor addressable traces reason) fun _ final reached => ?_
  obtain ⟨-, -, move, promotes⟩ := reached
  exact promotes.upholds.2

/-- A minor collection frees no fixed object. -/
theorem Sound.minor_spares (sound : world.Sound contract) (addressable : world.Addressable)
    (records : host.Records contract calls) (reason : Reason)
    : Ends (Collector.minor host reason) world fun _ final => world.SparesFixed calls final := by
  have promotes := sound.minor addressable records.faithful.toTraces reason
  have silent := sound.minor_silent addressable records reason
  have fulls := Collector.fulls_minor host reason world
  refine ((promotes.and silent).and fulls).mono ?_ fun _ _ never => never.1.1
  rintro _ final ⟨⟨⟨-, -, move, promotes⟩, silent⟩, fulls⟩
  exact ⟨promotes.slots, silent, fulls⟩

end World

namespace Pass

section Full

variable {contract : Contract σ} {world : World σ δ} {words : Arena} {trail : Trail}
  {traced : World σ δ}
  (progress : (ofFull contract world words).Progress trail traced.heap.regions)
  (settled
    : ∀ value, world.Reached contract value → (ofFull contract world words).Settled trail value)
  (collectable : world.Collectable contract)

include progress settled collectable

/-- The calls due once everything was traced are those that were due before, for the objects that do not
survive.
-/
theorem mem_sweepCalls_ofFull {call : Call δ}
    : call ∈ traced.heap.regions.fixed.sweepCalls
      ↔ ∃ begin,
          world.heap.regions.fixed.call? begin = some call ∧ ¬ world.Survives contract begin := by
  have consistent := collectable.regular.consistent
  have survives : ∀ {begin}, begin ∈ trail.marked ↔ world.Survives contract begin :=
    marked_iff_survives progress settled
  -- what is not marked was not handled
  have words : ∀ {begin occupant},
      world.heap.regions.fixed.occupant? begin = some occupant →
      ¬ world.Survives contract begin →
      traced.heap.regions.fixed.arena.words begin occupant.words
      = world.heap.regions.fixed.arena.words begin occupant.words := by
    intro begin occupant found dies
    obtain ⟨inside, covers⟩ := consistent.payload found
    refine Arena.words_congr fun index above below => ?_
    refine progress.stays .fixed index (Or.inl ⟨rfl, by exact Nat.lt_of_lt_of_le below inside⟩) ?_
    rintro ⟨-, other, step, resident, lives, there, within, rfl⟩
    have covered := covers (other + step - begin) (by omega)
    rw [show begin + (other + step - begin) = other + step by omega,
      (consistent.payload there).2 step within] at covered
    cases covered
    exact dies lives
  rw [(progress.evolves.consistent consistent).mem_sweepCalls]
  constructor
  · rintro ⟨begin, occupant, found, unmarked, due⟩
    obtain ⟨former, destructor, same, has, rfl⟩ := FixedSpace.call?_eq_some_iff.mp due
    rw [found] at same
    cases same
    have dies : ¬ world.Survives contract begin := by
      rw [← survives, ← progress.marks begin occupant found, unmarked]
      decide
    have alike := FixedSpace.occupant?_alike progress.evolves.slots begin
    rw [found, Option.map_some, eq_comm, Option.map_eq_some_iff] at alike
    obtain ⟨before, there, equal⟩ := alike
    obtain ⟨sameWords, sameDestructor, -, -⟩ := Occupant.mk.inj equal
    refine ⟨begin, FixedSpace.call?_eq_some_iff.mpr ⟨before, destructor, there, ?_, ?_⟩, dies⟩
    · rw [sameDestructor, has]
    · rw [← words there dies, sameWords]
  · rintro ⟨begin, due, dies⟩
    obtain ⟨occupant, destructor, found, has, rfl⟩ := FixedSpace.call?_eq_some_iff.mp due
    obtain ⟨marked, held⟩ := progress.occupant found
    have unmarked : marked = false := by
      have iff := progress.marks begin _ held
      rw [survives] at iff
      simpa [dies] using iff
    refine ⟨begin, _, held, unmarked,
      FixedSpace.call?_eq_some_iff.mpr ⟨_, destructor, held, has, ?_⟩⟩
    rw [words found dies]

end Full

end Pass

namespace World

variable {contract : Contract σ} {calls : σ → List (Call δ)} {world : World σ δ} {host : Host σ δ}

/-- The heap after tracing has been swept by a full collection that makes the calls of the sweep. -/
structure Sweeping (contract : Contract σ) (calls : σ → List (Call δ)) (words : Arena)
    (before traced : World σ δ) (trail : Trail) (after : World σ δ)
    : Prop where
  progress
    : (Pass.ofFull (contract.having calls (calls before.host)) before words).Progress trail
        traced.heap.regions
  settled
    : ∀ value,
        before.Reached (contract.having calls (calls before.host)) value →
        (Pass.ofFull (contract.having calls (calls before.host)) before words).Settled trail value
  called : calls after.host = calls before.host ++ traced.heap.regions.fixed.sweepCalls

/-- A heap can be collected with the calls recorded so far. -/
theorem Collectable.having (collectable : world.Collectable contract) (calls : σ → List (Call δ))
    : world.Collectable (contract.having calls (calls world.host)) := by
  refine ⟨collectable.regular, ⟨collectable.upholds, rfl⟩, ?_⟩
  rw [reached_having]
  exact collectable.coherent

/-- What survives does not depend on the record. -/
theorem survives_having (made : List (Call δ))
    : world.Survives (contract.having calls made) = world.Survives contract := by
  funext begin
  unfold Survives
  rw [reached_having]

/-- A full collection makes the calls of its sweep and no other. -/
theorem Collectable.full_sweeping (collectable : world.Collectable contract)
    (addressable : world.Addressable) (records : host.Records contract calls) (reason : Reason)
    : Runs (Collector.full host reason) world
        (fun _ final =>
          ∃ words traced trail, Sweeping contract calls words world traced trail final)
        fun _ _ => True := by
  have quiet := collectable.having calls
  refine Collector.runs_full (fun words mapped log => ?_) fun _ _ _ => trivial
  refine Runs.mono (Pass.traceFull_done quiet addressable mapped (records.traces _) log) ?_
    fun _ _ => False.elim
  intro _ traced reached
  obtain ⟨trail, done, settled, -, -⟩ := reached
  have progress := done.standing.moment.progress
  have consistent : traced.heap.regions.fixed.Consistent :=
    progress.evolves.consistent quiet.regular.consistent
  obtain ⟨upholds, recorded⟩
      : contract.Upholds traced.host ∧ calls traced.host = calls world.host :=
    done.standing.moment.upholds
  have keeps : ∀ destructor object words state, contract.Upholds state →
      contract.Upholds (host.destroy destructor object words state).host :=
    fun destructor object words state held =>
      (records.faithful.destroy destructor object words state held).1
  obtain ⟨swept, sweep, -, kept⟩ := consistent.sweep host.destroy traced.host
  have added := consistent.calls_sweep keeps records.destroy sweep upholds
  rw [sweep]
  intro final host' heap
  obtain ⟨-, after⟩ :=
    ((records.traces (calls swept.host)).afterFull swept.host ⟨kept _ keeps upholds, rfl⟩).1
  refine ⟨words, traced, trail, progress, settled, ?_⟩
  rw [host', after, added, recorded]

/-- A full collection calls the destructors of the fixed objects that it frees, each once. -/
theorem Collectable.full_destroys (collectable : world.Collectable contract)
    (addressable : world.Addressable) (records : host.Records contract calls) (reason : Reason)
    : Runs (Collector.full host reason) world
        (fun _ final =>
          ∃ move, World.Compacts contract move world final ∧ world.Destroys contract calls final)
        fun _ _ => host.mapper.map? (Collector.targetWords world.heap) = none := by
  have called := collectable.full_sweeping addressable records reason
  refine (called.and (collectable.full addressable records.faithful reason)).mono ?_
    fun _ _ stopped => stopped.2.1
  rintro _ final ⟨⟨words, traced, trail, sweeping⟩, -, -, move, compacts⟩
  have progress := sweeping.progress
  have consistent : traced.heap.regions.fixed.Consistent :=
    progress.evolves.consistent collectable.regular.consistent
  have small : traced.heap.regions.fixed.arena.size ≤ maxOffsetWords :=
    Nat.le_trans (Nat.le_of_eq progress.evolves.fixedSize) addressable
  refine ⟨move, compacts, compacts.survivors, _, sweeping.called,
    consistent.nodup_sweepCalls small, fun call => ?_⟩
  rw [Pass.mem_sweepCalls_ofFull progress sweeping.settled (collectable.having calls),
    survives_having]

open Classical in
/-- The destructors that a full collection is to call, in the order of the slots. -/
noncomputable def targets (contract : Contract σ) (world : World σ δ) : List (δ × Address) :=
  world.heap.regions.fixed.slots.filterMap fun slot =>
    if world.Survives contract slot.start then none else slot.target?

/-- A full collection calls the destructors that it is to call, in the order of the slots. -/
theorem Collectable.full_targets (collectable : world.Collectable contract)
    (addressable : world.Addressable) (records : host.Records contract calls) (reason : Reason)
    : Runs (Collector.full host reason) world
        (fun _ final =>
          (calls final.host).map Call.target
          = (calls world.host).map Call.target ++ world.targets contract)
        fun _ _ => True := by
  classical
  refine (collectable.full_sweeping addressable records reason).mono ?_ fun _ _ => id
  rintro _ final ⟨words, traced, trail, sweeping⟩
  have progress := sweeping.progress
  have consistent : traced.heap.regions.fixed.Consistent :=
    progress.evolves.consistent collectable.regular.consistent
  have marks : ∀ begin occupant,
      traced.heap.regions.fixed.occupant? begin = some occupant →
      (occupant.marked = true ↔ world.Survives contract begin) := by
    intro begin occupant found
    rw [progress.marks begin occupant found, Pass.marked_iff_survives progress sweeping.settled,
      survives_having]
  rw [sweeping.called, List.map_append, targets,
    consistent.targets_sweepCalls progress.evolves.slots marks]
  rfl

-----------------------------------------------------------------------------------------
-- Collecting on demand
-----------------------------------------------------------------------------------------

/-- A full collection begins on a heap that is in order, and no fixed object was freed before it. -/
theorem LaunchesFull.begins {begun : World σ δ} (launches : world.LaunchesFull host begun)
    (sound : world.Sound contract) (addressable : world.Addressable)
    (records : host.Records contract calls)
    : begun.Orderly contract ∧ begun.Addressable ∧ world.SparesFixed calls begun := by
  cases launches with
  | here => exact ⟨sound.toOrderly, addressable, rfl, rfl, rfl⟩
  | promoted ends =>
      obtain ⟨collects, orderly, -⟩ :=
        (sound.minor addressable records.faithful.toTraces _).of_ok ends
      refine ⟨orderly, ?_, (sound.minor_spares addressable records _).of_ok ends⟩
      rw [Addressable, collects.arena]
      exact addressable

/-- What collecting on demand does to fixed objects: nothing as long as no full collection runs, and
otherwise what the one does that runs.
-/
inductive Disposes (contract : Contract σ) (calls : σ → List (Call δ)) (host : Host σ δ)
    (before after : World σ δ)
    : Prop where
  | spared (spares : before.SparesFixed calls after)
  | swept {begun : World σ δ} {reason : Reason} (launches : before.LaunchesFull host begun)
      (ran : Collector.full host reason begun = .ok () after)
      (destroys : begun.Destroys contract calls after)

/-- Collecting on demand does to fixed objects what collections do. -/
theorem Sound.collectFor_disposes (sound : world.Sound contract)
    (addressable : world.Addressable) (records : host.Records contract calls) (words : Nat)
    (wantsFull : Bool) (reason : Reason)
    : Runs (Collector.collectFor host words wantsFull reason) world
        (fun _ final => world.Disposes contract calls host final) fun _ _ => True := by
  have full : ∀ {begun : World σ δ} (reason : Reason), world.LaunchesFull host begun →
      Runs (Collector.full host reason) begun
        (fun _ final => world.Disposes contract calls host final) fun _ _ => True := by
    intro begun reason launches
    obtain ⟨orderly, still, -⟩ := launches.begins sound addressable records
    refine (orderly.collectable.full_destroys still records reason).with_ok.mono ?_
      fun _ _ _ => trivial
    rintro _ final ⟨ran, _, -, destroys⟩
    exact .swept launches ran destroys
  refine Collector.runs_collectFor (fun _ _ => trivial) (fun _ _ => trivial)
    (fun _ _ reason => full reason .here) fun _ _ => ?_
  have spares : Runs (Collector.minor host reason) world _ fun _ _ => False :=
    sound.minor_spares addressable records reason
  refine spares.with_ok.mono ?_ fun _ _ => False.elim
  rintro _ middle ⟨ran, spares⟩
  split_ifs
  · exact full .oldSpaceFull (.promoted ran)
  · exact .spared spares

end World

end MovingHeap
