import MovingHeap.Proofs.CollectionOutcome
import MovingHeap.Proofs.Soundness

/-! The full collection of a heap whose reachable references are well-formed.
Tracing starts from all roots and goes through fixed objects that were not forgotten, so what it copies
is what can be reached, and what it marks are the fixed objects that the sweep keeps.
-/

namespace MovingHeap

variable {σ δ : Type}

/-- The copies of some objects lie back to back in the old region, from one offset to another. -/
def Regions.Packs (layout : Layout) (move : Value → Value) (before after : Regions δ)
    : List Address → Nat → Nat → Prop
  | [], start, stop => start = stop
  | object :: rest, start, stop =>
      (∃ copy, Regions.Copied layout move before after object copy ∧ copy.offset = start)
      ∧ Packs layout move before after rest (start + layout.size (before.field object)) stop

namespace World

/-- The heap is as a full collection needs it: in order, with well-formed references among those that
can be reached.
-/
structure Collectable (contract : Contract σ) (world : World σ δ) : Prop where
  regular : world.heap.Regular
  upholds : contract.Upholds world.host
  coherent : world.heap.regions.Coherent contract.layout (world.Reached contract)

/-- The fixed object that begins at a place can be reached and was not forgotten. -/
def Survives (contract : Contract σ) (world : World σ δ) (begin : Nat) : Prop :=
  ∃ addr : Address,
    addr.Decodes
    ∧ world.Reached contract addr.toValue
    ∧ addr.space = .fixed
    ∧ world.heap.regions.fixed.containing? addr.offset = some begin
    ∧ world.heap.regions.forgets addr = false

/-- The old region is the copies of all moving objects that can be reached, back to back; references to
forgotten fixed objects are cleared, and the fixed objects that survive are those that can be reached
and were not forgotten, as they were.
-/
structure Compacts (contract : Contract σ) (move : Value → Value) (before after : World σ δ)
    : Prop extends World.Relocates contract (before.Reached contract) move before after where
  packed
    : ∃ objects : List Address,
        objects.Nodup
        ∧ (∀ object : Address,
            object ∈ objects
            ↔ object.Decodes ∧ before.Reached contract object.toValue ∧ object.space ≠ .fixed)
        ∧ Regions.Packs contract.layout move before.heap.regions after.heap.regions objects 0
            after.heap.regions.old.cursor
  forgotten
    : ∀ addr : Address,
        addr.Decodes →
        addr.space = .fixed →
        before.heap.regions.forgets addr →
        move addr.toValue = .null
  known
    : ∀ addr : Address,
        addr.Decodes →
        before.Reached contract addr.toValue →
        addr.space = .fixed →
        before.heap.regions.forgets addr = false →
        Regions.Kept move before.heap.regions after.heap.regions addr
  survivors
    : ∀ begin occupant,
        after.heap.regions.fixed.occupant? begin = some occupant
        ↔ before.heap.regions.fixed.occupant? begin = some occupant
          ∧ before.Survives contract begin
  flipped : after.heap.regions.old.space = before.heap.regions.old.space.flipped
  unused
    : ∀ offset,
        before.heap.regions.birth.cursor ≤ offset →
        after.heap.regions.cell .birth offset = before.heap.regions.cell .birth offset
  numbered : after.heap.collections = before.heap.collections + 1

end World

namespace Pass

/-- A full collection: it starts from the roots, copies into a semispace over the given words and
forwards the words of the fixed objects that survive.
-/
def ofFull (contract : Contract σ) (world : World σ δ) (words : Arena) : Pass σ δ where
  contract
  before := (Collector.fullStart world.heap words).regions
  start := world.Rooted contract
  handles space offset :=
    space = .fixed
    ∧ ∃ begin index occupant,
        world.Survives contract begin
        ∧ world.heap.regions.fixed.occupant? begin = some occupant
        ∧ index < occupant.words
        ∧ offset = begin + index

section Full

variable {contract : Contract σ} {world : World σ δ} {words : Arena}

theorem opens_ofFull : (ofFull contract world words).Opens world.heap.regions := ⟨rfl, rfl, rfl⟩

theorem full_ofFull : (ofFull contract world words).full = true := rfl

/-- A full collection meets what can be reached. -/
theorem traced_ofFull {value : Value}
    : (ofFull contract world words).Traced value ↔ world.Reached contract value :=
  opens_ofFull.traced_iff

theorem moves_ofFull {space : Space}
    : (ofFull contract world words).moves space = world.heap.regions.moves true space :=
  opens_ofFull.moves true space

theorem field_ofFull {object : Address} (moves : world.heap.regions.moves true object.space)
    : (ofFull contract world words).before.field object = world.heap.regions.field object :=
  opens_ofFull.field moves

/-- A fixed object that was not forgotten survives if something leads to it. -/
theorem forgets_eq {regions : Regions δ} {addr : Address} {begin : Nat} {occupant : Occupant δ}
    (covers : regions.fixed.containing? addr.offset = some begin)
    (found : regions.fixed.occupant? begin = some occupant)
    : regions.forgets addr = occupant.forgotten := by
  simp [Regions.forgets, Regions.occupantAt?, covers, found]

section Ready

variable (collectable : world.Collectable contract) (addressable : world.Addressable)
  {mapper : Mapper} (mapped : mapper.map? (Collector.targetWords world.heap) = some words)

include collectable addressable mapped

/-- A full collection of a collectable heap can trace. -/
theorem ready_ofFull : (ofFull contract world words).Ready := by
  have regular := collectable.regular
  have coherent := collectable.coherent
  obtain ⟨zeroed, small⟩ := Mapper.size_of_map? mapped
  have size : words.size = Collector.targetWords world.heap := by
    rw [zeroed]
    rfl
  have slack := regular.slack
  have inside := regular.birthInside
  refine ⟨⟨regular.apart.old, fun target found => ?_⟩, ?_, regular.oldInside, regular.birthSmall,
    regular.oldSmall, ?_, addressable, regular.consistent, regular.noneMarked, regular.unscanned,
    ?_, fun addr valid traced moves => ?_,
    fun first second valid valid' traced traced' same moves => ?_,
    fun _ addr valid traced => ?_, fun space offset handled => ?_⟩
  · simp only [ofFull, Collector.fullStart, Option.some.injEq] at found
    rw [← found]
    rfl
  · have below : world.heap.regions.birth.cursor ≤ world.heap.regions.birth.capacity := by omega
    exact below
  · exact (Nat.le_of_eq size).trans small
  · have enough : 0 + world.heap.regions.birth.cursor + world.heap.regions.old.cursor
        ≤ words.size := by
      rw [size, Collector.targetWords]
      omega
    exact enough
  · rw [moves_ofFull] at moves
    obtain ⟨-, isObject, within⟩ := coherent.object addr valid (traced_ofFull.mp traced)
      (regular.apart.ne_fixed moves)
    rw [Pass.size, field_ofFull moves]
    exact ⟨isObject, within⟩
  · rw [moves_ofFull] at moves
    have moves' : world.heap.regions.moves true second.space := by rwa [← same]
    rw [Pass.size, Pass.size, field_ofFull moves, field_ofFull moves']
    exact coherent.apart first second valid valid' (traced_ofFull.mp traced)
      (traced_ofFull.mp traced') same (regular.apart.ne_fixed moves)
  · split_ifs with fixed
    · exact coherent.live addr valid (traced_ofFull.mp traced) fixed
    · rw [moves_ofFull]
      exact (coherent.object addr valid (traced_ofFull.mp traced) fixed).1
  · obtain ⟨rfl, begin, index, occupant, ⟨addr, valid, reached, fixed, covers, known⟩, found,
      within, rfl⟩ := handled
    have payload := (regular.consistent.payload found).1
    have below : begin + index < world.heap.regions.fixed.arena.size := by omega
    rw [forgets_eq covers found] at known
    exact ⟨.payload valid (traced_ofFull.mpr reached) rfl fixed covers found known within,
      Or.inl ⟨rfl, below⟩⟩

end Ready

-----------------------------------------------------------------------------------------
-- Tracing
-----------------------------------------------------------------------------------------

/-- The words of what is marked are handled. -/
theorem handles_ofFull {trail : Trail} {now : Regions δ}
    (progress : (ofFull contract world words).Progress trail now) {begin : Nat}
    (marked : begin ∈ trail.marked)
    : world.Survives contract begin ∧ (ofFull contract world words).HandlesObject begin := by
  obtain ⟨-, addr, valid, traced, fixed, covers, known⟩ := progress.reached begin marked
  have survives : world.Survives contract begin :=
    ⟨addr, valid, traced_ofFull.mp traced, fixed, covers, known⟩
  exact ⟨survives, fun occupant found index inside =>
    ⟨rfl, begin, index, occupant, survives, found, inside, rfl⟩⟩

section Tracing

variable (collectable : world.Collectable contract) (addressable : world.Addressable)
  {mapper : Mapper} (mapped : mapper.map? (Collector.targetWords world.heap) = some words)
  {host : Host σ δ} (faithful : host.Traces contract)

include collectable addressable mapped faithful

/-- The world as a full collection starts to trace. -/
theorem standing_ofFull (log : List Event)
    : (ofFull contract world words).Standing world.heap (contract.roots world.host) {}
        { heap := Collector.fullStart world.heap words
          host := (host.beforeFull world.host).host
          log } := by
  obtain ⟨upholds, roots⟩ := faithful.beforeFull world.host collectable.upholds
  have ready := ready_ofFull collectable addressable mapped
  exact ⟨⟨ready.progress, upholds, roots⟩, fun root => .inl (by cases root <;> rfl)⟩

/-- Where a full collection starts to trace, nothing was visited. -/
theorem gathers_ofFull {begun : World σ δ}
    (same
      : begun
        = { heap := Collector.fullStart world.heap words
            host := (host.beforeFull world.host).host
            log := begun.log })
    : (ofFull contract world words).Gathers world.heap begun (contract.roots world.host)
        world.heap.regions.fixed.recent [] (fun _ _ => False) {} begun := by
  refine ⟨?_, (World.Advances.refl begun).toComes, ?_, nofun, nofun, nofun⟩
  · rw [same]
    exact standing_ofFull collectable addressable mapped faithful begun.log
  · rw [same]
    rfl

omit collectable addressable mapped faithful in
/-- A root of a kind that holds something is visited. -/
theorem covers_ofFull {now : World σ δ} {kind : RootKind} (root : Root) (here : root.kind = kind)
    (present : now.heap.rootValue root ≠ .null)
    : root ∈ now.heap.rootsOf kind
      ∨ ∀ later, (ofFull contract world words).Still later (world.heap.rootValue root) := by
  subst here
  exact Or.inl (Heap.mem_rootsOf present)

/-- Visiting all that a full collection starts from forwards the roots. -/
theorem visitFullRoots_visited {begun : World σ δ}
    (same
      : begun
        = { heap := Collector.fullStart world.heap words
            host := (host.beforeFull world.host).host
            log := begun.log })
    : Ends (Collector.visitFullRoots host) begun fun _ final =>
        ∃ later,
          (ofFull contract world words).Visited world.heap (contract.roots world.host) later final
          ∧ begun.Comes final
          ∧ ∀ begin ∈ later.marked, begin ∈ final.heap.regions.unscanned := by
  have ready := ready_ofFull collectable addressable mapped
  have traced : ∀ root, (ofFull contract world words).Traced (world.heap.rootValue root) :=
    fun root => .start (.root root)
  have started := gathers_ofFull collectable addressable mapped faithful same
  simp only [Collector.visitFullRoots, Collector.visit, runs_bind, World.runs_heapNow]
  refine (started.visitKind ready faithful .slot traced covers_ofFull).mono ?_
  intro _ _ reached
  obtain ⟨_, slots⟩ := reached
  refine (slots.visitKind ready faithful .pending traced covers_ofFull).mono ?_
  intro _ _ reached
  obtain ⟨_, pending⟩ := reached
  refine (pending.visitKind ready faithful .module traced covers_ofFull).mono ?_
  intro _ _ reached
  obtain ⟨_, modules⟩ := reached
  refine (modules.visitKind ready faithful .constant traced covers_ofFull).mono ?_
  intro _ _ reached
  obtain ⟨_, constants⟩ := reached
  refine (constants.visitHost ready faithful _ (faithful.extraFullRoots (contract.roots world.host))
    fun root member => .start (.kept member)).mono ?_
  intro _ final reached
  obtain ⟨later, all, became⟩ := reached
  exact ⟨later, all.visited (fun kind => by cases kind <;> simp) became, all.comes, all.waiting⟩

/-- Tracing in a full collection comes to its end, and every object that was marked was scanned. -/
theorem traceFull_done (log : List Event)
    : Ends
        (Collector.traceFull host (Collector.fullTarget world.heap words)
          world.heap.regions.fixed.slots.length)
        { heap := Collector.fullStart world.heap words
          host := (host.beforeFull world.host).host
          log } fun _ traced =>
        ∃ trail,
          (ofFull contract world words).Done world.heap (contract.roots world.host) trail traced
          ∧ (∀ value, world.Reached contract value →
              (ofFull contract world words).Settled trail value)
          ∧ (∀ begin ∈ trail.marked,
              (ofFull contract world words).Filled trail traced.heap.regions begin)
          ∧ world.heap.SameTables traced.heap := by
  have ready := ready_ofFull collectable addressable mapped
  simp only [Collector.traceFull, runs_bind, World.runs_enterPhase]
  refine (visitFullRoots_visited collectable addressable mapped faithful rfl).mono ?_
  intro _ middle reached
  obtain ⟨trail, visited, comes, waiting⟩ := reached
  have entered := visited.standing.enterPhase (show Phase.relocating ≠ .idle by decide)
    (.phaseChanged middle.heap.phase .relocating :: middle.log)
  have standing := entered.standing
  have scans := scanSurvivors_scanned ready full_ofFull faithful .relocating
    (fun _ _ progress _ marked => (handles_ofFull progress marked).2)
    ((Collector.fullTarget world.heap words).capacity + world.heap.regions.fixed.slots.length)
    standing.moment (.initial trail _) (fun begin marked => Or.inl (waiting begin marked)) ?_
  · have isFull : middle.heap.regions.isFull := comes.regions.isFull
    refine (standing.onSite_onward (Collector.runs_scanSurvivors host _ _ _ _ isFull) scans).mono ?_
    intro _ final reached
    obtain ⟨later, passes, -, scanned, filled⟩ := reached
    have through := entered.trans passes
    have rooted := visited.onward through
    have settled : ∀ value, world.Reached contract value →
        (ofFull contract world words).Settled later value := by
      intro value reached
      refine settled_of_traced (fun value start => ?_) scanned (fun _ => filled)
        (traced_ofFull.mpr reached)
      cases start with
      | root root => exact (rooted.forwarded root).1
      | kept member => exact rooted.roots_eq.2 _ member
    have tables := (comes.trans through.comes).tables
    refine ⟨later, ⟨rooted, fun space offset handled => ?_, scanned⟩, settled, filled,
      ⟨tables.frames, tables.handlers, tables.modules, tables.limit, tables.capacity,
        tables.groups⟩⟩
    obtain ⟨rfl, begin, index, occupant, ⟨addr, valid, reached, fixed, covers, known⟩, found,
      within, rfl⟩ := handled
    have marked := (settled _ reached addr (Value.address?_toValue valid)).2 rfl fixed known begin
      covers
    exact filled begin marked occupant found index within
  · obtain ⟨-, enough⟩ := Collector.steps_traceFull collectable.regular mapped rfl comes
    exact enough

end Tracing

-----------------------------------------------------------------------------------------
-- The fixed space after the sweep
-----------------------------------------------------------------------------------------

section Swept

variable {trail : Trail} {now : Regions δ} {swept : FixedSpace δ}
  (progress : (ofFull contract world words).Progress trail now) (sweeps : now.fixed.Sweeps swept)
  (regular : world.heap.Regular)

include progress sweeps regular

/-- The objects after the sweep are those that were marked, as they were. -/
theorem occupant?_sweptFull {begin : Nat} {occupant : Occupant δ}
    : swept.occupant? begin = some occupant
      ↔ world.heap.regions.fixed.occupant? begin = some occupant ∧ begin ∈ trail.marked := by
  have unmarked : ∀ {former : Occupant δ},
      world.heap.regions.fixed.occupant? begin = some former → former.unmarked = former := by
    intro former found
    obtain ⟨slot, member, -, holds⟩ := regular.consistent.occupant?_eq_some_iff.mp found
    have plain := regular.noneMarked slot member former holds
    cases former
    simp_all [Occupant.unmarked]
  rw [sweeps.occupant?, Option.map_eq_some_iff]
  constructor
  · intro there
    obtain ⟨former, kept, same⟩ := there
    obtain ⟨held, marked⟩ := Option.filter_eq_some_iff.mp kept
    have alike := FixedSpace.occupant?_alike progress.evolves.slots begin
    rw [held, Option.map_some, eq_comm, Option.map_eq_some_iff] at alike
    obtain ⟨before, found, equal⟩ := alike
    rw [unmarked found, same] at equal
    subst equal
    exact ⟨found, (progress.marks begin former held).mp marked⟩
  · intro there
    obtain ⟨found, member⟩ := there
    obtain ⟨marked, held⟩ := progress.occupant found
    have reached : marked = true := (progress.marks begin _ held).mpr member
    refine ⟨{ occupant with marked }, ?_, unmarked found⟩
    rw [held, Option.filter_some, reached, if_pos rfl]

/-- A place that a marked object covers is still covered by it. -/
theorem containing?_sweptFull {offset begin : Nat}
    (covers : world.heap.regions.fixed.containing? offset = some begin)
    (marked : begin ∈ trail.marked)
    : swept.containing? offset = some begin := by
  have consistent : now.fixed.Consistent := progress.evolves.consistent regular.consistent
  rw [sweeps.containing?_eq_some_iff consistent,
    FixedSpace.containing?_alike progress.evolves.slots offset]
  obtain ⟨occupant, found⟩ := regular.consistent.exists_occupant covers
  obtain ⟨here, held⟩ := progress.occupant found
  exact ⟨covers, _, held, (progress.marks begin _ held).mpr marked⟩

end Swept

-----------------------------------------------------------------------------------------
-- What a full collection leaves
-----------------------------------------------------------------------------------------

section After

variable {trail : Trail} {roots : List Value} {traced final : World σ δ} {swept : FixedSpace δ}
  (done : (ofFull contract world words).Done world.heap roots trail traced)
  (settled
    : ∀ value, world.Reached contract value → (ofFull contract world words).Settled trail value)
  (filled
    : ∀ begin ∈ trail.marked,
        (ofFull contract world words).Filled trail traced.heap.regions begin)
  (sweeps : traced.heap.regions.fixed.Sweeps swept)
  (keeps : contract.Keeps traced.host final.host)
  (heap : final.heap = Collector.fullEnd traced.heap swept final.heap.counters)

include heap in
/-- The fixed space is the one that was swept. -/
theorem fixed_ofFull : final.heap.regions.fixed = swept.clearFresh := by
  rw [heap]
  rfl

include heap in
/-- The words of the fixed space are those that the sweep left. -/
theorem cell_fixed_ofFull (offset : Nat)
    : final.heap.regions.cell .fixed offset = swept.arena.get offset := by
  rw [Regions.cell, fixed_ofFull heap]
  rfl

include heap in
/-- The old region is the one that was copied to. -/
theorem old_ofFull : final.heap.regions.old = traced.heap.regions.destination := by
  rw [heap]
  rfl

include keeps heap in
/-- What was traced is what a full collection leaves. -/
theorem leaves_ofFull (progress : (ofFull contract world words).Progress trail traced.heap.regions)
    (ready : (ofFull contract world words).Ready)
    : (ofFull contract world words).Leaves traced final where
  upholds := keeps.1
  kept := keeps.2
  roots root := by
    rw [heap]
    cases root <;> rfl
  tables := by
    have regions : traced.heap.SameTables { traced.heap with
        regions := Collector.adoptTarget { traced.heap.regions with fixed := swept } } :=
      ⟨rfl, rfl, fun _ => rfl, rfl, rfl, rfl⟩
    refine regions.trans ((Collector.sameTables_resetYoung _).trans ?_)
    rw [heap]
    exact ⟨rfl, rfl, fun _ => rfl, rfl, rfl, rfl⟩
  space := by
    rw [heap]
    exact progress.destinationSpace
  cursor := by
    rw [heap]
    rfl
  cells offset := by
    have apart := progress.evolves.apart ready.apart
    have space := progress.destinationSpace
    have old := ready.isOld_space
    rw [← space, apart.cell_destination, Regions.cell_of_isOld (by rwa [space]),
      Regions.oldSpace?, old_ofFull heap, if_pos rfl]
    rfl
  birth offset := by
    rw [heap]
    rfl

/-- The survivors of the sweep are those that were marked. -/
theorem marked_iff_survives
    (progress : (ofFull contract world words).Progress trail traced.heap.regions)
    (settled
      : ∀ value, world.Reached contract value → (ofFull contract world words).Settled trail value)
    {begin : Nat}
    : begin ∈ trail.marked ↔ world.Survives contract begin := by
  constructor
  · exact fun marked => (handles_ofFull progress marked).1
  · intro survives
    obtain ⟨addr, valid, reached, fixed, covers, known⟩ := survives
    exact (settled _ reached addr (Value.address?_toValue valid)).2 rfl fixed known begin covers

/-- References to forgotten objects are cleared. -/
theorem relocated_forgotten {addr : Address} (ready : (ofFull contract world words).Ready)
    (valid : addr.Decodes) (fixed : addr.space = .fixed) (forgets : world.heap.regions.forgets addr)
    : (ofFull contract world words).relocated trail addr.toValue = .null := by
  have rests := ready.not_moves_fixed
  have gave : (ofFull contract world words).before.forgets addr :=
    (opens_ofFull.forgets addr).trans forgets
  rw [relocated, Value.address?_toValue valid]
  simp only [fixed, rests, full_ofFull, gave, Bool.false_eq_true, if_false, beq_self_eq_true,
    Bool.and_true, if_true]

include done settled filled sweeps heap in
/-- A fixed object that can be reached and was not forgotten is where it was. -/
theorem kept_ofFull (collectable : world.Collectable contract)
    (ready : (ofFull contract world words).Ready) {addr : Address} (valid : addr.Decodes)
    (reached : world.Reached contract addr.toValue) (fixed : addr.space = .fixed)
    (known : world.heap.regions.forgets addr = false)
    : Regions.Kept ((ofFull contract world words).relocated trail) world.heap.regions
        final.heap.regions addr := by
  have progress := done.standing.moment.progress
  have regular := collectable.regular
  obtain ⟨begin, covers⟩ :=
    Option.isSome_iff_exists.mp (collectable.coherent.live addr valid reached fixed)
  obtain ⟨occupant, found⟩ := regular.consistent.exists_occupant covers
  have marked : begin ∈ trail.marked :=
    (marked_iff_survives progress settled).mpr ⟨addr, valid, reached, fixed, covers, known⟩
  have held := (occupant?_sweptFull progress sweeps regular).mpr ⟨found, marked⟩
  refine ⟨?_, begin, occupant, covers, found, ?_, ?_, fun _ index inside => ?_⟩
  · rw [relocated_eq_image valid fun _ _ => (opens_ofFull.forgets addr).trans known, image, fixed,
      if_neg (by simp [ready.not_moves_fixed])]
  · rw [fixed_ofFull heap]
    exact containing?_sweptFull progress sweeps regular covers marked
  · rw [fixed_ofFull heap]
    exact held
  · have there := (sweeps.consistent.payload held).2 index inside
    rw [cell_fixed_ofFull heap, sweeps.kept _ _ there]
    exact (filled begin marked occupant found index inside).2

include done settled filled sweeps keeps heap

/-- The objects that can be reached have been relocated by a full collection. -/
theorem relocates_ofFull (collectable : world.Collectable contract)
    (ready : (ofFull contract world words).Ready) (same : roots = contract.roots world.host)
    (tables : world.heap.SameTables traced.heap)
    : World.Relocates contract (world.Reached contract)
        ((ofFull contract world words).relocated trail) world final := by
  have progress := done.standing.moment.progress
  have visited := done.toVisited
  rw [same] at visited
  refine visited.relocates ready opens_ofFull collectable.coherent settled done.scanned tables
    (leaves_ofFull keeps heap progress ready) ?_ ?_
  · intro object valid reached notFixed rests
    rw [moves_ofFull, (collectable.coherent.object object valid reached notFixed).1] at rests
    cases rests
  · intro addr valid reached fixed
    cases forgets : world.heap.regions.forgets addr with
    | true => exact Or.inl ⟨rfl, relocated_forgotten ready valid fixed forgets⟩
    | false =>
        exact Or.inr (kept_ofFull done settled filled sweeps heap collectable ready valid reached
          fixed forgets)

omit settled filled sweeps in
/-- Copies made one behind the other are packed, by induction along those that follow. -/
theorem packs_ofFull (ready : (ofFull contract world words).Ready) {front rest : List Address}
    (split : trail.moved = front ++ rest)
    : Regions.Packs contract.layout ((ofFull contract world words).relocated trail)
        world.heap.regions final.heap.regions rest
        (extent (ofFull contract world words).size front)
        (extent (ofFull contract world words).size trail.moved) := by
  have progress := done.standing.moment.progress
  have leaves := leaves_ofFull keeps heap progress ready
  have field : ∀ object : Address, (ofFull contract world words).moves object.space →
      world.heap.regions.field object
        = (ofFull contract world words).before.field object := by
    intro object moves
    rw [moves_ofFull] at moves
    exact (field_ofFull moves).symm
  induction rest generalizing front with
  | nil =>
      rw [List.append_nil] at split
      rw [split]
      rfl
  | cons object rest ih =>
      have member : object ∈ trail.moved := by simp [split]
      have fresh : object ∉ front := by
        have nodup := progress.nodup
        rw [split] at nodup
        exact fun inside =>
          (List.nodup_append.mp nodup).2.2 object inside object List.mem_cons_self rfl
      obtain ⟨-, -, moves⟩ := progress.met object member
      have copied := progress.copied ready field leaves.cells leaves.space leaves.cursor member
        (done.scanned object member)
      obtain ⟨-, -, offset⟩ := progress.copyOf_eq ready member
      refine ⟨⟨_, copied, ?_⟩, ?_⟩
      · have base : (ofFull contract world words).base = 0 := rfl
        rw [offset, copyOffset, base, Nat.zero_add, split, offsetIn_append_cons fresh]
      · have further := ih (show trail.moved = (front ++ [object]) ++ rest by simp [split])
        have single : extent (ofFull contract world words).size [object]
            = contract.layout.size (world.heap.regions.field object) := by
          rw [field object moves]
          simp [extent, Pass.size]
          rfl
        rwa [extent_append, single] at further

/-- A full collection keeps what can be reached and nothing else. -/
theorem compacts_ofFull (collectable : world.Collectable contract)
    (ready : (ofFull contract world words).Ready) (same : roots = contract.roots world.host)
    (tables : world.heap.SameTables traced.heap)
    (numbered : final.heap.collections = world.heap.collections + 1)
    : World.Compacts contract ((ofFull contract world words).relocated trail) world final := by
  have progress := done.standing.moment.progress
  have leaves := leaves_ofFull keeps heap progress ready
  have regular := collectable.regular
  refine ⟨relocates_ofFull done settled filled sweeps keeps heap collectable ready same tables,
    ⟨trail.moved, progress.nodup, fun object => ⟨fun moved => ?_, fun reached => ?_⟩, ?_⟩,
    fun addr valid fixed => relocated_forgotten ready valid fixed,
    fun addr valid reached fixed => kept_ofFull done settled filled sweeps heap collectable ready
      valid reached fixed, fun begin occupant => ?_, ?_, fun offset above => ?_, numbered⟩
  · obtain ⟨valid, traced', moves⟩ := progress.met object moved
    rw [moves_ofFull] at moves
    exact ⟨valid, traced_ofFull.mp traced', regular.apart.ne_fixed moves⟩
  · obtain ⟨valid, there, notFixed⟩ := reached
    refine (settled _ there object (Value.address?_toValue valid)).1 ?_
    rw [moves_ofFull]
    exact (collectable.coherent.object object valid there notFixed).1
  · have packs := packs_ofFull done keeps heap ready
      (show trail.moved = [] ++ trail.moved from rfl)
    have cursor : traced.heap.regions.destination.cursor
        = 0 + extent (ofFull contract world words).size trail.moved := progress.cursor
    rw [leaves.cursor, cursor, Nat.zero_add]
    exact packs
  · rw [fixed_ofFull heap, ← marked_iff_survives progress settled,
      ← occupant?_sweptFull progress sweeps regular]
    rfl
  · rw [leaves.space, ready.space_of_full full_ofFull]
    rfl
  · rw [leaves.birth]
    exact progress.unused offset above

omit settled filled sweeps keeps in
/-- A full collection leaves room to promote the whole birth region. -/
theorem room_ofFull (ready : (ofFull contract world words).Ready) {mapper : Mapper}
    (mapped : mapper.map? (Collector.targetWords world.heap) = some words)
    (collects : world.Collects final)
    : final.heap.regions.birth.capacity ≤ final.heap.regions.old.free := by
  have progress := done.standing.moment.progress
  obtain ⟨zeroed, -⟩ := Mapper.size_of_map? mapped
  have bound : extent (ofFull contract world words).size trail.moved
      ≤ world.heap.regions.birth.cursor + world.heap.regions.old.cursor :=
    ready.extent_le progress.nodup progress.met
  have cursor : traced.heap.regions.destination.cursor
      = 0 + extent (ofFull contract world words).size trail.moved := progress.cursor
  have size : traced.heap.regions.destination.words.size = words.size :=
    progress.evolves.destinationSize
  have target : words.size = Collector.targetWords world.heap := by
    rw [zeroed]
    rfl
  rw [collects.capacity, old_ofFull heap, Semispace.free, Semispace.capacity, size, target, cursor,
    Collector.targetWords]
  omega

omit settled keeps in
/-- No fixed object refers to the birth region after a full collection. -/
theorem fixed_not_birth_ofFull (collectable : world.Collectable contract)
    (ready : (ofFull contract world words).Ready) {start index : Nat} {occupant : Occupant δ}
    (found : final.heap.regions.fixed.occupant? start = some occupant)
    (inside : index < occupant.words)
    : (Value.mk (final.heap.regions.cell .fixed (start + index))).isBirth = false := by
  have progress := done.standing.moment.progress
  rw [fixed_ofFull heap] at found
  obtain ⟨former, marked⟩ := (occupant?_sweptFull progress sweeps collectable.regular).mp found
  have covers := (sweeps.consistent.payload found).2 index inside
  obtain ⟨became, holds⟩ := filled start marked occupant former index inside
  have word : swept.arena.get (start + index) = _ := (sweeps.kept _ _ covers).trans holds
  rw [cell_fixed_ofFull heap, word]
  exact isBirth_relocated ready progress became

/-- What a full collection leaves is in order and has room to promote the whole birth region. -/
theorem sound_ofFull (orderly : world.Orderly contract) (collectable : world.Collectable contract)
    (ready : (ofFull contract world words).Ready) {mapper : Mapper}
    (mapped : mapper.map? (Collector.targetWords world.heap) = some words)
    (same : roots = contract.roots world.host) (tables : world.heap.SameTables traced.heap)
    (collects : world.Collects final)
    : final.Sound contract := by
  have progress := done.standing.moment.progress
  have leaves := leaves_ofFull keeps heap progress ready
  have coherent := collectable.coherent
  have relocates :=
    relocates_ofFull done settled filled sweeps keeps heap collectable ready same tables
  have met : ∀ {value}, world.Reached contract value → world.Met contract [] value :=
    fun reached => reached.mono fun _ => .rooted
  have heads := fun addr valid reached => orderly.wellFormed.heads addr valid (met reached)
  have copies := fun object (moved : object ∈ trail.moved) => copy_afterwards ready progress
    opens_ofFull relocates coherent heads (fun _ => traced_ofFull.mp) leaves moved
  have cursor : traced.heap.regions.destination.cursor
      = 0 + extent (ofFull contract world words).size trail.moved := progress.cursor
  have tiles : final.heap.regions.Tiles contract.layout
      (trail.moved.map ((ofFull contract world words).copyOffset trail)) 0
      final.heap.regions.old.cursor := by
    have behind := tiles_copies progress.nodup (show trail.moved = [] ++ trail.moved from rfl)
      fun object moved => ⟨(copies object moved).1, (copies object moved).2.1⟩
    rw [leaves.cursor, cursor]
    exact behind
  refine ⟨relocates.orderly coherent heads (fun _ => id) collects ?_ tiles ?_ ?_,
    room_ofFull done heap ready mapped collects⟩
  · rw [fixed_ofFull heap]
    rfl
  · intro object copy valid reached notFixed copied
    have moves : (ofFull contract world words).moves object.space := by
      rw [moves_ofFull]
      exact (coherent.object object valid reached notFixed).1
    have moved := (settled _ reached object (Value.address?_toValue valid)).1 moves
    rw [eq_image ready progress valid notFixed (settled _ reached) copied, image, if_pos moves,
      (progress.copyOf_eq ready moved).2.2]
    exact List.mem_map_of_mem moved
  · intro there offset slot
    cases slot with
    | @old others start index tiles' inside slot =>
        rw [tiles'.unique tiles] at inside
        obtain ⟨object, moved, rfl⟩ := List.mem_map.mp inside
        exact (copies object moved).2.2 index slot
    | @fixed start index occupant found inside =>
        exact fixed_not_birth_ofFull done filled sweeps heap collectable ready found inside

end After

end Full

end Pass

-----------------------------------------------------------------------------------------
-- Full collections
-----------------------------------------------------------------------------------------

namespace World

/-- A heap in order can be collected. -/
theorem Orderly.collectable {contract : Contract σ} {world : World σ δ}
    (orderly : world.Orderly contract)
    : world.Collectable contract where
  regular := orderly.regular
  upholds := orderly.wellFormed.upholds
  coherent := orderly.wellFormed.coherent.mono fun _ reached => reached.mono fun _ => .rooted

/-- A full collection has come to its end: what it traced, what its sweep left and the world then. -/
structure Completes (contract : Contract σ) (world : World σ δ) (words : Arena) (trail : Trail)
    (traced : World σ δ) (swept : FixedSpace δ) (final : World σ δ)
    : Prop where
  ready : (Pass.ofFull contract world words).Ready
  granted
    : ∃ mapper : Mapper, mapper.map? (Collector.targetWords world.heap) = some words
  done
    : (Pass.ofFull contract world words).Done world.heap (contract.roots world.host) trail traced
  settled
    : ∀ value,
        world.Reached contract value → (Pass.ofFull contract world words).Settled trail value
  filled
    : ∀ begin ∈ trail.marked,
        (Pass.ofFull contract world words).Filled trail traced.heap.regions begin
  tables : world.heap.SameTables traced.heap
  sweeps : traced.heap.regions.fixed.Sweeps swept
  keeps : contract.Keeps traced.host final.host
  heap : final.heap = Collector.fullEnd traced.heap swept final.heap.counters

/-- A full collection of a collectable heap comes to its end unless memory for the survivors is refused.
What else is known of its tracing is known of what it traced.
-/
theorem Collectable.full_completes {contract : Contract σ} {world : World σ δ}
    (collectable : world.Collectable contract) (addressable : world.Addressable)
    {host : Host σ δ} (faithful : host.Faithful contract) (reason : Reason)
    {known : Arena → World σ δ → Prop}
    (also
      : ∀ words,
          host.mapper.map? (Collector.targetWords world.heap) = some words →
          ∀ log,
            Ends
              (Collector.traceFull host (Collector.fullTarget world.heap words)
                world.heap.regions.fixed.slots.length)
              { heap := Collector.fullStart world.heap words
                host := (host.beforeFull world.host).host
                log }
              fun _ traced => known words traced)
    : Runs (Collector.full host reason) world
        (fun _ final =>
          ∃ words trail traced swept,
            known words traced ∧ world.Completes contract words trail traced swept final)
        fun violation _ =>
          host.mapper.map? (Collector.targetWords world.heap) = none
          ∧ violation = .regionMap (Collector.targetWords world.heap * wordBytes) := by
  refine Collector.runs_full (fun words mapped log => ?_) fun refused _ _ => ⟨refused, rfl⟩
  have ready := Pass.ready_ofFull collectable addressable mapped
  refine Runs.mono ((Pass.traceFull_done collectable addressable mapped faithful.toTraces log).and
    (also words mapped log)) ?_ fun _ _ never => never.1.elim
  intro _ traced reached
  obtain ⟨⟨trail, done, settled, filled, tables⟩, knows⟩ := reached
  have progress := done.standing.moment.progress
  have consistent : traced.heap.regions.fixed.Consistent :=
    progress.evolves.consistent collectable.regular.consistent
  obtain ⟨swept, sweep, sweeps, kept⟩ := consistent.sweep host.destroy traced.host
  have upholds : contract.Upholds traced.host := done.standing.moment.upholds
  have keeps : contract.Keeps traced.host swept.host :=
    kept (contract.Keeps traced.host)
      (fun destructor payload words state held => by
        obtain ⟨still, same⟩ := faithful.destroy destructor payload words state held.1
        exact ⟨still, same.trans held.2⟩)
      ⟨upholds, rfl⟩
  rw [sweep]
  intro final host' heap
  have after : contract.Keeps traced.host final.host := by
    obtain ⟨still, same⟩ := faithful.afterFull swept.host keeps.1
    rw [host']
    exact ⟨still, same.trans keeps.2⟩
  exact ⟨words, trail, traced, swept.space, knows, ready, ⟨host.mapper, mapped⟩, done, settled, filled,
    tables, sweeps, after, heap⟩

/-- A full collection of a collectable heap ends unless memory for the survivors is refused; it keeps
what can be reached and nothing else, and the heap is sound again if it was in order.
-/
theorem Collectable.full {contract : Contract σ} {world : World σ δ}
    (collectable : world.Collectable contract) (addressable : world.Addressable)
    {host : Host σ δ} (faithful : host.Faithful contract) (reason : Reason)
    : Runs (Collector.full host reason) world
        (fun _ final =>
          world.Collects final
          ∧ (world.Orderly contract → final.Sound contract)
          ∧ ∃ move, World.Compacts contract move world final)
        fun violation _ =>
          host.mapper.map? (Collector.targetWords world.heap) = none
          ∧ violation = .regionMap (Collector.targetWords world.heap * wordBytes) := by
  have completes := collectable.full_completes addressable faithful reason
    fun words mapped log => Ends.mono
      (Pass.traceFull_done collectable addressable mapped faithful.toTraces log)
      fun _ _ _ => trivial
  refine Runs.mono (((Collector.collects_full host reason collectable.regular).and
    (Collector.numbered_full host reason world)).and completes) ?_ fun _ _ stopped => stopped.2
  rintro _ final ⟨⟨collects, numbered⟩, words, trail, traced, swept, -, full⟩
  obtain ⟨_, mapped⟩ := full.granted
  exact ⟨collects, fun orderly => Pass.sound_ofFull full.done full.settled full.filled full.sweeps
      full.keeps full.heap orderly collectable full.ready mapped rfl full.tables collects,
    _, Pass.compacts_ofFull full.done full.settled full.filled full.sweeps full.keeps full.heap
      collectable full.ready rfl full.tables numbered⟩

end World

end MovingHeap
