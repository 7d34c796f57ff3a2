import MovingHeap.Proofs.Guarantees
import MovingHeap.Proofs.IdempotentForwarding
import MovingHeap.Proofs.PassageInvariants
import MovingHeap.Proofs.Strides
import MovingHeap.Proofs.WordEncoding

/-! How far the regions of a heap extend, in every run and in the middle of every collection.
What could be mapped can be told by addresses, and cursors keep within what was mapped, also where a
collection was stopped; so whatever a heap makes an address of is read back from it.
-/

namespace MovingHeap

variable {σ δ α β : Type}

namespace Regions

-----------------------------------------------------------------------------------------
-- Extents
-----------------------------------------------------------------------------------------

/-- Cursors and recorded slots keep within their regions, and no region is larger than offsets can tell. -/
structure Tellable (regions : Regions δ) : Prop where
  birth : regions.birth.cursor ≤ regions.birth.capacity
  recorded : regions.birth.bufferStart ≤ regions.birth.capacity
  margin : regions.birth.margin ≤ regions.birth.capacity
  birthSmall : regions.birth.capacity ≤ maxOffsetWords
  old : regions.old.cursor ≤ regions.old.capacity
  oldSmall : regions.old.capacity ≤ maxOffsetWords
  destination : regions.destination.cursor ≤ regions.destination.capacity
  destinationSmall : regions.destination.capacity ≤ maxOffsetWords

/-- What a heap makes addresses of: places in the birth region, in the old semispace and in the target of a
full collection, and the ends of these.
-/
inductive Places (regions : Regions δ) : Space → Nat → Prop where
  | birth {offset : Nat} (within : offset ≤ regions.birth.capacity) : Places regions .birth offset
  | old {offset : Nat} (within : offset ≤ regions.old.capacity)
      : Places regions regions.old.space offset
  | target {region : Semispace} {offset : Nat} (opened : regions.target = some region)
      (within : offset ≤ region.capacity)
      : Places regions region.space offset

variable {regions before now : Regions δ} {space : Space} {offset : Nat}

/-- Whatever a heap makes an address of fits it. -/
theorem Tellable.small (tellable : regions.Tellable) (place : regions.Places space offset)
    : offset ≤ maxOffsetWords := by
  cases place with
  | birth within => exact within.trans tellable.birthSmall
  | old within => exact within.trans tellable.oldSmall
  | target opened within =>
      have small := tellable.destinationSmall
      rw [Regions.destination, opened, Option.getD_some] at small
      exact within.trans small

/-- The extents are kept, and what a heap makes an address of is read back from it. -/
structure Told (regions : Regions δ) : Prop extends regions.Tellable where
  packs : ∀ space offset, regions.Places space offset → Address.Packs space offset

theorem Tellable.told (tellable : regions.Tellable) : regions.Told :=
  ⟨tellable, fun space _ place => Address.packs space (tellable.small place)⟩

/-- Memory at rest can be told by addresses. -/
theorem Resting.tellable (resting : regions.Resting) : regions.Tellable := by
  have slack := resting.slack
  have inside := resting.birthInside
  have margin := resting.margin
  have same : regions.destination = regions.old := by rw [Regions.destination, resting.target]; rfl
  refine ⟨by omega, inside, by omega, resting.birthSmall, resting.oldInside, resting.oldSmall, ?_, ?_⟩
  · rw [same]
    exact resting.oldInside
  · rw [same]
    exact resting.oldSmall

/-- Evolution keeps the extents. -/
theorem Evolves.tellable (evolves : before.Evolves now) (tellable : before.Tellable)
    : now.Tellable := by
  have birthSize : now.birth.capacity = before.birth.capacity := evolves.birthSize
  have oldSize : now.old.capacity = before.old.capacity := evolves.oldSize
  have size : now.destination.capacity = before.destination.capacity := evolves.destinationSize
  refine ⟨?_, ?_, ?_, ?_, ?_, ?_, evolves.inside tellable.destination, ?_⟩
  · rw [evolves.birthCursor, birthSize]
    exact tellable.birth
  · rw [evolves.bufferStart, birthSize]
    exact tellable.recorded
  · rw [evolves.margin, birthSize]
    exact tellable.margin
  · rw [birthSize]
    exact tellable.birthSmall
  · cases full : before.isFull with
    | true =>
        rw [evolves.oldCursor full, oldSize]
        exact tellable.old
    | false =>
        have target : now.target = none := by simpa [Regions.isFull] using evolves.isFull.trans full
        have same : now.destination = now.old := by rw [Regions.destination, target]; rfl
        rw [← same]
        exact evolves.inside tellable.destination
  · rw [oldSize]
    exact tellable.oldSmall
  · rw [size]
    exact tellable.destinationSmall

/-- Every step of tracing keeps the extents. -/
theorem invariant_tellable : Invariant fun regions : Regions δ => regions.Tellable where
  fill regions words := (Collector.evolves_fillTail regions words).tellable
  relocate _ _ _ _ object young _ admitted :=
    (Collector.evolves_relocated admitted object young).tellable
  mark _ _ _ _ full done := (Evolves.mark full done).tellable
  pop _ _ _ _ tellable := { tellable with }
  store _ _ _ _ done := (Evolves.setWord? done).tellable

/-- The extents are kept where the ends of the birth region move within it. -/
theorem Tellable.withBirth (tellable : regions.Tellable) {birth : BirthRegion}
    (capacity : birth.capacity = regions.birth.capacity)
    (margin : birth.margin = regions.birth.margin) (inside : birth.cursor ≤ birth.capacity)
    (recorded : birth.bufferStart ≤ birth.capacity)
    : { regions with birth }.Tellable :=
  { tellable with
    birth := inside
    recorded
    margin := by
      rw [margin, capacity]
      exact tellable.margin
    birthSmall := by
      rw [capacity]
      exact tellable.birthSmall }

/-- Recording a slot keeps the extents, even if no room is left for it. -/
theorem Tellable.remember (tellable : regions.Tellable) (slot : Address)
    : { regions with birth := regions.birth.remember slot }.Tellable :=
  tellable.withBirth rfl rfl tellable.birth ((Nat.sub_le _ _).trans tellable.recorded)

/-- Memory is handed out within the birth region. -/
theorem Tellable.reserve (tellable : regions.Tellable) {words stride : Nat}
    (fits : regions.birth.fits (words + (stride - 1)))
    : { regions with
        birth := (regions.birth.bump ((regions.birth.padding? stride).getD 0)).bump words }.Tellable := by
  have room := BirthRegion.margin_of_fits fits
  have inside := tellable.recorded
  refine tellable.withBirth rfl rfl ?_ tellable.recorded
  change regions.birth.cursor + (regions.birth.padding? stride).getD 0 + words ≤ regions.birth.capacity
  omega

/-- An empty birth region keeps the extents. -/
theorem Tellable.reset (tellable : regions.Tellable)
    : { regions with birth := regions.birth.reset }.Tellable :=
  tellable.withBirth rfl rfl (Nat.zero_le _) (Nat.le_refl _)

/-- The target of a full collection is opened over memory that could be mapped. -/
theorem Tellable.opened (tellable : regions.Tellable) {mapper : Mapper} {size : Nat} {words : Arena}
    (mapped : mapper.map? size = some words) (space : Space) (copied : Nat)
    : { regions with target := some { space, words }, copied }.Tellable := by
  obtain ⟨rfl, small⟩ := Mapper.size_of_map? mapped
  exact { tellable with destination := Nat.zero_le _, destinationSmall := small }

/-- The target takes the place of the old semispace. -/
theorem Tellable.adopted (tellable : regions.Tellable) : (Collector.adoptTarget regions).Tellable :=
  { tellable with
    old := tellable.destination
    oldSmall := tellable.destinationSmall
    destination := tellable.destination
    destinationSmall := tellable.destinationSmall }

end Regions

/-- What a collection that comes to its end makes of the birth region. -/
structure BirthRegion.Emptied (before after : BirthRegion) : Prop where
  cursor : after.cursor = 0
  bufferStart : after.bufferStart = after.capacity
  capacity : after.capacity = before.capacity
  margin : after.margin = before.margin

/-- A region that was emptied twice was emptied. -/
theorem BirthRegion.Emptied.trans {before middle after : BirthRegion}
    (first : before.Emptied middle) (second : middle.Emptied after)
    : before.Emptied after :=
  ⟨second.cursor, second.bufferStart, second.capacity.trans first.capacity,
    second.margin.trans first.margin⟩

/-- In an emptied region there is room for all that ever fits. -/
theorem BirthRegion.Emptied.fits {before after : BirthRegion} (emptied : before.Emptied after)
    {words : Nat} (positive : 0 < words) (small : words ≤ before.maxObjectWords)
    : after.fits words := by
  simp only [maxObjectWords] at small
  rw [BirthRegion.fits, emptied.cursor, emptied.bufferStart, emptied.capacity, emptied.margin,
    decide_eq_true_eq]
  omega

-----------------------------------------------------------------------------------------
-- Collections
-----------------------------------------------------------------------------------------

namespace Collector

/-- A minor collection keeps the extents wherever it ends or is stopped. -/
theorem tellable_minor (host : Host σ δ) (reason : Reason) {world : World σ δ}
    (tellable : world.heap.regions.Tellable)
    : Runs (minor host reason) world
        (fun _ final =>
          final.heap.regions.Tellable
          ∧ world.heap.regions.birth.Emptied final.heap.regions.birth)
        fun _ final => final.heap.regions.Tellable := by
  have begins : (minorStart world.heap).regions.Tellable := { tellable with }
  refine runs_minor fun log => (tends_traceMinor host _ _).mono ?_
    fun _ _ comes => comes.regions.tellable begins
  intro _ traced comes final _ ends
  rw [ends]
  exact ⟨(comes.regions.tellable begins).reset, rfl, rfl, comes.regions.birthSize,
    comes.regions.margin⟩

/-- So does a full collection, also where there is no memory for its target or the fixed space is
corrupt.
-/
theorem tellable_full (host : Host σ δ) (reason : Reason) {world : World σ δ}
    (tellable : world.heap.regions.Tellable)
    : Runs (full host reason) world
        (fun _ final =>
          final.heap.regions.Tellable
          ∧ world.heap.regions.birth.Emptied final.heap.regions.birth)
        fun _ final => final.heap.regions.Tellable := by
  apply runs_full_stops
  · intro words mapped log
    have begins : (fullStart world.heap words).regions.Tellable := tellable.opened mapped _ 0
    refine (comes_traceFull host _ _ rfl).mono (fun _ traced comes => ?_)
      fun _ _ comes => comes.regions.tellable begins
    have held := comes.regions.tellable begins
    split
    next swept _ =>
      have adopted : (adoptTarget { traced.heap.regions with fixed := swept.space }).Tellable :=
        Regions.Tellable.adopted { held with }
      intro final _ ends
      rw [ends]
      exact ⟨adopted.reset, rfl, rfl, comes.regions.birthSize, comes.regions.margin⟩
    next =>
      intro final stops
      rw [stops]
      exact held
  · intro _ final stops
    rw [stops]
    exact tellable

/-- Collecting on demand keeps the extents, whether it is refused, stopped or comes to its end. -/
theorem tellable_collectFor (host : Host σ δ) (words : Nat) (wantsFull : Bool) (reason : Reason)
    {world : World σ δ} (tellable : world.heap.regions.Tellable)
    : Runs (collectFor host words wantsFull reason) world
        (fun _ final =>
          final.heap.regions.Tellable
          ∧ world.heap.regions.birth.Emptied final.heap.regions.birth)
        fun _ final => final.heap.regions.Tellable := by
  apply runs_collectFor
  · exact fun _ _ => tellable
  · exact fun _ _ => tellable
  · exact fun _ _ reason => tellable_full host reason tellable
  · intro _ _
    refine (tellable_minor host reason tellable).mono (fun _ middle first => ?_) fun _ _ => id
    split_ifs
    · refine (tellable_full host .oldSpaceFull first.1).mono (fun _ final second => ?_) fun _ _ => id
      exact ⟨second.1, first.2.trans second.2⟩
    · exact first

end Collector

-----------------------------------------------------------------------------------------
-- Operations
-----------------------------------------------------------------------------------------

namespace World

/-- Wherever the action ends or is stopped, the extents are kept, also on a heap on which a collection was
stopped before.
-/
def Confined (action : Action (World σ δ) α) : Prop :=
  ∀ world : World σ δ,
    world.heap.regions.Tellable →
    Runs action world (fun _ final => final.heap.regions.Tellable)
      fun _ final => final.heap.regions.Tellable

namespace Confined

/-- What keeps memory keeps its extents. -/
theorem of_quiet {action : Action (World σ δ) α} (quiet : Quiet action) : Confined action := by
  intro world tellable
  have kept : ∀ final, world.SameMemory final → final.heap.regions.Tellable := by
    intro final same
    rw [same.regions]
    exact tellable
  exact (quiet world).mono (fun _ => kept) fun _ => kept

theorem map {action : Action (World σ δ) α} (confined : Confined action) (change : α → β)
    : Confined (change <$> action) :=
  fun world tellable => runs_map.mpr (confined world tellable)

/-- One action after another. -/
theorem bind {action : Action (World σ δ) α} {next : α → Action (World σ δ) β}
    (first : Confined action) (second : ∀ result, Confined (next result))
    : Confined (action >>= next) := by
  intro world tellable
  apply runs_bind.mpr
  exact (first world tellable).mono (fun result middle held => second result middle held)
    fun _ _ => id

theorem ite {condition : Prop} [Decidable condition] {yes no : Action (World σ δ) α}
    (holding : Confined yes) (failing : Confined no)
    : Confined (if condition then yes else no) := by
  split_ifs
  · exact holding
  · exact failing

end Confined

/-- What the action hands out is a place of the birth region; the extents are kept as well. -/
def HandsOut (action : Action (World σ δ) Address) : Prop :=
  ∀ world : World σ δ,
    world.heap.regions.Tellable →
    Runs action world
      (fun object final =>
        final.heap.regions.Tellable
        ∧ ∃ offset, final.heap.regions.Places .birth offset ∧ object = .pack .birth offset)
      fun _ final => final.heap.regions.Tellable

theorem HandsOut.confined {action : Action (World σ δ) Address} (handsOut : HandsOut action)
    : Confined action :=
  fun world tellable => (handsOut world tellable).mono (fun _ _ => And.left) fun _ _ => id

/-- What comes before the handing out may be any action that keeps the extents. -/
theorem HandsOut.after {action : Action (World σ δ) α} {next : α → Action (World σ δ) Address}
    (first : Confined action) (second : ∀ result, HandsOut (next result))
    : HandsOut (action >>= next) := by
  intro world tellable
  apply runs_bind.mpr
  exact (first world tellable).mono (fun result middle held => second result middle held)
    fun _ _ => id

section Operations

variable (host : Host σ δ)

theorem confined_ensureIdle : Confined (ensureIdle : Action (World σ δ) Unit) := by
  apply Confined.of_quiet
  intro world
  simp only [ensureIdle, runs_bind, runs_heapNow, runs_ite, runs_stop, runs_pure]
  split_ifs
  · exact .of_report rfl rfl rfl rfl
  · exact .of_heap rfl rfl rfl

theorem confined_collectFor (words : Nat) (wantsFull : Bool) (reason : Reason)
    : Confined (Collector.collectFor host words wantsFull reason) :=
  fun _ tellable => (Collector.tellable_collectFor host words wantsFull reason tellable).mono
    (fun _ _ => And.left) fun _ _ => id

/-- Memory is handed out at a place of the birth region, below the cursor that it leaves. -/
theorem handsOut_reserve (size stride : Nat) : HandsOut (reserve host size stride) := by
  intro world tellable
  have ends : ∀ {middle : World σ δ} {words : Nat}, middle.heap.regions.Tellable →
      middle.heap.regions.birth.fits (words + (stride - 1)) →
      (middle.reserved words stride).heap.regions.Tellable
      ∧ ∃ offset,
          (middle.reserved words stride).heap.regions.Places .birth offset
          ∧ (middle.heap.regions.birth.bump
              ((middle.heap.regions.birth.padding? stride).getD 0)).next
            = .pack .birth offset := by
    intro middle words held fits
    have room := BirthRegion.margin_of_fits fits
    have inside := held.recorded
    refine ⟨held.reserve fits, _, .birth ?_, rfl⟩
    change middle.heap.regions.birth.cursor + (middle.heap.regions.birth.padding? stride).getD 0
      ≤ middle.heap.regions.birth.capacity
    omega
  apply runs_reserve
  · exact fun _ => tellable
  · exact fun fits => ends tellable fits
  · intro wantsFull reason small
    refine (Collector.tellable_collectFor host _ wantsFull reason tellable).mono ?_ fun _ _ => id
    intro _ middle collected
    have positive : 0 < max (wordsFor size) minObjectWords + (stride - 1) := by
      simp only [minObjectWords]
      omega
    exact ends collected.1 (collected.2.fits positive small)

theorem handsOut_allocate (size : Nat) : HandsOut (allocate host size) :=
  .after confined_ensureIdle fun _ => handsOut_reserve host size 1

theorem handsOut_allocateAligned (size align : Nat) : HandsOut (allocateAligned host size align) := by
  refine .after confined_ensureIdle fun _ => ?_
  split_ifs
  · exact handsOut_reserve host size _
  · exact fun _ => id

theorem confined_store (addr : Address) (word : Word)
    : Confined (store addr word : Action (World σ δ) Unit) := by
  intro world tellable
  apply runs_store
  · exact fun _ => tellable
  · exact fun _ done => (Regions.Evolves.setWord? done).tellable tellable

theorem confined_notifyStore (slot : Address) : Confined (notifyStore host slot) := by
  intro world tellable
  apply runs_notifyStore
  · exact fun _ => tellable
  · exact fun _ _ => tellable
  · exact fun _ _ => tellable.remember slot
  · exact fun _ => confined_collectFor host 0 false _ _ (tellable.remember slot)

theorem confined_write (slot : Address) (value : Value) : Confined (write host slot value) :=
  .bind (confined_store slot value.raw) fun _ =>
    .ite (confined_notifyStore host slot) (.of_quiet (quiet_pure ()))

theorem confined_allocateFixed (size : Nat) (destructor : Option δ) (executable : Bool)
    : Confined (allocateFixed size destructor executable : Action (World σ δ) Address) := by
  refine .bind confined_ensureIdle fun _ world tellable => ?_
  have held : ∀ fixed : FixedSpace δ, { world.heap.regions with fixed }.Tellable := fun _ =>
    { tellable with }
  simp only [runs_bind, runs_heapNow, runs_modifyRegions, runs_count, runs_ite, requestFull,
    runs_modifyHeap, runs_pure]
  split_ifs
  · exact held _
  · exact held _

theorem confined_forgetFixed (object : Address)
    : Confined (forgetFixed object : Action (World σ δ) Unit) := by
  intro world tellable
  simp only [forgetFixed, runs_bind, runs_heapNow, runs_require, runs_modifyRegions]
  split
  next => exact { tellable with }
  next => exact tellable

end Operations

/-- Every operation keeps the extents, whatever its host does. -/
theorem confined_run (host : Host σ δ) (operation : Operation δ) : Confined (operation.run host) := by
  cases operation with
  | allocate size => exact (handsOut_allocate host size).confined.map _
  | allocateAligned size align => exact (handsOut_allocateAligned host size align).confined.map _
  | allocateFixed size destructor executable =>
      exact (confined_allocateFixed size destructor executable).map _
  | forgetFixed object => exact confined_forgetFixed object
  | requestFull reason => exact .of_quiet (quiet_requestFull reason)
  | load addr => exact (Confined.of_quiet (quiet_load addr)).map _
  | store addr word => exact confined_store addr word
  | notifyStore slot => exact confined_notifyStore host slot
  | storeNotified slot value =>
      exact .bind (confined_store slot value.raw) fun _ => confined_notifyStore host slot
  | write slot value => exact confined_write host slot value
  | enterFrame descriptor params =>
      exact (Confined.of_quiet (quiet_enterFrame descriptor params)).map _
  | exitFrame id => exact .of_quiet (quiet_exitFrame id)
  | frameDescriptor id =>
      exact (Confined.of_quiet (quiet_check fun heap => heap.frames.descriptor id)).map _
  | frameSlot id kind index =>
      exact (Confined.of_quiet (quiet_check fun heap => heap.frames.get id kind index)).map _
  | setFrameSlot id kind index value => exact .of_quiet (quiet_setFrameSlot id kind index value)
  | openBlock => exact (Confined.of_quiet quiet_openBlock).map _
  | closeBlock block result => exact (Confined.of_quiet (quiet_closeBlock block result)).map _
  | throwException code payload =>
      exact (Confined.of_quiet (quiet_throwException code payload)).map _
  | loadModule loader name searchPath wanted =>
      exact (Confined.of_quiet (quiet_loadModule loader name searchPath wanted)).map _
  | unloadModule rank => exact (Confined.of_quiet (quiet_unloadModule rank)).map _
  | setModuleConstant rank value =>
      exact (Confined.of_quiet
        (quiet_updateModules fun heap => heap.modules.setConstant rank value)).map _
  | setModuleExtra rank extra =>
      exact (Confined.of_quiet
        (quiet_updateModules fun heap => heap.modules.setExtra rank extra)).map _
  | setConstant index value => exact .of_quiet (quiet_setConstant index value)
  | collect size wantsFull => exact confined_collectFor host _ wantsFull _
  | collectMinor => exact confined_collectFor host 0 false _
  | collectFull => exact confined_collectFor host 0 true _

-----------------------------------------------------------------------------------------
-- Runs
-----------------------------------------------------------------------------------------

variable {world begun now : World σ δ}

/-- The extents are kept in every run, by induction over its operations: also where a collection was
stopped on the way and the heap stays locked.
-/
theorem Reachable.tellable (reachable : world.Reachable) : world.heap.regions.Tellable := by
  induction reachable with
  | create created => exact (created_of_create created).1.steady.toResting.tellable
  | @operate world host operation _ ih => exact after_of_runs (confined_run host operation world ih)
  | change state _ ih => exact ih

/-- Wherever a collection comes through, its regions keep the extents, the target included. -/
theorem tellable_passage {errand : Option Errand} (tellable : begun.heap.regions.Tellable)
    (collection : Collection) (host : Host σ δ) (reason : Reason)
    (through : (collection.passage host reason).Through begun now errand)
    : now.heap.regions.Tellable := by
  have invariant := Regions.invariant_tellable (δ := δ)
  cases collection with
  | minor =>
      have begins : (Collector.minorStart begun.heap).regions.Tellable := { tellable with }
      have keeps := Collector.keeps_passMinor invariant host.keeps_true
        (fun _ held => { held with }) begins trivial reason
      exact (keeps now errand through).1
  | full =>
      have begins : ∀ words,
          host.mapper.map? (Collector.targetWords begun.heap) = some words →
          (Collector.fullStart begun.heap words).regions.Tellable :=
        fun words mapped => tellable.opened mapped _ 0
      have keeps := Collector.keeps_passFull invariant host.keeps_true begins trivial reason
      exact (keeps now errand through).1

/-- Collections start where the extents are kept. -/
theorem Launches.tellable (launches : world.Launches begun) (tellable : world.heap.regions.Tellable)
    : begun.heap.regions.Tellable := by
  induction launches with
  | here => exact tellable
  | recorded => exact tellable.remember _
  | promoted _ ends ih => exact ((Collector.tellable_minor _ _ ih).of_ok ends).1

end World

end MovingHeap
