import MovingHeap.Proofs.MutatorSteps

/-! Everything that can be asked of a heap, in any order and with any host.
Whatever was asked, a heap on which no collection runs is steady: a host that breaks its promises can
stop a collection in the middle, which then never ends, but it cannot put the heap out of order.
-/

namespace MovingHeap

variable {σ δ α β : Type}

-----------------------------------------------------------------------------------------
-- Operations and runs
-----------------------------------------------------------------------------------------

/-- What can be asked of a heap. Storing and then recording the slot counts as one operation, too. -/
inductive Operation (δ : Type) where
  | allocate (size : Nat)
  | allocateAligned (size align : Nat)
  | allocateFixed (size : Nat) (destructor : Option δ) (executable : Bool)
  | forgetFixed (object : Address)
  | requestFull (reason : Reason)
  | load (addr : Address)
  | store (addr : Address) (word : Word)
  | notifyStore (slot : Address)
  | storeNotified (slot : Address) (value : Value)
  | write (slot : Address) (value : Value)
  | enterFrame (descriptor : FrameDescriptor) (params : List Value)
  | exitFrame (id : FrameId)
  | frameDescriptor (id : FrameId)
  | frameSlot (id : FrameId) (kind : SlotKind) (index : Nat)
  | setFrameSlot (id : FrameId) (kind : SlotKind) (index : Nat) (value : Value)
  | openBlock
  | closeBlock (block : World.Block) (result : Except Thrown Unit)
  | throwException (code : Int) (payload : Value)
  | loadModule (loader : Loader) (name searchPath : String) (wanted : Option Nat)
  | unloadModule (rank : Nat)
  | setModuleConstant (rank : Nat) (value : Value)
  | setModuleExtra (rank extra : Nat)
  | setConstant (index : Nat) (value : Value)
  | collect (size : Nat) (wantsFull : Bool)
  | collectMinor
  | collectFull

/-- What an operation does; its answer does not matter here. -/
def Operation.run (host : Host σ δ) : Operation δ → Action (World σ δ) Unit
  | .allocate size => (fun _ => ()) <$> World.allocate host size
  | .allocateAligned size align => (fun _ => ()) <$> World.allocateAligned host size align
  | .allocateFixed size destructor executable =>
      (fun _ => ()) <$> World.allocateFixed size destructor executable
  | .forgetFixed object => World.forgetFixed object
  | .requestFull reason => World.requestFull reason
  | .load addr => (fun _ => ()) <$> World.load addr
  | .store addr word => World.store addr word
  | .notifyStore slot => World.notifyStore host slot
  | .storeNotified slot value => do
      World.store slot value.raw
      World.notifyStore host slot
  | .write slot value => World.write host slot value
  | .enterFrame descriptor params => (fun _ => ()) <$> World.enterFrame descriptor params
  | .exitFrame id => World.exitFrame id
  | .frameDescriptor id => (fun _ => ()) <$> World.frameDescriptor id
  | .frameSlot id kind index => (fun _ => ()) <$> World.frameSlot id kind index
  | .setFrameSlot id kind index value => World.setFrameSlot id kind index value
  | .openBlock => (fun _ => ()) <$> World.openBlock
  | .closeBlock block result => (fun _ => ()) <$> World.closeBlock block result
  | .throwException code payload => (fun _ => ()) <$> World.throwException code payload
  | .loadModule loader name searchPath wanted =>
      (fun _ => ()) <$> World.loadModule loader name searchPath wanted
  | .unloadModule rank => (fun _ => ()) <$> World.unloadModule rank
  | .setModuleConstant rank value => (fun _ => ()) <$> World.setModuleConstant rank value
  | .setModuleExtra rank extra => (fun _ => ()) <$> World.setModuleExtra rank extra
  | .setConstant index value => World.setConstant index value
  | .collect size wantsFull => World.collect host size wantsFull
  | .collectMinor => World.collectMinor host
  | .collectFull => World.collectFull host

-----------------------------------------------------------------------------------------
-- Memory at rest
-----------------------------------------------------------------------------------------

namespace Regions

/-- Memory at rest is still at rest where words were written. -/
theorem Resting.evolves {before after : Regions δ} (resting : before.Resting)
    (evolves : before.Evolves after)
    : after.Resting := by
  have minor : before.isFull = false := by simp [Regions.isFull, resting.target]
  have isFull : after.target.isSome = false := evolves.isFull.trans minor
  have gone : after.target = none := by simpa using isFull
  obtain ⟨slots, unscanned⟩ := evolves.unmarked minor
  have cursor := evolves.birthCursor
  have bufferStart := evolves.bufferStart
  have capacity : after.birth.capacity = before.birth.capacity := evolves.birthSize
  have old : after.old.capacity = before.old.capacity := evolves.oldSize
  have inside := evolves.inside
  simp only [Regions.destination, gone, resting.target, Option.getD_none] at inside
  refine ⟨evolves.apart resting.apart, gone, unscanned.trans resting.unscanned, ?_, ?_, ?_, ?_, ?_,
    inside resting.oldInside, ?_, evolves.consistent resting.consistent, ?_⟩
  · rw [cursor, bufferStart]
    exact resting.slack
  · rw [bufferStart, capacity]
    exact resting.birthInside
  · rw [capacity]
    exact resting.birthSmall
  · rw [evolves.margin]
    exact resting.leastMargin
  · rw [evolves.margin, capacity]
    exact resting.margin
  · rw [old]
    exact resting.oldSmall
  · intro slot member
    rw [slots] at member
    exact resting.noneMarked slot member

/-- Memory at rest is still at rest where the ends of the birth region moved and have not met. -/
theorem Resting.birth {regions : Regions δ} (resting : regions.Resting) {birth : BirthRegion}
    (capacity : birth.capacity = regions.birth.capacity)
    (margin : birth.margin = regions.birth.margin)
    (slack : birth.cursor + storeBufferSlack ≤ birth.bufferStart)
    (inside : birth.bufferStart ≤ birth.capacity)
    : { regions with birth }.Resting where
  apart := ⟨resting.apart.old, resting.apart.target⟩
  target := resting.target
  unscanned := resting.unscanned
  slack := slack
  birthInside := inside
  birthSmall := by
    rw [capacity]
    exact resting.birthSmall
  leastMargin := by
    rw [margin]
    exact resting.leastMargin
  margin := by
    rw [margin, capacity]
    exact resting.margin
  oldInside := resting.oldInside
  oldSmall := resting.oldSmall
  consistent := resting.consistent
  noneMarked := resting.noneMarked

/-- Memory at rest is still at rest where the fixed space changed and nothing is marked in it. -/
theorem Resting.fixed {regions : Regions δ} (resting : regions.Resting) {fixed : FixedSpace δ}
    (consistent : fixed.Consistent) (noneMarked : fixed.NoneMarked)
    : { regions with fixed }.Resting where
  apart := ⟨resting.apart.old, resting.apart.target⟩
  target := resting.target
  unscanned := resting.unscanned
  slack := resting.slack
  birthInside := resting.birthInside
  birthSmall := resting.birthSmall
  leastMargin := resting.leastMargin
  margin := resting.margin
  oldInside := resting.oldInside
  oldSmall := resting.oldSmall
  consistent := consistent
  noneMarked := noneMarked

end Regions

/-- Where words fit with their padding, the margin stays free. -/
theorem BirthRegion.margin_of_fits {birth : BirthRegion} {words stride : Nat}
    (fits : birth.fits (words + (stride - 1)))
    : birth.cursor + (birth.padding? stride).getD 0 + words + birth.margin ≤ birth.bufferStart := by
  have room : birth.cursor + (words + (stride - 1)) + birth.margin ≤ birth.bufferStart := by
    simpa [BirthRegion.fits] using fits
  have padding : (birth.padding? stride).getD 0 ≤ stride - 1 := by
    unfold BirthRegion.padding?
    split_ifs with zero
    · exact Nat.zero_le _
    · rw [Option.getD_some]
      have below := Nat.mod_lt (stride - birth.cursor % stride) (Nat.pos_of_ne_zero zero)
      omega
  omega

-----------------------------------------------------------------------------------------
-- Runs
-----------------------------------------------------------------------------------------

namespace World

/-- The world as an action leaves it, whether or not a violation stopped it. -/
def after (action : Action (World σ δ) α) (world : World σ δ) : World σ δ :=
  match action world with
  | .ok _ final => final
  | .error _ final => final

/-- What holds wherever an action ends or is stopped holds of the world it leaves. -/
theorem after_of_runs {action : Action (World σ δ) α} {world : World σ δ}
    {holds : World σ δ → Prop}
    (runs : Runs action world (fun _ final => holds final) fun _ final => holds final)
    : holds (world.after action) := by
  unfold after
  cases run : action world with
  | ok result final => exact runs.of_ok run
  | error violation final => exact runs.of_error run

/-- The worlds that any operations lead to, each with callbacks of its own, and any changes that the
host makes to its own state in between.
-/
inductive Reachable : World σ δ → Prop where
  | create {mapper : Mapper} {config : Config} {state : σ} {world : World σ δ}
      (created : World.create mapper config state = .ok world)
      : Reachable world
  | operate {world : World σ δ} (host : Host σ δ) (operation : Operation δ)
      (reachable : Reachable world)
      : Reachable (world.after (operation.run host))
  | change {world : World σ δ} (state : σ) (reachable : Reachable world)
      : Reachable { world with host := state }

-----------------------------------------------------------------------------------------
-- What lasts
-----------------------------------------------------------------------------------------

/-- What lasts from one moment to a later one, if no collection runs then: none ran before, a steady
heap is still steady, and the fixed space has not become smaller.
-/
structure Lasts (before after : World σ δ) : Prop where
  idle : after.heap.phase = .idle → before.heap.phase = .idle
  steady : after.heap.phase = .idle → before.heap.Steady → after.heap.Steady
  arena
    : after.heap.phase = .idle →
        before.heap.Steady →
        before.heap.regions.fixed.arena.size ≤ after.heap.regions.fixed.arena.size

/-- What lasts twice lasts. -/
theorem Lasts.trans {before middle after : World σ δ} (first : before.Lasts middle)
    (second : middle.Lasts after)
    : before.Lasts after where
  idle := first.idle ∘ second.idle
  steady rests steady := second.steady rests (first.steady (second.idle rests) steady)
  arena rests steady :=
    have former := second.idle rests
    (first.arena former steady).trans (second.arena rests (first.steady former steady))

/-- Where the heap is the same, everything lasts. -/
theorem Lasts.of_heap {before after : World σ δ} (same : after.heap = before.heap)
    : before.Lasts after := by
  refine ⟨?_, ?_, ?_⟩ <;> rw [same]
  · exact id
  · exact fun _ => id
  · exact fun _ _ => Nat.le_refl _

/-- Where the heap is the same or a collection runs, everything lasts. -/
theorem Lasts.of_stays {before after : World σ δ}
    (stays : after.heap.phase = .idle → after.heap = before.heap)
    : before.Lasts after where
  idle idle := by rwa [← stays idle]
  steady idle steady := by rwa [stays idle]
  arena idle _ := by rw [stays idle]

/-- Where memory is the same and the tables are in order, everything lasts. -/
theorem Lasts.of_tables {before after : World σ δ} (phase : after.heap.phase = before.heap.phase)
    (same : after.heap.regions = before.heap.regions)
    (ordered : before.heap.Ordered → after.heap.Ordered)
    : before.Lasts after := by
  refine ⟨by rw [phase]; exact id, fun _ steady => ?_, fun _ _ => by rw [same]⟩
  have resting := steady.toResting
  have spare := steady.spare
  rw [← same] at resting spare
  exact ⟨⟨resting, ordered steady.toOrdered⟩, spare⟩

/-- Where the tables are the same and memory is at rest, everything lasts. -/
theorem Lasts.of_memory {before after : World σ δ} (phase : after.heap.phase = before.heap.phase)
    (ordered : before.heap.Ordered → after.heap.Ordered)
    (memory
      : before.heap.Steady →
          after.heap.regions.Resting
          ∧ after.heap.regions.birth.cursor + storeBufferSlack
            < after.heap.regions.birth.bufferStart
          ∧ before.heap.regions.fixed.arena.size ≤ after.heap.regions.fixed.arena.size)
    : before.Lasts after := by
  refine ⟨by rw [phase]; exact id, fun _ steady => ?_, fun _ steady => (memory steady).2.2⟩
  obtain ⟨resting, spare, -⟩ := memory steady
  exact ⟨⟨resting, ordered steady.toOrdered⟩, spare⟩

/-- Everything lasts wherever the action ends or is stopped. -/
def Lasting (action : Action (World σ δ) α) : Prop :=
  ∀ world,
    Runs action world (fun _ final => world.Lasts final) fun _ final => world.Lasts final

namespace Lasting

theorem pure (result : α) : Lasting (σ := σ) (δ := δ) (Pure.pure result) :=
  fun _ => .of_heap rfl

theorem stop (violation : Violation) : Lasting (σ := σ) (δ := δ) (α := α) (World.stop violation) :=
  fun _ => World.runs_stop.mpr (.of_heap rfl)

theorem bind {action : Action (World σ δ) α} {next : α → Action (World σ δ) β}
    (first : Lasting action) (second : ∀ result, Lasting (next result))
    : Lasting (action >>= next) := by
  intro world
  rw [runs_bind]
  refine (first world).mono (fun result middle lasts => ?_) fun _ _ => id
  exact (second result middle).mono (fun _ _ => lasts.trans) fun _ _ => lasts.trans

theorem map {action : Action (World σ δ) α} (lasting : Lasting action) (change : α → β)
    : Lasting (change <$> action) := by
  intro world
  rw [runs_map]
  exact lasting world

theorem heapNow_bind {next : Heap δ → Action (World σ δ) α} (lasting : ∀ heap, Lasting (next heap))
    : Lasting (World.heapNow >>= next) := by
  intro world
  rw [runs_bind, runs_heapNow]
  exact lasting world.heap world

theorem require (found : Option α) (violation : Violation)
    : Lasting (σ := σ) (δ := δ) (World.require found violation) := by
  intro world
  rw [runs_require]
  cases found <;> exact .of_heap rfl

theorem check (result : Except Violation α) : Lasting (σ := σ) (δ := δ) (World.check result) := by
  intro world
  rw [runs_check]
  cases result <;> exact .of_heap rfl

end Lasting

/-- Handing out words that fit lasts. -/
theorem lasts_reserved {world : World σ δ} {words stride : Nat}
    (fits : world.heap.regions.birth.fits (words + (stride - 1)))
    : world.Lasts (world.reserved words stride) := by
  refine .of_memory rfl (fun ordered => ⟨ordered.entered, ordered.numbered, ordered.ranks,
    ordered.groups, ordered.grouped⟩) fun steady => ?_
  have room := BirthRegion.margin_of_fits fits
  have least := steady.leastMargin
  have spare : (world.reserved words stride).heap.regions.birth.cursor + storeBufferSlack
      < (world.reserved words stride).heap.regions.birth.bufferStart := by
    simp only [reserved, BirthRegion.bump, storeBufferSlack, minSafetyMargin] at room least ⊢
    omega
  exact ⟨steady.toResting.birth rfl rfl (Nat.le_of_lt spare) steady.birthInside, spare,
    Nat.le_refl _⟩

-----------------------------------------------------------------------------------------
-- Operations that may collect
-----------------------------------------------------------------------------------------

/-- A collection that comes to its end lasts. -/
theorem lasts_of_collects {before after : World σ δ} (idle : before.heap.phase = .idle)
    (collects : before.heap.Steady → before.Collects after)
    : before.Lasts after :=
  ⟨fun _ => idle, fun _ steady => (collects steady).steady,
    fun _ steady => Nat.le_of_eq (collects steady).arena.symm⟩

/-- Nothing is collected while a collection runs. -/
theorem idle_of_collectFor (host : Host σ δ) (words : Nat) (wantsFull : Bool) (reason : Reason)
    (world : World σ δ)
    : Runs (Collector.collectFor host words wantsFull reason) world
        (fun _ _ => world.heap.phase = .idle)
        fun _ final => final.heap.phase = .idle → world.heap.phase = .idle := by
  have trivially : ∀ {action : Action (World σ δ) Unit} {middle : World σ δ}
      {ended : Unit → World σ δ → Prop} {stopped : Violation → World σ δ → Prop},
      (∀ result final, ended result final) → (∀ violation final, stopped violation final) →
      Runs action middle ended stopped := by
    intro action middle ended stopped ends stops
    unfold Runs
    cases action middle with
    | ok result final => exact ends result final
    | error violation final => exact stops violation final
  refine Collector.runs_collectFor (fun _ _ => id) (fun _ _ => id) (fun idle _ _ => ?_)
    fun idle _ => ?_
  · exact trivially (fun _ _ => idle) fun _ _ _ => idle
  · refine trivially (fun _ middle => ?_) fun _ _ _ => idle
    split_ifs
    · exact trivially (fun _ _ => idle) fun _ _ _ => idle
    · exact idle

/-- Collecting on demand lasts, as does what is done with the room that it makes. -/
theorem lasts_collectFor (host : Host σ δ) (words : Nat) (wantsFull : Bool) (reason : Reason)
    (world : World σ δ)
    : Runs (Collector.collectFor host words wantsFull reason) world
        (fun _ final =>
          world.Lasts final ∧ (world.heap.Steady → world.Collects final))
        fun _ final => world.Lasts final := by
  by_cases steady : world.heap.Steady
  · refine (Collector.collects_collectFor host words wantsFull reason steady.toRegular).mono ?_ ?_
    · intro _ final reached
      obtain ⟨idle, collects⟩ := reached
      exact ⟨lasts_of_collects idle fun _ => collects, fun _ => collects⟩
    · exact fun _ final stays => .of_stays fun idle => (stays idle).2
  · refine (idle_of_collectFor host words wantsFull reason world).mono ?_ ?_
    · intro _ final idle
      exact ⟨lasts_of_collects idle fun held => absurd held steady, fun held => absurd held steady⟩
    · intro _ final stays
      exact ⟨stays, fun _ held => absurd held steady, fun _ held => absurd held steady⟩

theorem lasting_collectFor (host : Host σ δ) (words : Nat) (wantsFull : Bool) (reason : Reason)
    : Lasting (Collector.collectFor host words wantsFull reason) :=
  fun world => (lasts_collectFor host words wantsFull reason world).mono (fun _ _ => And.left)
    fun _ _ => id

/-- Memory that was just collected has room for all that ever fits. -/
theorem fits_of_collects {before after : World σ δ} (collects : before.Collects after)
    (regular : before.heap.Regular) {words : Nat}
    (small : words ≤ before.heap.regions.birth.maxObjectWords)
    : after.heap.regions.birth.fits words := by
  have margin := regular.margin
  simp only [BirthRegion.maxObjectWords] at small
  rw [BirthRegion.fits, collects.empty, collects.unrecorded, collects.capacity, collects.margin,
    decide_eq_true_eq]
  omega

/-- Handing out memory lasts. -/
theorem lasting_reserve (host : Host σ δ) (size stride : Nat)
    : Lasting (World.reserve host size stride) := by
  intro world
  refine runs_reserve (fun _ => .of_heap rfl) lasts_reserved fun wantsFull reason small => ?_
  refine (lasts_collectFor host _ wantsFull reason world).mono (fun _ middle reached => ?_)
    fun _ _ => id
  obtain ⟨lasts, collects⟩ := reached
  by_cases steady : world.heap.Steady
  · exact lasts.trans (lasts_reserved (fits_of_collects (collects steady) steady.toRegular small))
  · exact ⟨lasts.idle, fun _ held => absurd held steady, fun _ held => absurd held steady⟩

end World

end MovingHeap
