import MovingHeap.Proofs.Ledgers
import MovingHeap.Proofs.Strides

/-! How operations are posted.
An operation posts one change of its own at most, or it calls the collector once and may hand out memory
behind that; all others leave the ledger as it is.
-/

namespace MovingHeap

variable {σ δ α β : Type}

-----------------------------------------------------------------------------------------
-- Calls of the collector and turns
-----------------------------------------------------------------------------------------

/-- The ledger behind one call of the collector, which begins with a minor collection only if no full one
is pending.
-/
inductive Ledger.Calls (before : Ledger) : Ledger → Prop where
  | full {copied reclaimed destroyed left : Nat}
      (admits : before.Admits (.full copied reclaimed destroyed left))
      : Calls before (before.post (.full copied reclaimed destroyed left))
  | minor (unasked : before.pendingFull = none) (promoted : Nat)
      : Calls before (before.post (.minor promoted))
  | both (unasked : before.pendingFull = none) {promoted copied reclaimed destroyed left : Nat}
      (admits : (before.post (.minor promoted)).Admits (.full copied reclaimed destroyed left))
      : Calls before
          ((before.post (.minor promoted)).post (.full copied reclaimed destroyed left))

/-- The ledger behind an operation. Where nothing is handed out behind a collection, no words are. -/
inductive Ledger.Turn (before : Ledger) : Ledger → Prop where
  | rests : Turn before before
  | posts {posting : Posting} (own : posting.isCollection = false) : Turn before (before.post posting)
  | collects {ended : Ledger} (calls : before.Calls ended) (words : Nat)
      : Turn before (ended.post (.handOut words))

namespace World

/-- Nothing was posted, and memory that can be counted still can. -/
structure Unposted (before after : World σ δ) : Prop where
  ledger : after.ledger = before.ledger
  countable : before.heap.regions.Countable → after.heap.regions.Countable

/-- Wherever the action ends or is stopped, nothing was posted. -/
def Unposting (action : Action (World σ δ) α) : Prop :=
  ∀ world,
    Runs action world (fun _ final => world.Unposted final) fun _ final => world.Unposted final

/-- Where the action ends it has taken a turn; where it is stopped nothing was posted, or a collection
stays in the middle.
-/
def Turns (action : Action (World σ δ) α) : Prop :=
  ∀ world,
    world.heap.regions.Countable →
    Runs action world
      (fun _ final => world.ledger.Turn final.ledger ∧ final.heap.regions.Countable)
      fun _ final => final.heap.phase = .idle → world.Unposted final

variable {action : Action (World σ δ) α}

/-- What is done in two steps posts nothing if neither does. -/
theorem Unposted.trans {before middle after : World σ δ} (first : before.Unposted middle)
    (second : middle.Unposted after)
    : before.Unposted after :=
  ⟨second.ledger.trans first.ledger, second.countable ∘ first.countable⟩

namespace Unposting

theorem pure (result : α) : Unposting (σ := σ) (δ := δ) (Pure.pure result) := fun _ => ⟨rfl, id⟩

theorem report {event : Event} (silent : event.completion? = none)
    : Unposting (σ := σ) (δ := δ) (World.report event) := by
  intro world
  rw [runs_report]
  exact ⟨world.ledger_log (List.filterMap_cons_none silent), id⟩

theorem stop (violation : Violation)
    : Unposting (World.stop violation : Action (World σ δ) α) :=
  fun _ => runs_stop.mpr ⟨rfl, id⟩

theorem check (result : Except Violation α)
    : Unposting (σ := σ) (δ := δ) (World.check result) := by
  intro world
  rw [runs_check]
  cases result <;> exact ⟨rfl, id⟩

theorem require (found : Option α) (violation : Violation)
    : Unposting (σ := σ) (δ := δ) (World.require found violation) := by
  intro world
  rw [runs_require]
  cases found <;> exact ⟨rfl, id⟩

/-- Changing what the ledger does not tell of. -/
theorem modifyHeap {change : Heap δ → Heap δ}
    (same : ∀ world : World σ δ, world.Unposted { world with heap := change world.heap })
    : Unposting (σ := σ) (World.modifyHeap change) :=
  same

theorem bind {next : α → Action (World σ δ) β} (first : Unposting action)
    (second : ∀ result, Unposting (next result))
    : Unposting (action >>= next) := by
  intro world
  rw [runs_bind]
  refine (first world).mono (fun result middle same => ?_) fun _ _ => id
  exact (second result middle).mono (fun _ _ => same.trans) fun _ _ => same.trans

theorem heapNow_bind {next : Heap δ → Action (World σ δ) α}
    (unposting : ∀ heap, Unposting (next heap))
    : Unposting (World.heapNow >>= next) := by
  intro world
  rw [runs_bind, runs_heapNow]
  exact unposting world.heap world

theorem map (unposting : Unposting action) (change : α → β) : Unposting (change <$> action) := by
  intro world
  rw [runs_map]
  exact unposting world

theorem ite {condition : Prop} [Decidable condition] {other : Action (World σ δ) α}
    (yes : Unposting action) (no : Unposting other)
    : Unposting (if condition then action else other) := by
  split_ifs
  · exact yes
  · exact no

theorem toTurns (unposting : Unposting action) : Turns action := by
  intro world countable
  refine (unposting world).mono (fun _ final same => ⟨?_, same.countable countable⟩)
    fun _ _ same _ => same
  rw [same.ledger]
  exact .rests

end Unposting

namespace Turns

/-- What posts nothing may be done first. -/
theorem after_unposting {next : α → Action (World σ δ) β} (first : Unposting action)
    (second : ∀ result, Turns (next result))
    : Turns (action >>= next) := by
  intro world countable
  rw [runs_bind]
  refine (first world).mono (fun result middle same => ?_) fun _ _ same _ => same
  rw [← same.ledger]
  exact (second result middle (same.countable countable)).mono (fun _ _ => id)
    fun _ _ later idle => same.trans (later idle)

theorem map (turns : Turns action) (change : α → β) : Turns (change <$> action) := by
  intro world countable
  rw [runs_map]
  exact turns world countable

theorem ite {condition : Prop} [Decidable condition] {other : Action (World σ δ) α}
    (yes : Turns action) (no : Turns other)
    : Turns (if condition then action else other) := by
  split_ifs
  · exact yes
  · exact no

end Turns

end World

-----------------------------------------------------------------------------------------
-- Operations
-----------------------------------------------------------------------------------------

/-- Reserving a slot counts an object more and the words of the slot. -/
theorem FixedSpace.counts_allocate (space : FixedSpace δ) (words : Nat) (destructor : Option δ)
    (executable : Bool)
    : ∃ taken,
        (space.allocate words destructor executable).2.liveObjects = space.liveObjects + 1
        ∧ (space.allocate words destructor executable).2.liveWords = space.liveWords + taken := by
  unfold FixedSpace.allocate
  dsimp only
  split
  next slot _ => exact ⟨slot.capacity, rfl, rfl⟩
  next => exact ⟨_, rfl, rfl⟩

namespace Collector

/-- A call of the collector is posted where it ends, and one that is refused posts nothing. -/
theorem calls_collectFor (host : Host σ δ) (words : Nat) (wantsFull : Bool) (reason : Reason)
    {world : World σ δ} (countable : world.heap.regions.Countable)
    : Runs (collectFor host words wantsFull reason) world
        (fun _ final => world.ledger.Calls final.ledger ∧ final.heap.regions.Countable)
        fun _ final => final.heap.phase = .idle → world.Unposted final := by
  have fulls : ∀ (reason : Reason) (begun : World σ δ), begun.heap.regions.Countable →
      begun.heap.phase = .idle →
      Runs (full host reason) begun
        (fun _ final =>
          (∃ copied reclaimed destroyed left,
            begun.ledger.Admits (.full copied reclaimed destroyed left)
            ∧ final.ledger = begun.ledger.post (.full copied reclaimed destroyed left))
          ∧ final.heap.regions.Countable)
        fun _ final => final.heap.phase = .idle → world.Unposted final := by
    intro reason begun countable idle
    refine ((posted_full host reason countable idle).and (idle_full host reason begun)).mono ?_ ?_
    · exact fun _ _ => And.left
    · exact fun _ _ stopped idle => absurd idle stopped.2
  have direct : ∀ reason, world.heap.phase = .idle →
      Runs (full host reason) world
        (fun _ final => world.ledger.Calls final.ledger ∧ final.heap.regions.Countable)
        fun _ final => final.heap.phase = .idle → world.Unposted final := by
    intro reason idle
    refine (fulls reason world countable idle).mono (fun _ final posted => ?_) fun _ _ => id
    obtain ⟨⟨_, _, _, _, admits, ledger⟩, counts⟩ := posted
    rw [ledger]
    exact ⟨.full admits, counts⟩
  simp only [collectFor, runs_bind, World.runs_heapNow, runs_ite, World.runs_stop]
  split_ifs with running large all
  · exact fun _ => ⟨rfl, id⟩
  · exact fun _ => ⟨rfl, id⟩
  · exact direct reason (by simpa using running)
  · have idle : world.heap.phase = .idle := by simpa using running
    split
    next pending _ => exact direct pending idle
    next unasked =>
      simp only [runs_bind, World.runs_heapNow, runs_ite, runs_pure]
      refine ((posted_minor host reason countable idle).and (idle_minor host reason world)).mono
        (fun _ middle reached => ?_) fun _ _ stopped idle => absurd idle stopped.2
      obtain ⟨⟨⟨promoted, ledger⟩, counts⟩, rests⟩ := reached
      split_ifs
      · refine (fulls _ middle counts rests).mono (fun _ final posted => ?_) fun _ _ => id
        obtain ⟨⟨_, _, _, _, admits, further⟩, counts⟩ := posted
        rw [ledger] at admits further
        rw [further]
        exact ⟨.both unasked admits, counts⟩
      · rw [ledger]
        exact ⟨.minor unasked promoted, counts⟩

end Collector

namespace World

/-- Handing out memory is posted together with its padding. -/
theorem ledger_reserved (world : World σ δ) (words stride : Nat)
    : (world.reserved words stride).ledger
      = world.ledger.post
          (.handOut ((world.heap.regions.birth.padding? stride).getD 0 + words)) := by
  simp only [Ledger.post, ledger, reserved, BirthRegion.bump, ← Nat.add_assoc]
  rfl

theorem turns_collectFor (host : Host σ δ) (words : Nat) (wantsFull : Bool) (reason : Reason)
    : Turns (Collector.collectFor host words wantsFull reason) := by
  intro world countable
  refine (Collector.calls_collectFor host words wantsFull reason countable).mono
    (fun _ final reached => ?_) fun _ _ => id
  exact ⟨.collects reached.1 0, reached.2⟩

theorem turns_reserve (host : Host σ δ) (size stride : Nat) : Turns (reserve host size stride) := by
  intro world countable
  simp only [reserve, runs_bind, runs_heapNow, runs_ite, runs_stop]
  split_ifs
  · exact fun _ => ⟨rfl, id⟩
  · refine runs_makeRoom (fun _ => ?_) fun wantsFull reason => ?_
    · have handed := ledger_reserved world (max (wordsFor size) minObjectWords) stride
      refine ⟨?_, countable.target, countable.kept⟩
      exact Eq.subst (motive := world.ledger.Turn) handed.symm (.posts rfl)
    · refine (Collector.calls_collectFor host _ wantsFull reason countable).mono
        (fun _ middle reached => ?_) fun _ _ => id
      have handed := ledger_reserved middle (max (wordsFor size) minObjectWords) stride
      exact ⟨handed ▸ .collects reached.1 _, reached.2.target, reached.2.kept⟩

theorem unposting_ensureIdle : Unposting (ensureIdle : Action (World σ δ) Unit) :=
  .heapNow_bind fun _ => .ite (.stop _) (.pure ())

/-- Storing posts nothing, as memory keeps its outline. -/
theorem unposting_store (addr : Address) (word : Word)
    : Unposting (store addr word : Action (World σ δ) Unit) := by
  intro world
  simp only [store, runs_bind, runs_heapNow, runs_require, runs_modifyRegions]
  split
  case h_2 => exact ⟨rfl, id⟩
  case h_1 regions done =>
  have evolves := Regions.Evolves.setWord? done
  have outline := evolves.outline
  refine ⟨?_, fun countable => ⟨?_, evolves.consistent countable.kept.toConsistent,
    (evolves.counted countable.kept.toCounted).1⟩⟩
  · have standing := Heap.standing_setWord? world.heap done
    ext1
    case birthCursor => exact evolves.birthCursor
    case birthCapacity => exact evolves.birthSize
    case birthMargin => exact evolves.margin
    case oldSpace => exact evolves.oldSpace
    case oldCursor => exact (congrArg Standing.oldCursor standing :)
    case fixedLive => exact congrArg (fun regions => regions.fixed.liveObjects) outline
    case fixedWords => exact congrArg (fun regions => regions.fixed.liveWords) outline
    all_goals rfl
  · have target := evolves.target
    simpa [countable.target] using target

/-- A slot is recorded on no ledger; the collection that may follow is. -/
theorem turns_notifyStore (host : Host σ δ) (slot : Address) : Turns (notifyStore host slot) := by
  intro world countable
  have same : world.Unposted (world.recorded slot) :=
    ⟨rfl, fun countable => ⟨countable.target, countable.kept⟩⟩
  simp only [notifyStore, runs_ite, runs_pure, runs_bind, runs_heapNow, runs_count, runs_report,
    runs_modifyRegions]
  split_ifs
  · exact ⟨.rests, countable⟩
  · have calls := turns_collectFor host 0 false .storeBufferFull (world.recorded slot)
      (same.countable countable)
    rw [same.ledger] at calls
    exact calls.mono (fun _ _ => id) fun _ _ refused idle => same.trans (refused idle)
  · exact ⟨.rests, same.countable countable⟩
  · exact ⟨.rests, countable⟩

/-- A fixed object is posted with the words of its slot. -/
theorem turns_allocateFixed (size : Nat) (destructor : Option δ) (executable : Bool)
    : Turns (σ := σ) (allocateFixed size destructor executable) := by
  refine .after_unposting unposting_ensureIdle fun _ world countable => ?_
  have positive : 0 < max (wordsFor size) 1 := by omega
  have kept := countable.kept
  obtain ⟨slot, -, -, reserves⟩ := kept.reserves_allocate positive destructor executable
  have counted := kept.toCounted.allocate kept.toConsistent positive destructor executable
  obtain ⟨words, objects, taken⟩ := FixedSpace.counts_allocate world.heap.regions.fixed
    (max (wordsFor size) 1) destructor executable
  have posted : ∀ final : World σ δ,
      final.ledger = world.ledger.post (.lodge words) →
      final.heap.regions.fixed
        = (world.heap.regions.fixed.allocate (max (wordsFor size) 1) destructor executable).2 →
      final.heap.regions.target = none →
      world.ledger.Turn final.ledger ∧ final.heap.regions.Countable := by
    intro final ledger fixed target
    refine ⟨ledger ▸ .posts rfl, target, ?_⟩
    rw [fixed]
    exact ⟨reserves.consistent, counted⟩
  simp only [requestFull, runs_bind, runs_heapNow, runs_ite, runs_pure, runs_modifyRegions,
    runs_count, runs_modifyHeap, taken]
  split_ifs with grown
  · refine posted _ ?_ rfl countable.target
    ext1
    case pendingFull => exact (if_pos grown).symm
    case fixedLive => exact objects
    case fixedWords => exact taken
    all_goals rfl
  · refine posted _ ?_ rfl countable.target
    ext1
    case pendingFull => exact (if_neg grown).symm
    case fixedLive => exact objects
    case fixedWords => exact taken
    all_goals rfl

/-- Giving up on a fixed object frees it only in a later collection. -/
theorem unposting_forgetFixed (object : Address)
    : Unposting (σ := σ) (δ := δ) (forgetFixed object) := by
  intro world
  simp only [forgetFixed, runs_bind, runs_heapNow, runs_require, runs_modifyRegions]
  split
  next fixed forgotten =>
    split_ifs at forgotten
    have consistent := fun countable : world.heap.regions.Countable =>
      countable.kept.toConsistent.forget? forgotten
    obtain ⟨occupant, -, rfl⟩ := Option.map_eq_some_iff.mp forgotten
    exact ⟨rfl, fun countable => ⟨countable.target, consistent countable,
      countable.kept.toCounted.updateOccupant _ _⟩⟩
  next => exact ⟨rfl, id⟩

theorem unposting_closeBlock (block : Block) (result : Except Thrown α)
    : Unposting (σ := σ) (δ := δ) (closeBlock block result) := by
  refine .heapNow_bind fun heap => .bind (.modifyHeap fun _ => ⟨rfl, id⟩) fun _ => ?_
  cases result with
  | ok value => exact .heapNow_bind fun _ => .ite (.stop _) (.pure _)
  | error thrown =>
      refine .bind (.modifyHeap fun _ => ⟨rfl, id⟩) fun _ => ?_
      exact .heapNow_bind fun _ => .ite (.stop _) (.pure _)

theorem unposting_updateModules (result : Except ModuleError ModuleTable)
    : Unposting (σ := σ) (δ := δ) (updateModules result) := by
  cases result with
  | error error => exact .pure _
  | ok modules => exact .bind (.modifyHeap fun _ => ⟨rfl, id⟩) fun _ => .pure _

theorem unposting_loadModule (loader : Loader) (name searchPath : String) (wanted : Option Nat)
    : Unposting (σ := σ) (δ := δ) (loadModule loader name searchPath wanted) := by
  refine .heapNow_bind fun heap => ?_
  dsimp only
  split
  · exact .pure _
  · split
    · exact .bind (.report rfl) fun _ => .pure _
    · refine .bind (.report rfl) fun _ => .bind (.modifyHeap fun _ => ⟨rfl, id⟩) fun _ => .pure _

theorem unposting_unloadModule (rank : Nat)
    : Unposting (σ := σ) (δ := δ) (unloadModule rank) := by
  refine .heapNow_bind fun heap => ?_
  split
  · exact .pure _
  · exact .bind (.report rfl) fun _ => .bind (.modifyHeap fun _ => ⟨rfl, id⟩) fun _ => .pure _

/-- Every operation takes a turn, whatever its host does. -/
theorem turns_run (host : Host σ δ) (operation : Operation δ) : Turns (operation.run host) := by
  have looks : ∀ {β : Type} (look : Heap δ → Except Violation β),
      Unposting ((do World.check (look (← World.heapNow)) : Action (World σ δ) β)) := fun look =>
    .heapNow_bind fun heap => .check (look heap)
  cases operation with
  | allocate size =>
      exact .map (.after_unposting unposting_ensureIdle fun _ => turns_reserve host size 1) _
  | allocateAligned size align =>
      refine .map (.after_unposting unposting_ensureIdle fun _ => ?_) _
      exact .ite (turns_reserve host size _) (Unposting.stop _).toTurns
  | allocateFixed size destructor executable =>
      exact .map (turns_allocateFixed size destructor executable) _
  | forgetFixed object => exact (unposting_forgetFixed object).toTurns
  | requestFull reason =>
      exact fun world countable =>
        ⟨.posts (show (Posting.request reason).isCollection = false from rfl), countable⟩
  | load addr => exact (Unposting.map (.heapNow_bind fun _ => .require _ _) _).toTurns
  | store addr word => exact (unposting_store addr word).toTurns
  | notifyStore slot => exact turns_notifyStore host slot
  | storeNotified slot value =>
      exact .after_unposting (unposting_store slot value.raw) fun _ => turns_notifyStore host slot
  | write slot value =>
      refine .after_unposting (unposting_store slot value.raw) fun _ => ?_
      exact .ite (turns_notifyStore host slot) (Unposting.pure ()).toTurns
  | enterFrame descriptor params =>
      refine (Unposting.map (.heapNow_bind fun _ => .bind (.check _) fun _ => ?_) _).toTurns
      exact .bind (.modifyHeap fun _ => ⟨rfl, id⟩) fun _ => .pure _
  | exitFrame frame =>
      refine (Unposting.heapNow_bind fun _ => .bind (.check _) fun _ => ?_).toTurns
      exact .modifyHeap fun _ => ⟨rfl, id⟩
  | frameDescriptor id => exact ((looks fun heap => heap.frames.descriptor id).map _).toTurns
  | frameSlot id kind index =>
      exact ((looks fun heap => heap.frames.get id kind index).map _).toTurns
  | setFrameSlot frame kind index value =>
      refine (Unposting.heapNow_bind fun _ => .bind (.check _) fun _ => ?_).toTurns
      exact .modifyHeap fun _ => ⟨rfl, id⟩
  | openBlock =>
      refine (Unposting.map (.heapNow_bind fun _ => ?_) _).toTurns
      exact .bind (.modifyHeap fun _ => ⟨rfl, id⟩) fun _ => .pure _
  | closeBlock block result => exact ((unposting_closeBlock block result).map _).toTurns
  | throwException code payload =>
      refine (Unposting.map (.heapNow_bind fun _ => .bind (.require _ _) fun _ => ?_) _).toTurns
      exact .bind (.modifyHeap fun _ => ⟨rfl, id⟩) fun _ => .pure _
  | loadModule loader name searchPath wanted =>
      exact ((unposting_loadModule loader name searchPath wanted).map _).toTurns
  | unloadModule rank => exact ((unposting_unloadModule rank).map _).toTurns
  | setModuleConstant rank value =>
      exact (Unposting.map (.heapNow_bind fun _ => unposting_updateModules _) _).toTurns
  | setModuleExtra rank extra =>
      exact (Unposting.map (.heapNow_bind fun _ => unposting_updateModules _) _).toTurns
  | setConstant index value => exact fun world countable => ⟨.rests, countable⟩
  | collect size wantsFull => exact turns_collectFor host _ _ _
  | collectMinor => exact turns_collectFor host _ _ _
  | collectFull => exact turns_collectFor host _ _ _

-----------------------------------------------------------------------------------------
-- Runs
-----------------------------------------------------------------------------------------

/-- An operation that leaves the heap idle has taken a turn, whether or not a violation stopped it. -/
theorem turn_after (host : Host σ δ) (operation : Operation δ) {world : World σ δ}
    (countable : world.heap.regions.Countable)
    (idle : (world.after (operation.run host)).heap.phase = .idle)
    : world.ledger.Turn (world.after (operation.run host)).ledger
      ∧ (world.after (operation.run host)).heap.regions.Countable := by
  have turns : Runs (operation.run host) world
      (fun _ final => final.heap.phase = .idle →
        world.ledger.Turn final.ledger ∧ final.heap.regions.Countable)
      fun _ final => final.heap.phase = .idle →
        world.ledger.Turn final.ledger ∧ final.heap.regions.Countable := by
    refine (turns_run host operation world countable).mono (fun _ _ turn _ => turn) ?_
    intro _ final same idle
    obtain ⟨ledger, counts⟩ := same idle
    exact ⟨ledger ▸ .rests, counts countable⟩
  exact after_of_runs turns idle

end World

namespace Ledger

variable {before after : Ledger} {holds : Ledger → Prop}

/-- What every posting keeps is kept by a call of the collector. -/
theorem Calls.keeps (calls : before.Calls after)
    (posts : ∀ ledger posting, ledger.Admits posting → holds ledger → holds (ledger.post posting))
    (here : holds before)
    : holds after := by
  cases calls with
  | full admits => exact posts _ _ admits here
  | minor => exact posts _ (.minor _) trivial here
  | both _ admits => exact posts _ _ admits (posts _ (.minor _) trivial here)

/-- What every posting keeps is kept in every turn. -/
theorem Turn.keeps (turn : before.Turn after)
    (posts : ∀ ledger posting, ledger.Admits posting → holds ledger → holds (ledger.post posting))
    (here : holds before)
    : holds after := by
  cases turn with
  | rests => exact here
  | @posts posting own =>
      refine posts _ _ ?_ here
      cases posting with
      | full => cases own
      | _ => trivial
  | collects calls words => exact posts _ (.handOut words) trivial (calls.keeps posts here)

/-- The ledger of a new heap. -/
def opening (config : Config) : Ledger where
  config
  phase := .idle
  pendingFull := none
  fixedThreshold := config.fixedThresholdWords
  collections := 0
  counters := {}
  birthCursor := 0
  birthCapacity := config.birthWords
  birthMargin := config.safetyMargin
  oldSpace := .oldA
  oldCursor := 0
  fixedLive := 0
  fixedWords := 0
  completions := []

end Ledger

namespace World

/-- A new heap has the ledger that its configuration opens. -/
theorem ledger_of_create {mapper : Mapper} {config : Config} {state : σ} {world : World σ δ}
    (created : create mapper config state = .ok world)
    : world.ledger = .opening config ∧ world.heap.regions.Countable := by
  have done := (created_of_create created).1
  refine ⟨?_, ⟨done.steady.target, ?_⟩⟩
  · obtain ⟨-, birth, old, mapped, -, rfl⟩ := eq_of_create created
    obtain ⟨rfl, -⟩ := Mapper.size_of_map? mapped
    rfl
  · rw [done.fixed]
    exact FixedSpace.kept_empty

/-- Memory can be counted whenever no collection runs. -/
theorem Reachable.countable {world : World σ δ} (reachable : world.Reachable)
    (idle : world.heap.phase = .idle)
    : world.heap.regions.Countable := by
  induction reachable with
  | create created => exact (ledger_of_create created).2
  | @operate world host operation _ ih =>
      have former := (lasts_after host operation world).idle idle
      exact (turn_after host operation (ih former) idle).2
  | change state _ ih => exact ih idle

/-- What every posting keeps is so whenever no collection runs, if it is so of a new heap. -/
theorem Reachable.posted {holds : Ledger → Prop} (opens : ∀ config, holds (.opening config))
    (posts : ∀ ledger posting, ledger.Admits posting → holds ledger → holds (ledger.post posting))
    {world : World σ δ} (reachable : world.Reachable) (idle : world.heap.phase = .idle)
    : holds world.ledger := by
  induction reachable with
  | create created =>
      rw [(ledger_of_create created).1]
      exact opens _
  | @operate world host operation reachable ih =>
      have former := (lasts_after host operation world).idle idle
      exact (turn_after host operation (reachable.countable former) idle).1.keeps posts (ih former)
  | change state _ ih => exact ih idle

/-- Memory can be counted wherever a collection starts. -/
theorem Launches.countable {world begun : World σ δ} (launches : world.Launches begun)
    (reachable : world.Reachable) (idle : world.heap.phase = .idle)
    : begun.heap.regions.Countable := by
  induction launches with
  | here => exact reachable.countable idle
  | recorded =>
      obtain ⟨target, kept⟩ := reachable.countable idle
      exact ⟨target, kept⟩
  | promoted launches ends ih =>
      have rests := (launches.ready reachable idle).2
      exact ((Collector.posted_minor _ _ ih rests).of_ok ends).2

/-- What every posting keeps is so wherever a collection starts. -/
theorem Launches.posted {holds : Ledger → Prop}
    (posts : ∀ ledger posting, ledger.Admits posting → holds ledger → holds (ledger.post posting))
    {world begun : World σ δ} (launches : world.Launches begun) (reachable : world.Reachable)
    (idle : world.heap.phase = .idle) (here : holds world.ledger)
    : holds begun.ledger := by
  induction launches with
  | here => exact here
  | recorded => exact here
  | @promoted host reason begun middle launches ends ih =>
      have rests := (launches.ready reachable idle).2
      have countable := launches.countable reachable idle
      obtain ⟨⟨promoted, ledger⟩, -⟩ :=
        (Collector.posted_minor host reason countable rests).of_ok ends
      rw [ledger]
      exact posts _ (.minor promoted) trivial ih

end World

end MovingHeap
