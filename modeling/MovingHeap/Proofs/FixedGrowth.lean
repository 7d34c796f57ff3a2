import MovingHeap.Proofs.Accounts
import MovingHeap.Proofs.Histories

/-! Growth of the fixed space and the full collections it calls for.
Whoever asks for a full collection, the request stands until one full collection answers it; until then
no memory is handed out in the birth region.
-/

namespace MovingHeap

variable {σ δ α : Type}

-----------------------------------------------------------------------------------------
-- Schedules
-----------------------------------------------------------------------------------------

namespace Ledger

/-- The threshold follows from what the last full collection left, if there was one, and growth above it
is not left without a request.
-/
structure Scheduled (ledger : Ledger) (config : Config) (left : Option Nat) : Prop where
  same : ledger.config = config
  threshold : ledger.fixedThreshold = max config.fixedThresholdWords (2 * left.getD 0)
  bounded : ledger.pendingFull = none → ledger.fixedWords ≤ ledger.fixedThreshold

/-- What the last full collection left, if one may have run between two ledgers. -/
def leftBehind (before after : Ledger) (left : Option Nat) : Option Nat :=
  if after.counters.fullCollections = before.counters.fullCollections then left
  else some after.fixedWords

variable {before after : Ledger} {config : Config} {left : Option Nat}

/-- A new heap is on schedule. -/
theorem scheduled_opening (config : Config) : (opening config).Scheduled config none :=
  ⟨rfl, (Nat.max_zero _).symm, fun _ => Nat.zero_le _⟩

/-- Right behind a full collection a heap is on schedule. -/
theorem Scheduled.full (scheduled : before.Scheduled config left)
    (copied reclaimed destroyed words : Nat)
    : (before.post (.full copied reclaimed destroyed words)).Scheduled config (some words) := by
  refine ⟨scheduled.same, ?_, fun _ => ?_⟩
  · rw [Option.getD_some, Nat.mul_comm, ← scheduled.same]
    rfl
  · simp only [post]
    omega

/-- Minor collections change nothing about the schedule. -/
theorem Scheduled.minor (scheduled : before.Scheduled config left) (promoted : Nat)
    : (before.post (.minor promoted)).Scheduled config left :=
  ⟨scheduled.same, scheduled.threshold, scheduled.bounded⟩

/-- Handing out memory changes nothing about the schedule. -/
theorem Scheduled.handOut (scheduled : before.Scheduled config left) (words : Nat)
    : (before.post (.handOut words)).Scheduled config left :=
  ⟨scheduled.same, scheduled.threshold, scheduled.bounded⟩

/-- A fixed object that takes the space above the threshold asks for a full collection. -/
theorem Scheduled.lodge (scheduled : before.Scheduled config left) (words : Nat)
    : (before.post (.lodge words)).Scheduled config left := by
  refine ⟨scheduled.same, scheduled.threshold, fun unasked => ?_⟩
  simp only [post] at unasked ⊢
  split_ifs at unasked with grown
  · cases pending : before.pendingFull <;> simp [pending] at unasked
  · exact Nat.le_of_not_lt grown

/-- With a request standing, nothing is promised about the fixed space. -/
theorem Scheduled.request (scheduled : before.Scheduled config left) (reason : Reason)
    : (before.post (.request reason)).Scheduled config left := by
  refine ⟨scheduled.same, scheduled.threshold, fun unasked => ?_⟩
  cases pending : before.pendingFull <;> simp [post, pending] at unasked

/-- Where no full collection was counted, what the last one left is what it was. -/
theorem Scheduled.kept (scheduled : after.Scheduled config left)
    (same : after.counters.fullCollections = before.counters.fullCollections)
    : after.Scheduled config (before.leftBehind after left) := by
  rw [leftBehind, if_pos same]
  exact scheduled

/-- Where a full collection was counted, it left what there is. -/
theorem Scheduled.renewed (scheduled : after.Scheduled config (some after.fixedWords))
    (more : after.counters.fullCollections = before.counters.fullCollections + 1)
    : after.Scheduled config (before.leftBehind after left) := by
  rw [leftBehind, if_neg (by omega)]
  exact scheduled

/-- Every turn keeps to the schedule, by what it may post. -/
theorem Scheduled.turn (scheduled : before.Scheduled config left) (turn : before.Turn after)
    : after.Scheduled config (before.leftBehind after left) := by
  cases turn with
  | rests => exact scheduled.kept rfl
  | @posts posting own =>
      cases posting with
      | request reason => exact (scheduled.request reason).kept rfl
      | lodge words => exact (scheduled.lodge words).kept rfl
      | handOut words => exact (scheduled.handOut words).kept rfl
      | minor | full => cases own
  | collects calls words =>
      cases calls with
      | full admits => exact ((scheduled.full _ _ _ _).handOut words).renewed rfl
      | minor unasked promoted => exact ((scheduled.minor promoted).handOut words).kept rfl
      | both unasked admits =>
          exact (((scheduled.minor _).full _ _ _ _).handOut words).renewed rfl

-----------------------------------------------------------------------------------------
-- Requests
-----------------------------------------------------------------------------------------

/-- One full collection has ended between the two ledgers and no other one, and nothing is pending. -/
structure Answers (before after : Ledger) : Prop where
  told
    : ∃ copied reclaimed,
        after.completions = .full before.collections copied reclaimed :: before.completions
  collections : after.collections = before.collections + 1
  settled : after.pendingFull = none

/-- No collection has run between the two ledgers, and what was asked for still is. -/
structure Awaits (before after : Ledger) : Prop where
  told : after.completions = before.completions
  collections : after.collections = before.collections
  pending : after.pendingFull = before.pendingFull

/-- Waiting twice is waiting. -/
theorem Awaits.trans {middle : Ledger} (first : before.Awaits middle) (second : middle.Awaits after)
    : before.Awaits after :=
  ⟨second.told.trans first.told, second.collections.trans first.collections,
    second.pending.trans first.pending⟩

/-- A call of the collector leaves nothing pending. -/
theorem Calls.settled (calls : before.Calls after) : after.pendingFull = none := by
  cases calls with
  | full => rfl
  | minor unasked => exact unasked
  | both => rfl

/-- Where a full collection is pending, a turn runs none at all or that one. -/
theorem Turn.awaits_or_answers (turn : before.Turn after) {reason : Reason}
    (pending : before.pendingFull = some reason)
    : before.Awaits after ∨ before.Answers after := by
  cases turn with
  | rests => exact .inl ⟨rfl, rfl, rfl⟩
  | @posts posting own =>
      refine .inl ?_
      cases posting with
      | request => exact ⟨rfl, rfl, by simp [post, pending]⟩
      | lodge => exact ⟨rfl, rfl, by simp [post, pending]⟩
      | handOut => exact ⟨rfl, rfl, rfl⟩
      | minor | full => cases own
  | collects calls words =>
      refine .inr ?_
      cases calls with
      | full => exact ⟨⟨_, _, rfl⟩, rfl, rfl⟩
      | minor unasked => exact absurd (unasked.symm.trans pending) (by simp)
      | both unasked => exact absurd (unasked.symm.trans pending) (by simp)

end Ledger

-----------------------------------------------------------------------------------------
-- Runs
-----------------------------------------------------------------------------------------

namespace Operation

/-- Whether the operation hands out memory in the birth region. -/
def isAllocation : Operation δ → Bool
  | .allocate .. | .allocateAligned .. => true
  | _ => false

/-- Whether the operation makes room in the birth region or sees that there is. -/
def isMakingRoom : Operation δ → Bool
  | .allocate .. | .allocateAligned .. => true
  | .collect .. | .collectMinor | .collectFull => true
  | _ => false

end Operation

namespace World

/-- The live fixed words that the last full collection left behind steps, if there was one: each step by
which full collections have become more leaves what lives then.
-/
def leftBehind (world : World σ δ) : List (Step σ δ) → Option Nat → Option Nat
  | [], left => left
  | step :: rest, left =>
      let next := world.after step.run
      next.leftBehind rest
        (if next.heap.counters.fullCollections = world.heap.counters.fullCollections then left
        else some next.heap.regions.fixed.liveWords)

/-- The bound on the live fixed words follows from what the last full collection left, and they keep within
it unless a full collection is pending.
-/
structure OnSchedule (world : World σ δ) (config : Config) (left : Option Nat) : Prop where
  threshold
    : world.heap.fixedThreshold = max (config.fixedThreshold / 8) (2 * left.getD 0)
  bounded
    : world.heap.pendingFull = none →
        world.heap.regions.fixed.liveWords ≤ world.heap.fixedThreshold
  counted
    : world.heap.regions.fixed.liveWords
      = FixedSpace.occupiedWords world.heap.regions.fixed.slots

/-- No step collects anything until one runs a full collection and no other one, which answers what was
pending.
-/
def Answered (world : World σ δ) (steps : List (Step σ δ)) : Prop :=
  ∃ quiet step rest,
    steps = quiet ++ step :: rest
    ∧ world.ledger.Awaits (world.play quiet).ledger
    ∧ (world.play quiet).ledger.Answers (world.play (quiet ++ [step])).ledger

variable {world : World σ δ}

/-- Steps lead from worlds that runs reach to such worlds. -/
theorem Reachable.play (reachable : world.Reachable) (steps : List (Step σ δ))
    : (world.play steps).Reachable := by
  induction steps generalizing world with
  | nil => exact reachable
  | cons step rest ih =>
      cases step with
      | operate host operation => exact ih (reachable.operate host operation)
      | change state => exact ih (reachable.change state)

/-- Where no collection runs behind a step, none ran before. -/
theorem idle_of_step {step : Step σ δ} (idle : (world.after step.run).heap.phase = .idle)
    : world.heap.phase = .idle := by
  cases step with
  | operate host operation => exact (lasts_after host operation world).idle idle
  | change => exact idle

/-- Where no collection runs behind some steps, none ran before. -/
theorem idle_of_play {steps : List (Step σ δ)} (idle : (world.play steps).heap.phase = .idle)
    : world.heap.phase = .idle := by
  induction steps generalizing world with
  | nil => exact idle
  | cons step rest ih => exact idle_of_step (ih idle)

/-- A step that leaves the heap idle has taken a turn. -/
theorem turn_step (reachable : world.Reachable) {step : Step σ δ}
    (idle : (world.after step.run).heap.phase = .idle)
    : world.ledger.Turn (world.after step.run).ledger := by
  cases step with
  | operate host operation =>
      exact (turn_after host operation (reachable.countable (idle_of_step idle)) idle).1
  | change => exact .rests

/-- Steps keep to the schedule, one after another. -/
theorem scheduled_play {config : Config} {steps : List (Step σ δ)} {left : Option Nat}
    (reachable : world.Reachable) (scheduled : world.ledger.Scheduled config left)
    (idle : (world.play steps).heap.phase = .idle)
    : (world.play steps).ledger.Scheduled config (world.leftBehind steps left) := by
  induction steps generalizing world left with
  | nil => exact scheduled
  | cons step rest ih =>
      have next : (world.after step.run).Reachable := reachable.play [step]
      exact ih next (scheduled.turn (turn_step reachable (idle_of_play idle))) idle

/-- What is pending is answered by some step unless it stays pending, one step after another. -/
theorem awaits_or_answered {steps : List (Step σ δ)} {reason : Reason}
    (reachable : world.Reachable) (pending : world.heap.pendingFull = some reason)
    (idle : (world.play steps).heap.phase = .idle)
    : world.ledger.Awaits (world.play steps).ledger ∨ world.Answered steps := by
  induction steps generalizing world with
  | nil => exact .inl ⟨rfl, rfl, rfl⟩
  | cons step rest ih =>
      have next : (world.after step.run).Reachable := reachable.play [step]
      have turn := turn_step reachable (idle_of_play idle)
      rcases turn.awaits_or_answers pending with awaits | answers
      · rcases ih next (awaits.pending.trans pending) idle with further | answered
        · exact .inl (awaits.trans further)
        · obtain ⟨quiet, answer, behind, rfl, further, answers⟩ := answered
          exact .inr ⟨step :: quiet, answer, behind, rfl, awaits.trans further, answers⟩
      · exact .inr ⟨[], step, rest, rfl, ⟨rfl, rfl, rfl⟩, answers⟩

/-- Memory is handed out with nothing pending. -/
theorem settled_reserve (host : Host σ δ) (size stride : Nat)
    (countable : world.heap.regions.Countable)
    : Runs (reserve host size stride) world (fun _ final => final.heap.pendingFull = none)
        fun _ _ => True := by
  have calls := fun words wantsFull reason =>
    (Collector.calls_collectFor host words wantsFull reason countable).mono
      (fun _ _ reached => reached.1.settled) fun _ _ _ => trivial
  simp only [reserve, runs_bind, runs_heapNow, runs_ite, runs_stop, runs_modifyRegions, runs_pure]
  split_ifs
  simp only [makeRoom, runs_bind, runs_heapNow]
  split
  next => exact calls _ _ _
  next unasked =>
    split_ifs
    · exact calls _ _ _
    · exact unasked

/-- What makes room ends only on a heap on which no collection runs, and with nothing pending. -/
theorem settled_run (host : Host σ δ) {operation : Operation δ} (makes : operation.isMakingRoom)
    (reachable : world.Reachable)
    : Runs (operation.run host) world
        (fun _ final => final.heap.phase = .idle ∧ final.heap.pendingFull = none)
        fun _ _ => True := by
  by_cases idle : world.heap.phase = .idle
  · have countable := reachable.countable idle
    have rests : Runs (operation.run host) world (fun _ final => final.heap.phase = .idle)
        fun _ _ => True := by
      refine (whole_operation host operation world).mono (fun _ final ended => ?_)
        fun _ _ _ => trivial
      rcases ended with same | ⟨-, rests⟩
      · exact (Heap.phase_of_standing same).trans idle
      · exact rests
    have calls := fun words wantsFull reason =>
      (Collector.calls_collectFor host words wantsFull reason countable).mono
        (fun _ _ reached => reached.1.settled) fun _ _ _ => trivial
    have settled : Runs (operation.run host) world (fun _ final => final.heap.pendingFull = none)
        fun _ _ => True := by
      cases operation with
      | allocate size =>
          simp only [Operation.run, allocate, runs_map, runs_bind, runs_ensureIdle idle]
          exact settled_reserve host size 1 countable
      | allocateAligned size align =>
          simp only [Operation.run, allocateAligned, runs_map, runs_bind, runs_ensureIdle idle,
            runs_ite, runs_stop]
          split_ifs
          exact settled_reserve host size _ countable
      | collect | collectMinor | collectFull => exact calls _ _ _
      | _ => cases makes
    exact (rests.and settled).mono (fun _ _ => id) fun _ _ => And.left
  · have locked := (locked_of_busy idle).2 host operation
    cases operation with
    | allocate | allocateAligned | collect | collectMinor | collectFull =>
        exact (locked _ rfl).mono (fun _ _ => False.elim) fun _ _ _ => trivial
    | _ => cases makes

/-- In every run with any hosts, whenever no collection runs: the bound on the live fixed words is kept
unless a full collection is pending; whatever makes room and comes to its end leaves none pending; and
no memory is handed out in the birth region before one full collection has answered what is pending.
-/
theorem fixed_growth_schedules_full {mapper : Mapper} {config : Config} {state : σ}
    {start : World σ δ}
    (created : World.create mapper config state = .ok start) (steps : List (Step σ δ))
    (idle : (start.play steps).heap.phase = .idle)
    : (start.play steps).OnSchedule config (start.leftBehind steps none)
      ∧ (∀ (host : Host σ δ) (operation : Operation δ),
          operation.isMakingRoom →
          Runs (operation.run host) (start.play steps)
            (fun _ final =>
              final.heap.pendingFull = none
              ∧ final.OnSchedule config
                  (start.leftBehind (steps ++ [.operate host operation]) none)
              ∧ final.heap.regions.fixed.liveWords
                ≤ max (config.fixedThreshold / 8)
                    (2 * (start.leftBehind (steps ++ [.operate host operation]) none).getD 0))
            fun _ _ => True)
      ∧ ∀ (later : List (Step σ δ)) (host : Host σ δ) (operation : Operation δ),
          (start.play steps).heap.pendingFull.isSome →
          operation.isAllocation →
          Runs (operation.run host) (start.play (steps ++ later))
            (fun _ _ => (start.play steps).Answered (later ++ [.operate host operation]))
            fun _ _ => True := by
  have begins : start.Reachable := .create created
  have opened := ledger_of_create created
  have onSchedule : ∀ steps : List (Step σ δ), (start.play steps).heap.phase = .idle →
      (start.play steps).OnSchedule config (start.leftBehind steps none) := by
    intro steps idle
    have scheduled := scheduled_play begins (opened.1 ▸ Ledger.scheduled_opening config) idle
    have counted := ((begins.play steps).countable idle).kept.toCounted
    exact ⟨scheduled.threshold, scheduled.bounded, counted.words⟩
  refine ⟨onSchedule steps idle, fun host operation makes => ?_, ?_⟩
  · refine ((settled_run host makes (begins.play steps)).and (runs_after _ _)).mono ?_
      fun _ _ _ => trivial
    intro _ final reached
    obtain ⟨⟨rests, settled⟩, rfl⟩ := reached
    have leads : start.play (steps ++ [.operate host operation])
        = (start.play steps).after (operation.run host) := play_append start steps _
    have kept := onSchedule (steps ++ [.operate host operation]) (leads ▸ rests)
    rw [leads] at kept
    exact ⟨settled, kept, (kept.bounded settled).trans (Nat.le_of_eq kept.threshold)⟩
  · intro later host operation pending allocates
    obtain ⟨reason, asked⟩ := Option.isSome_iff_exists.mp pending
    have makes : operation.isMakingRoom := by
      cases operation <;> first | rfl | cases allocates
    refine ((settled_run host makes (begins.play _)).and (runs_after _ _)).mono ?_
      fun _ _ _ => trivial
    intro _ final reached
    obtain ⟨⟨rests, settled⟩, rfl⟩ := reached
    have leads : (start.play steps).play (later ++ [.operate host operation])
        = (start.play (steps ++ later)).after (operation.run host) := by
      rw [play_append, play_append]
      rfl
    rcases awaits_or_answered (begins.play steps) asked (leads ▸ rests) with awaits | answered
    · have still := awaits.pending
      rw [leads] at still
      exact absurd ((settled.symm.trans still).trans asked) (by simp)
    · exact answered

end World

namespace Record

/-- A fixed object of 256 words takes the space above the threshold of 128. -/
def growth : List (Step HostState Destructor) := [.operate host (.allocateFixed 2048 none false)]

end Record

/-- Growth asks for a full collection, which the next allocation runs and which leaves nothing. -/
theorem World.fixed_growth_schedules_full_grown
    : World.create .standard Record.smallConfig {} = .ok Record.emptyWorld
      ∧ (Record.emptyWorld.play Record.growth).heap.pendingFull = some .fixedSpaceGrowth
      ∧ (Record.emptyWorld.play Record.growth).OnSchedule Record.smallConfig none
      ∧ Ends ((Operation.allocate 16).run Record.host) (Record.emptyWorld.play Record.growth)
          fun _ final =>
            final.heap.pendingFull = none
            ∧ final.OnSchedule Record.smallConfig (some 0)
            ∧ (Record.emptyWorld.play Record.growth).Answered
                [.operate Record.host (.allocate 16)] := by
  have created : World.create .standard Record.smallConfig {} = .ok Record.emptyWorld := by
    unfold Record.emptyWorld
    rfl
  have idle : (Record.emptyWorld.play Record.growth).heap.phase = .idle := by decide +kernel
  have pending : (Record.emptyWorld.play Record.growth).heap.pendingFull
      = some .fixedSpaceGrowth := by
    decide +kernel
  have ends : Ends ((Operation.allocate 16).run Record.host)
      (Record.emptyWorld.play Record.growth) fun _ _ => True := by
    decide +kernel
  have grown : Record.emptyWorld.leftBehind Record.growth none = none := by decide +kernel
  have swept : Record.emptyWorld.leftBehind
      (Record.growth ++ [.operate Record.host (.allocate 16)]) none = some 0 := by
    decide +kernel
  obtain ⟨schedule, settles, answers⟩ := fixed_growth_schedules_full created Record.growth idle
  have settled := settles Record.host (.allocate 16) rfl
  have answered := answers [] Record.host (.allocate 16) (by rw [pending]; rfl) rfl
  rw [grown] at schedule
  rw [swept] at settled
  refine ⟨created, pending, schedule, (ends.and (settled.and answered)).mono ?_ fun _ _ => And.left⟩
  exact fun _ _ reached => ⟨reached.2.1.1, reached.2.1.2.1, reached.2.2⟩

end MovingHeap
