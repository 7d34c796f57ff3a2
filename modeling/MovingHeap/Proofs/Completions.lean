import MovingHeap.Proofs.CollectionSteps

/-! The collections whose end was logged.
Hosts log lines of their own only, so tracing logs the end of no collection, whatever its host does.
-/

namespace MovingHeap

variable {ω σ δ α β κ : Type}

-----------------------------------------------------------------------------------------
-- What the log tells
-----------------------------------------------------------------------------------------

/-- The end of a collection as it is logged. Sizes are in bytes. -/
inductive Completion where
  | minor (id promoted : Nat)
  | full (id copied fixedReclaimed : Nat)
  deriving DecidableEq, Repr

namespace Completion

/-- The number of the collection. -/
def id : Completion → Nat
  | minor id _ => id
  | full id _ _ => id

/-- Bytes that the collection copied. -/
def copied : Completion → Nat
  | minor _ promoted => promoted
  | full _ copied _ => copied

/-- Whether the collection was a full one. -/
def isFull : Completion → Bool
  | minor .. => false
  | full .. => true

/-- Bytes that the collection copied, if it was a minor one. -/
def promoted (completion : Completion) : Nat :=
  if completion.isFull then 0 else completion.copied

/-- Fixed objects that the collection freed. -/
def reclaimed : Completion → Nat
  | minor .. => 0
  | full _ _ fixedReclaimed => fixedReclaimed

end Completion

/-- The collection that the event ends. -/
def Event.completion? : Event → Option Completion
  | minorFinished id promoted => some (.minor id promoted)
  | fullFinished id copied fixedReclaimed => some (.full id copied fixedReclaimed)
  | _ => none

/-- The collections that have ended, the newest first. -/
def Site.completions (site : Site σ δ) : List Completion := site.log.filterMap Event.completion?

/-- The collections that have ended, the newest first. -/
def World.completions (world : World σ δ) : List Completion := world.site.completions

/-- The lines of a host end no collection. -/
theorem completions_notes (notes : List String) (log : List Event)
    : ((notes.map Event.note).reverse ++ log).filterMap Event.completion?
      = log.filterMap Event.completion? := by
  rw [List.filterMap_append, ← List.map_reverse, List.filterMap_map]
  have silent : Event.completion? ∘ Event.note = fun _ => none := rfl
  rw [silent, List.filterMap_none, List.nil_append]

-----------------------------------------------------------------------------------------
-- Figures that stay what they are
-----------------------------------------------------------------------------------------

/-- Wherever the action ends or is stopped, the figure is what it was. -/
def Unaltered (figure : ω → κ) (action : Action ω α) : Prop :=
  ∀ state,
    Runs action state (fun _ final => figure final = figure state)
      fun _ final => figure final = figure state

namespace Unaltered

variable {figure : ω → κ} {action : Action ω α}

theorem pure (result : α) : Unaltered figure (Pure.pure result) := fun _ => rfl

theorem bind {next : α → Action ω β} (first : Unaltered figure action)
    (second : ∀ result, Unaltered figure (next result))
    : Unaltered figure (action >>= next) := by
  intro state
  rw [runs_bind]
  refine (first state).mono (fun result middle same => ?_) fun _ _ => id
  exact (second result middle).mono (fun _ _ later => later.trans same)
    fun _ _ later => later.trans same

theorem map (unaltered : Unaltered figure action) (change : α → β)
    : Unaltered figure (change <$> action) :=
  fun state => runs_map.mpr (unaltered state)

theorem get_bind {next : ω → Action ω α} (unaltered : ∀ state, Unaltered figure (next state))
    : Unaltered figure (get >>= next) :=
  fun state => unaltered state state

theorem ite {condition : Prop} [Decidable condition] {other : Action ω α}
    (yes : Unaltered figure action) (no : Unaltered figure other)
    : Unaltered figure (if condition then action else other) := by
  split_ifs
  · exact yes
  · exact no

theorem heapNow_bind {figure : World σ δ → κ} {next : Heap δ → Action (World σ δ) α}
    (unaltered : ∀ heap, Unaltered figure (next heap))
    : Unaltered figure (World.heapNow >>= next) := by
  intro world
  rw [runs_bind, World.runs_heapNow]
  exact unaltered world.heap world

end Unaltered

-----------------------------------------------------------------------------------------
-- Tracing ends no collection
-----------------------------------------------------------------------------------------

/-- The action logs the end of no collection. -/
abbrev Silent (action : Action (Site σ δ) α) : Prop := Unaltered Site.completions action

namespace Unaltered

theorem report {event : Event} (silent : event.completion? = none)
    : Silent (σ := σ) (δ := δ) (Site.report event) := by
  intro site
  rw [Site.runs_report]
  exact List.filterMap_cons_none silent

theorem stop (violation : Violation) : Silent (Site.stop violation : Action (Site σ δ) α) := by
  intro site
  rw [Site.runs_stop]
  rfl

theorem require (found : Option α) (violation : Violation)
    : Silent (Site.require found violation : Action (Site σ δ) α) := by
  cases found with
  | none => exact stop violation
  | some result => exact .pure result

theorem modifyRegions (change : Regions δ → Regions δ)
    : Silent (σ := σ) (Site.modifyRegions change) :=
  fun _ => rfl

theorem accept (reply : Reply σ α) : Silent (δ := δ) (Site.accept reply) := by
  intro site
  rw [Site.runs_accept]
  exact completions_notes reply.notes site.log

end Unaltered

namespace Collector

section Visits

variable (host : Host σ δ)

theorem silent_relocate (object : Address) (young : Bool)
    : Silent (relocate host object young) := by
  refine .get_bind fun site => .bind (.accept _) fun copied => ?_
  refine .bind (.modifyRegions _) fun _ => .bind (.require _ _) fun extended => ?_
  exact .bind (.modifyRegions _) fun _ => .pure _

theorem silent_evacuate (object : Address) (young : Bool)
    : Silent (evacuate host object young) := by
  refine .get_bind fun site => .ite (.stop _) (.ite (.require _ _) ?_)
  exact silent_relocate host object young

theorem silent_markFixed (addr : Address) : Silent (σ := σ) (δ := δ) (markFixed addr) := by
  refine .get_bind fun site => .bind (.require _ _) fun found => ?_
  refine .bind (.modifyRegions _) fun _ => ?_
  split
  · exact .bind (.modifyRegions _) fun _ => .pure _
  · exact .pure _
  · exact .pure _

theorem silent_forward (value : Value) : Silent (forward host value) := by
  unfold forward
  split
  · exact .pure _
  · refine .get_bind fun site => ?_
    dsimp only
    split
    · exact (silent_evacuate host _ true).map _
    · exact .ite (silent_markFixed _) (.pure _)
    · exact .ite ((silent_evacuate host _ false).map _) (.pure _)

theorem silent_loadWord (addr : Address) : Silent (σ := σ) (δ := δ) (loadWord addr) :=
  .get_bind fun _ => .require _ _

theorem silent_visitSlot (slot : Address) : Silent (visitSlot host slot) := by
  refine .bind (silent_loadWord slot) fun word => .bind (silent_forward host _) fun forwarded => ?_
  exact .ite (.get_bind fun _ => .bind (.require _ _) fun _ => .modifyRegions _) (.pure _)

/-- A visit, by induction over its steps. -/
theorem silent_runVisit (phase : Phase) (program : Visit σ α)
    : Silent (runVisit host phase program) := by
  induction program with
  | done result => exact .pure result
  | getHost next ih => exact .get_bind fun site => ih site.host
  | setHost state next ih => exact .bind (fun _ => rfl) fun _ => ih
  | note line next ih => exact .bind (.report rfl) fun _ => ih
  | isFull next ih => exact .get_bind fun site => ih _
  | load addr next ih => exact .bind (silent_loadWord addr) ih
  | words addr count next ih => exact .get_bind fun _ => .bind (.require _ _) ih
  | visitSlot slot next ih => exact .bind (silent_visitSlot host slot) fun _ => ih
  | visitValue value next ih => exact .bind (silent_forward host value) ih
  | allocate => exact .stop _
  | collect => exact .stop _
  | fail violation => exact .stop violation

theorem silent_visitRemembered (words : List Word) : Silent (visitRemembered host words) := by
  induction words with
  | nil => exact .pure ()
  | cons raw words ih =>
      exact .bind (.require _ _) fun slot => .bind (silent_visitSlot host slot) fun _ => ih

theorem silent_scanFixed (phase : Phase) (scan : Address → Nat → Visit σ Unit) (start : Nat)
    : Silent (scanFixed host phase scan start) := by
  refine .get_bind fun site => ?_
  split
  · exact silent_runVisit host phase _
  · exact .pure ()

theorem silent_scanFixedList (phase : Phase) (scan : Address → Nat → Visit σ Unit)
    (starts : List Nat)
    : Silent (scanFixedList host phase scan starts) := by
  induction starts with
  | nil => exact .pure ()
  | cons start starts ih => exact .bind (silent_scanFixed host phase scan start) fun _ => ih

theorem silent_checkNext (space : Space) (limit : Nat) (object next : Address)
    : Silent (σ := σ) (δ := δ) (checkNext space limit object next) :=
  .ite (.pure _) (.stop _)

/-- Promoted objects, by induction over the number of steps. -/
theorem silent_scanPromoted (phase : Phase) (space : Space) (objects scan : Nat)
    : Silent (scanPromoted host phase space objects scan) := by
  induction objects generalizing scan with
  | zero => exact .pure ()
  | succ objects ih =>
      refine .get_bind fun site => .ite ?_ (.pure ())
      refine .bind (silent_runVisit host phase _) fun next => ?_
      exact .get_bind fun site => .bind (silent_checkNext _ _ _ next) ih

/-- Survivors, by induction over the number of steps. -/
theorem silent_scanSurvivors (phase : Phase) (space : Space) (steps scan : Nat)
    : Silent (scanSurvivors host phase space steps scan) := by
  induction steps generalizing scan with
  | zero => exact .pure ()
  | succ steps ih =>
      refine .get_bind fun site => .ite (.bind (silent_runVisit host phase _) fun next => ?_) ?_
      · exact .get_bind fun site => .bind (silent_checkNext _ _ _ next) ih
      · split
        · exact .pure ()
        · refine .bind (.modifyRegions _) fun _ => ?_
          exact .bind (silent_scanFixed host phase _ _) fun _ => ih scan

/-- What is silent for callbacks is silent in the world. -/
theorem unaltered_onSite {action : Action (Site σ δ) α} (silent : Silent action)
    : Unaltered World.completions (World.onSite action) :=
  fun world => World.runs_onSite.mpr (silent world.site)

/-- Roots, one after another. -/
theorem unaltered_visitRoots (roots : List Root)
    : Unaltered World.completions (visitRoots host roots) := by
  induction roots with
  | nil => exact .pure ()
  | cons root roots ih =>
      refine .bind (.heapNow_bind fun heap => ?_) fun _ => ih
      refine .bind (unaltered_onSite (silent_forward host _)) fun forwarded => ?_
      exact .ite (fun _ => rfl) (.pure ())

theorem unaltered_enterPhase (phase : Phase)
    : Unaltered World.completions (World.enterPhase phase : Action (World σ δ) Unit) := by
  intro world
  rw [World.runs_enterPhase]
  rfl

/-- All that a minor collection traces. -/
theorem unaltered_traceMinor (start : Semispace)
    : Unaltered World.completions (traceMinor host start) := by
  have roots := unaltered_visitRoots host
  have remembered := fun words => unaltered_onSite (silent_visitRemembered host words)
  have fixed := fun phase starts =>
    unaltered_onSite (silent_scanFixedList host phase host.scanFixedMinor starts)
  refine .bind ?_ fun _ => .bind (unaltered_enterPhase _) fun _ =>
    unaltered_onSite (silent_scanPromoted host _ _ _ _)
  refine .heapNow_bind fun heap => .bind (roots _) fun _ => ?_
  refine .heapNow_bind fun heap => .bind (roots _) fun _ => ?_
  refine .heapNow_bind fun heap => .bind (remembered _) fun _ => ?_
  refine .heapNow_bind fun heap => .bind (roots _) fun _ => ?_
  refine .heapNow_bind fun heap => .bind (roots _) fun _ => ?_
  refine .heapNow_bind fun heap => .bind (unaltered_onSite (.modifyRegions _)) fun _ => ?_
  refine .heapNow_bind fun heap => .bind (fixed _ _) fun _ => ?_
  exact .heapNow_bind fun heap => unaltered_onSite (silent_runVisit host _ _)

/-- All that a full collection traces. -/
theorem unaltered_traceFull (target : Semispace) (slots : Nat)
    : Unaltered World.completions (traceFull host target slots) := by
  have roots := unaltered_visitRoots host
  refine .bind ?_ fun _ => .bind (unaltered_enterPhase _) fun _ =>
    unaltered_onSite (silent_scanSurvivors host _ _ _ _)
  refine .heapNow_bind fun heap => .bind (roots _) fun _ => ?_
  refine .heapNow_bind fun heap => .bind (roots _) fun _ => ?_
  refine .heapNow_bind fun heap => .bind (roots _) fun _ => ?_
  refine .heapNow_bind fun heap => .bind (roots _) fun _ => ?_
  exact .heapNow_bind fun heap => unaltered_onSite (silent_runVisit host _ _)

end Visits

-----------------------------------------------------------------------------------------
-- Collections log their end
-----------------------------------------------------------------------------------------

/-- What a heap counts once a full collection has ended, from what it traced and swept. -/
def fullCounters (heap : Heap δ) (outcome : SweepOutcome) : Counters :=
  { heap.counters with
    fullCollections := heap.counters.fullCollections + 1
    lastCopied := heap.regions.copied * wordBytes
    fixedReclaimed := heap.counters.fixedReclaimed + outcome.reclaimed
    destructorsRun := heap.counters.destructorsRun + outcome.destroyed }

section Ends

variable {host : Host σ δ} {reason : Reason} {world : World σ δ} {ended : Unit → World σ δ → Prop}

/-- A minor collection that ends logs its number and the words that it copied. -/
theorem runs_minor_completed
    (traces
      : ∀ log,
          log.filterMap Event.completion? = world.completions →
          Runs (traceMinor host world.heap.regions.old)
            { heap := minorStart world.heap, host := world.host, log }
            (fun _ traced =>
              ∀ final : World σ δ,
                final.heap = minorEnd traced.heap →
                final.completions
                  = .minor world.heap.collections (traced.heap.regions.copied * wordBytes)
                    :: traced.completions →
                ended () final)
            fun _ _ => True)
    : Runs (minor host reason) world ended fun _ _ => True := by
  simp only [minor, nextId, runs_bind, runs_pure, World.runs_heapNow, World.runs_modifyHeap,
    World.runs_modifyRegions, World.runs_enterPhase]
  have traced := traces (.phaseChanged world.heap.phase .scanningRoots :: world.log) rfl
  simp only [traceMinor, runs_bind, World.runs_enterPhase] at traced
  refine Runs.mono traced (fun _ middle rest => ?_) fun _ _ => id
  refine Runs.mono rest (fun _ final done => ?_) fun _ _ => id
  simp only [World.runs_count, World.runs_report, runs_ite, runs_pure]
  split_ifs
  · exact done _ rfl rfl
  · exact done _ rfl rfl

/-- A full collection that ends counts and logs the words that it copied and the objects that it swept. -/
theorem runs_full_completed
    (traces
      : ∀ words log,
          log.filterMap Event.completion? = world.completions →
          Runs (traceFull host (fullTarget world.heap words) world.heap.regions.fixed.slots.length)
            { heap := fullStart world.heap words, host := (host.beforeFull world.host).host, log }
            (fun _ traced =>
              ∀ swept,
                traced.heap.regions.fixed.sweep host.destroy traced.host = .ok swept →
                ∀ final : World σ δ,
                  final.heap
                    = fullEnd traced.heap swept.space (fullCounters traced.heap swept.outcome) →
                  final.completions
                    = .full world.heap.collections (traced.heap.regions.copied * wordBytes)
                        swept.outcome.reclaimed
                      :: traced.completions →
                  ended () final)
            fun _ _ => True)
    : Runs (full host reason) world ended fun _ _ => True := by
  simp only [full, nextId, openTarget, callHook, runs_bind, runs_pure, runs_get,
    World.runs_heapNow, World.runs_modifyHeap, World.runs_onSite, Site.runs_accept,
    World.runs_enterPhase, World.runs_require]
  split
  next words mapped =>
    simp only [World.runs_modifyRegions]
    have traced := traces words (.phaseChanged world.heap.phase .scanningRoots
      :: ((host.beforeFull world.host).notes.map Event.note).reverse ++ world.log)
      (completions_notes _ world.log)
    simp only [traceFull, runs_bind, World.runs_enterPhase, World.runs_onSite] at traced
    refine Runs.mono traced (fun _ middle rest => ?_) fun _ _ => id
    refine Runs.mono rest (fun _ traced done => ?_) fun _ _ => id
    simp only [sweepFixed, runs_bind, runs_get]
    split
    next start corrupt =>
      rw [Site.runs_stop]
      trivial
    next swept sweeps =>
      have ends := done swept sweeps
      have logged : ∀ notes : List String,
          ((notes.map Event.note).reverse ++ .phaseChanged .sweeping .idle
              :: ((swept.notes.map Event.note).reverse
                ++ .phaseChanged .relocating .sweeping :: traced.log)).filterMap Event.completion?
            = traced.log.filterMap Event.completion? := fun notes =>
        (completions_notes notes _).trans (completions_notes swept.notes _)
      simp only [runs_bind, Site.runs_modifyRegions, Site.runs_accept, World.runs_count,
        World.runs_report, runs_ite, runs_pure]
      split_ifs
      · exact ends _ rfl (congrArg (List.cons _) (logged _))
      · exact ends _ rfl (congrArg (List.cons _) (logged _))
  next => trivial

end Ends

end Collector

end MovingHeap
