import MovingHeap.Proofs.FixedRuns
import MovingHeap.Proofs.Maintenance
import MovingHeap.Proofs.Strides

/-! No operation finds a corrupt fixed slot.
Sweeps are the only part of the collector that looks for one, and they begin on fixed spaces that are
in order; what is left are hosts that report one by themselves.
-/

namespace MovingHeap

variable {ω σ δ α β : Type}

/-- Whether the violation is a fixed slot that does not fit. -/
def Violation.isCorrupt : Violation → Bool
  | corruptFixedHeader _ => true
  | _ => false

/-- The program does not report a corrupt slot by itself. -/
def Visit.Trusts : Visit σ α → Prop
  | done _ => True
  | getHost next => ∀ state, (next state).Trusts
  | setHost _ next => next.Trusts
  | note _ next => next.Trusts
  | isFull next => ∀ full, (next full).Trusts
  | load _ next => ∀ word, (next word).Trusts
  | words _ _ next => ∀ list, (next list).Trusts
  | visitSlot _ next => next.Trusts
  | visitValue _ next => ∀ moved, (next moved).Trusts
  | allocate => True
  | collect => True
  | fail violation => violation.isCorrupt = false

/-- No visit of the host reports a corrupt slot by itself. -/
structure Host.Trusts (host : Host σ δ) : Prop where
  scanMinor : ∀ object, (host.scanMinor object).Trusts
  scanFull : ∀ object, (host.scanFull object).Trusts
  scanFixedMinor : ∀ object words, (host.scanFixedMinor object words).Trusts
  scanFixedFull : ∀ object words, (host.scanFixedFull object words).Trusts
  extraMinorRoots : host.extraMinorRoots.Trusts
  extraFullRoots : host.extraFullRoots.Trusts

namespace Visit
/-- A program that trusts the slots may go on as one, by induction over its steps. -/
theorem Trusts.bind {visit : Visit σ α} {rest : α → Visit σ β} (trusts : visit.Trusts)
    (continues : ∀ result, (rest result).Trusts)
    : (visit >>= rest).Trusts := by
  change (visit.bind rest).Trusts
  induction visit with
  | done result => exact continues result
  | getHost next ih => exact fun state => ih state (trusts state)
  | setHost _ next ih => exact ih trusts
  | note _ next ih => exact ih trusts
  | isFull next ih => exact fun full => ih full (trusts full)
  | load _ next ih => exact fun word => ih word (trusts word)
  | words _ _ next ih => exact fun list => ih list (trusts list)
  | visitSlot _ next ih => exact ih trusts
  | visitValue _ next ih => exact fun moved => ih moved (trusts moved)
  | allocate => trivial
  | collect => trivial
  | fail _ => exact trusts

/-- One program after another, by induction over the list. -/
theorem trusts_forM {items : List α} {each : α → Visit σ PUnit} (trusts : ∀ item, (each item).Trusts)
    : (items.forM each).Trusts := by
  induction items with
  | nil => trivial
  | cons item items ih => exact (trusts item).bind fun _ => ih
end Visit

-----------------------------------------------------------------------------------------
-- Parts of operations
-----------------------------------------------------------------------------------------

/-- Wherever the action is stopped, it is for something else than a corrupt slot. -/
def Intact (action : Action ω α) : Prop :=
  ∀ state, Runs action state (fun _ _ => True) fun violation _ => violation.isCorrupt = false

namespace Intact

theorem pure (result : α) : Intact (Pure.pure result : Action ω α) := fun _ => trivial

theorem modify (change : ω → ω) : Intact (modify change : Action ω PUnit) :=
  fun _ => runs_modify.mpr trivial

/-- One action after another. -/
theorem bind {action : Action ω α} {next : α → Action ω β} (first : Intact action)
    (second : ∀ result, Intact (next result))
    : Intact (action >>= next) := by
  intro state
  apply runs_bind.mpr
  exact (first state).mono (fun result middle _ => second result middle) fun _ _ => id

/-- Looking at the state first. -/
theorem get_bind {next : ω → Action ω α} (second : ∀ state, Intact (next state))
    : Intact (get >>= next) :=
  fun state => second state state

theorem map {action : Action ω α} (intact : Intact action) (change : α → β)
    : Intact (change <$> action) :=
  fun state => runs_map.mpr (intact state)

theorem ite {condition : Prop} [Decidable condition] {action other : Action ω α}
    (holds : Intact action) (fails : Intact other)
    : Intact (if condition then action else other) := by
  split_ifs
  · exact holds
  · exact fails

theorem stop {violation : Violation} (other : violation.isCorrupt = false)
    : Intact (Site.stop violation : Action (Site σ δ) α) :=
  fun _ => Site.runs_stop.mpr other

theorem require (found : Option α) {violation : Violation} (other : violation.isCorrupt = false)
    : Intact (Site.require found violation : Action (Site σ δ) α) := by
  cases found with
  | none => exact stop other
  | some result => exact pure result

theorem accept (reply : Reply σ α) : Intact (Site.accept reply : Action (Site σ δ) α) :=
  .bind (.modify _) fun _ => .pure _

/-- Parts of operations that work on what callbacks see. -/
theorem onSite {action : Action (Site σ δ) α} (intact : Intact action)
    : Intact (World.onSite action) :=
  fun world => World.runs_onSite.mpr ((intact world.site).mono (fun _ _ => id) fun _ _ => id)

theorem heapNow_bind {next : Heap δ → Action (World σ δ) α}
    (second : ∀ heap, Intact (next heap))
    : Intact (World.heapNow >>= next) :=
  fun world => second world.heap world

theorem enterPhase (phase : Phase) : Intact (World.enterPhase phase : Action (World σ δ) Unit) :=
  fun _ => World.runs_enterPhase.mpr trivial

theorem check {result : Except Violation α}
    (other : ∀ violation, result = .error violation → violation.isCorrupt = false)
    : Intact (World.check result : Action (World σ δ) α) := by
  cases result with
  | ok value => exact pure value
  | error violation => exact onSite (stop (other violation rfl))

end Intact

-----------------------------------------------------------------------------------------
-- Tracing
-----------------------------------------------------------------------------------------

namespace Collector

variable {host : Host σ δ}

theorem intact_forward (host : Host σ δ) (value : Value) : Intact (forward host value) := by
  have evacuates : ∀ (addr : Address) (young : Bool), Intact (evacuate host addr young) := by
    intro addr young
    refine .get_bind fun site => .ite (.stop rfl) (.ite (.require _ rfl) ?_)
    refine .get_bind fun site => .bind (.accept _) fun copied => .bind (.modify _) fun _ => ?_
    exact .bind (.require _ rfl) fun extended => .bind (.modify _) fun _ => .pure _
  unfold forward
  split
  · exact .pure _
  · refine .get_bind fun site => ?_
    dsimp only
    split
    · exact .map (evacuates _ true) _
    · refine .ite (.get_bind fun _ => .bind (.require _ rfl) fun found => ?_) (.pure _)
      refine .bind (.modify _) fun _ => ?_
      split
      · exact .bind (.modify _) fun _ => .pure _
      · exact .pure _
      · exact .pure _
    · exact .ite (.map (evacuates _ false) _) (.pure _)

theorem intact_visitSlot (host : Host σ δ) (slot : Address) : Intact (visitSlot host slot) :=
  .bind (.get_bind fun _ => .require _ rfl) fun _ =>
    .bind (intact_forward host _) fun _ =>
      .ite (.get_bind fun _ => .bind (.require _ rfl) fun _ => .modify _) (.pure _)

/-- A visit, by induction over its steps. -/
theorem intact_runVisit (host : Host σ δ) (phase : Phase) {program : Visit σ α}
    (trusts : program.Trusts)
    : Intact (runVisit host phase program) := by
  induction program with
  | done result => exact .pure result
  | getHost next ih => exact .get_bind fun site => ih site.host (trusts site.host)
  | setHost state next ih => exact .bind (.modify _) fun _ => ih trusts
  | note line next ih => exact .bind (.modify _) fun _ => ih trusts
  | isFull next ih => exact .get_bind fun site => ih _ (trusts _)
  | load addr next ih =>
      exact .bind (.get_bind fun _ => .require _ rfl) fun word => ih word (trusts word)
  | words addr count next ih =>
      exact .get_bind fun _ => .bind (.require _ rfl) fun list => ih list (trusts list)
  | visitSlot slot next ih => exact .bind (intact_visitSlot host slot) fun _ => ih trusts
  | visitValue value next ih =>
      exact .bind (intact_forward host value) fun moved => ih moved (trusts moved)
  | allocate => exact .stop rfl
  | collect => exact .stop rfl
  | fail violation => exact .stop trusts

/-- Recorded slots, one after another. -/
theorem intact_visitRemembered (host : Host σ δ) (words : List Word)
    : Intact (visitRemembered host words) := by
  induction words with
  | nil => exact .pure ()
  | cons raw words ih =>
      exact .bind (.require _ rfl) fun slot => .bind (intact_visitSlot host slot) fun _ => ih

/-- Roots, one after another. -/
theorem intact_visitRoots (host : Host σ δ) (roots : List Root)
    : Intact (visitRoots host roots) := by
  induction roots with
  | nil => exact .pure ()
  | cons root roots ih =>
      refine .bind (.heapNow_bind fun _ => .bind (.onSite (intact_forward host _)) fun _ => ?_)
        fun _ => ih
      exact .ite (.modify _) (.pure _)

theorem intact_scanFixed (host : Host σ δ) (phase : Phase)
    {scan : Address → Nat → Visit σ Unit} (trusts : ∀ object words, (scan object words).Trusts)
    (start : Nat)
    : Intact (scanFixed host phase scan start) := by
  refine .get_bind fun site => ?_
  split
  · exact intact_runVisit host phase (trusts _ _)
  · exact .pure ()

/-- Fixed objects, one after another. -/
theorem intact_scanFixedList (host : Host σ δ) (phase : Phase)
    {scan : Address → Nat → Visit σ Unit} (trusts : ∀ object words, (scan object words).Trusts)
    (starts : List Nat)
    : Intact (scanFixedList host phase scan starts) := by
  induction starts with
  | nil => exact .pure ()
  | cons start starts ih => exact .bind (intact_scanFixed host phase trusts start) fun _ => ih

theorem intact_checkNext (space : Space) (limit : Nat) (object next : Address)
    : Intact (checkNext space limit object next : Action (Site σ δ) Nat) :=
  .ite (.pure _) (.stop rfl)

/-- Promoted objects, by induction over the number of steps. -/
theorem intact_scanPromoted (trusts : host.Trusts) (phase : Phase) (space : Space)
    (objects scan : Nat)
    : Intact (scanPromoted host phase space objects scan) := by
  induction objects generalizing scan with
  | zero => exact .pure ()
  | succ objects ih =>
      refine .get_bind fun site => .ite ?_ (.pure _)
      refine .bind (intact_runVisit host phase (trusts.scanMinor _)) fun next => ?_
      exact .get_bind fun site => .bind (intact_checkNext _ _ _ _) ih

/-- Survivors, by induction over the number of steps. -/
theorem intact_scanSurvivors (trusts : host.Trusts) (phase : Phase) (space : Space)
    (steps scan : Nat)
    : Intact (scanSurvivors host phase space steps scan) := by
  induction steps generalizing scan with
  | zero => exact .pure ()
  | succ steps ih =>
      refine .get_bind fun site => .ite ?_ ?_
      · refine .bind (intact_runVisit host phase (trusts.scanFull _)) fun next => ?_
        exact .get_bind fun site => .bind (intact_checkNext _ _ _ _) ih
      · split
        · exact .pure ()
        · exact .bind (.modify _) fun _ =>
            .bind (intact_scanFixed host phase trusts.scanFixedFull _) fun _ => ih _

theorem intact_visit (host : Host σ δ) {program : Visit σ α} (trusts : program.Trusts)
    : Intact (visit host program) :=
  .heapNow_bind fun _ => .onSite (intact_runVisit host _ trusts)

theorem intact_traceFull (trusts : host.Trusts) (target : Semispace) (slots : Nat)
    : Intact (traceFull host target slots) := by
  have roots : Intact (visitFullRoots host) :=
    .heapNow_bind fun _ => .bind (intact_visitRoots host _) fun _ =>
    .heapNow_bind fun _ => .bind (intact_visitRoots host _) fun _ =>
    .heapNow_bind fun _ => .bind (intact_visitRoots host _) fun _ =>
    .heapNow_bind fun _ => .bind (intact_visitRoots host _) fun _ =>
    intact_visit host trusts.extraFullRoots
  exact .bind roots fun _ => .bind (.enterPhase _) fun _ =>
    .onSite (intact_scanSurvivors trusts _ _ _ _)

theorem intact_traceMinor (trusts : host.Trusts) (start : Semispace)
    : Intact (traceMinor host start) := by
  have roots : Intact (visitMinorRoots host) :=
    .heapNow_bind fun _ => .bind (intact_visitRoots host _) fun _ =>
    .heapNow_bind fun _ => .bind (intact_visitRoots host _) fun _ =>
    .heapNow_bind fun _ => .bind (.onSite (intact_visitRemembered host _)) fun _ =>
    .heapNow_bind fun _ => .bind (intact_visitRoots host _) fun _ =>
    .heapNow_bind fun _ => .bind (intact_visitRoots host _) fun _ =>
    .heapNow_bind fun _ => .bind (.onSite (.modify _)) fun _ =>
    .heapNow_bind fun _ =>
      .bind (.onSite (intact_scanFixedList host _ trusts.scanFixedMinor _)) fun _ =>
    intact_visit host trusts.extraMinorRoots
  exact .bind roots fun _ => .bind (.enterPhase _) fun _ =>
    .onSite (intact_scanPromoted trusts _ _ _ _)

-----------------------------------------------------------------------------------------
-- Collections
-----------------------------------------------------------------------------------------

theorem intact_minor (trusts : host.Trusts) (reason : Reason) : Intact (minor host reason) := by
  intro world
  apply runs_minor
  intro log
  exact (intact_traceMinor trusts _ _).mono (fun _ _ _ _ _ _ => trivial) fun _ _ => id

/-- A full collection of a regular heap sweeps a fixed space that is in order. -/
theorem intact_full (trusts : host.Trusts) (reason : Reason) {world : World σ δ}
    (regular : world.heap.Regular)
    : Runs (full host reason) world (fun _ _ => True)
        fun violation _ => violation.isCorrupt = false := by
  refine runs_full (fun words mapped log => ?_) fun _ _ _ => rfl
  have isFull : (fullStart world.heap words).regions.isFull := rfl
  refine ((comes_traceFull host _ _ isFull).and (intact_traceFull trusts _ _ _)).mono ?_
    fun _ _ => And.right
  intro _ traced reached
  have consistent := reached.1.regions.consistent regular.consistent
  obtain ⟨swept, sweep, -⟩ := consistent.sweep host.destroy traced.host
  rw [sweep]
  exact fun _ _ _ => trivial

/-- Collections on demand. -/
theorem intact_collectFor (trusts : host.Trusts) (words : Nat) (wantsFull : Bool)
    (reason : Reason) {world : World σ δ}
    (regular : world.heap.phase = .idle → world.heap.Regular)
    : Runs (collectFor host words wantsFull reason) world (fun _ _ => True)
        fun violation _ => violation.isCorrupt = false := by
  apply runs_collectFor
  · exact fun _ _ => rfl
  · exact fun _ _ => rfl
  · exact fun idle _ pending => intact_full trusts pending (regular idle)
  · intro idle _
    have held := regular idle
    refine ((collects_minor host reason held).and (intact_minor trusts reason world)).mono ?_
      fun _ _ => And.right
    intro _ middle reached
    split_ifs
    exact intact_full trusts _ reached.1.steady.toRegular

end Collector

-----------------------------------------------------------------------------------------
-- Operations
-----------------------------------------------------------------------------------------

namespace World

/-- On a heap that is steady unless a collection runs, the action is stopped for something else than a
corrupt slot.
-/
def Spotless (action : Action (World σ δ) α) : Prop :=
  ∀ world,
    (world.heap.phase = .idle → world.heap.Steady) →
    Runs action world (fun _ _ => True) fun violation _ => violation.isCorrupt = false

namespace Spotless

theorem of_intact {action : Action (World σ δ) α} (intact : Intact action) : Spotless action :=
  fun world _ => intact world

theorem map {action : Action (World σ δ) α} (spotless : Spotless action) (change : α → β)
    : Spotless (change <$> action) :=
  fun world steady => runs_map.mpr (spotless world steady)

/-- One action after another, as the first leaves a heap that is steady unless a collection runs. -/
theorem bind {action : Action (World σ δ) α} {next : α → Action (World σ δ) β}
    (lasting : Lasting action) (first : Spotless action)
    (second : ∀ result, Spotless (next result))
    : Spotless (action >>= next) := by
  intro world steady
  apply runs_bind.mpr
  refine ((lasting world).and (first world steady)).mono (fun result middle reached => ?_)
    fun _ _ => And.right
  exact second result middle fun rests => reached.1.steady rests (steady (reached.1.idle rests))

end Spotless

section Operations

variable {host : Host σ δ} (trusts : host.Trusts)

theorem intact_ensureIdle : Intact (ensureIdle : Action (World σ δ) Unit) :=
  .heapNow_bind fun _ => .ite (.onSite (.stop rfl)) (.pure ())

theorem intact_store (addr : Address) (word : Word)
    : Intact (store addr word : Action (World σ δ) Unit) :=
  .heapNow_bind fun _ => .bind (.onSite (.require _ rfl)) fun _ => .onSite (.modify _)

/-- Handles that are not known are no corrupt slots. -/
theorem isCorrupt_frame {frames : FrameStack} {id : FrameId} {violation : Violation}
    (refused : frames.frame id = .error violation)
    : violation.isCorrupt = false := by
  unfold FrameStack.frame at refused
  split at refused
  · cases refused
  · cases refused
    rfl

theorem isCorrupt_pop {frames : FrameStack} {id : FrameId} {violation : Violation}
    (refused : frames.pop id = .error violation)
    : violation.isCorrupt = false := by
  unfold FrameStack.pop at refused
  split at refused
  · split_ifs at refused
    cases refused
    rfl
  · cases refused
    rfl

theorem isCorrupt_position {frames : FrameStack} {id : FrameId} {kind : SlotKind} {index : Nat}
    {violation : Violation} (refused : frames.position id kind index = .error violation)
    : violation.isCorrupt = false := by
  unfold FrameStack.position at refused
  cases found : frames.frame id with
  | error other =>
      rw [found] at refused
      cases refused
      exact isCorrupt_frame found
  | ok frame =>
      rw [found] at refused
      change (if index < frame.descriptor.count kind then Except.ok _ else Except.error _) = _
        at refused
      split_ifs at refused
      cases refused
      rfl

/-- What is made of an answer is refused as the answer is. -/
theorem error_of_map {result : Except Violation α} {change : α → β} {violation : Violation}
    (refused : change <$> result = .error violation)
    : result = .error violation := by
  cases result with
  | ok value => cases refused
  | error other =>
      cases refused
      rfl

theorem intact_updateModules (result : Except ModuleError ModuleTable)
    : Intact (updateModules result : Action (World σ δ) (Except ModuleError Unit)) := by
  cases result with
  | error error => exact .pure _
  | ok modules => exact .bind (.modify _) fun _ => .pure _

theorem intact_closeBlock (block : Block) (result : Except Thrown α)
    : Intact (closeBlock block result : Action (World σ δ) (Except Thrown α)) := by
  refine .heapNow_bind fun _ => .bind (.modify _) fun _ => ?_
  cases result with
  | ok value => exact .heapNow_bind fun _ => .ite (.onSite (.stop rfl)) (.pure _)
  | error thrown =>
      exact .bind (.modify _) fun _ => .heapNow_bind fun _ => .ite (.onSite (.stop rfl)) (.pure _)

include trusts

theorem spotless_collectFor (words : Nat) (wantsFull : Bool) (reason : Reason)
    : Spotless (Collector.collectFor host words wantsFull reason) :=
  fun _ steady => Collector.intact_collectFor trusts words wantsFull reason
    fun idle => (steady idle).toRegular

theorem spotless_reserve (size stride : Nat) : Spotless (reserve host size stride) := by
  intro world steady
  apply runs_reserve
  · exact fun _ => rfl
  · exact fun _ => trivial
  · exact fun wantsFull reason _ => (spotless_collectFor trusts _ wantsFull reason world steady).mono
      (fun _ _ => id) fun _ _ => id

theorem spotless_allocateAligned (size align : Nat)
    : Spotless (allocateAligned host size align) := by
  apply Spotless.bind lasting_ensureIdle (.of_intact intact_ensureIdle)
  intro _
  split_ifs
  · exact spotless_reserve trusts size _
  · exact .of_intact (.onSite (.stop rfl))

theorem spotless_notifyStore (slot : Address) : Spotless (notifyStore host slot) := by
  intro world steady
  apply runs_notifyStore
  · exact fun _ => trivial
  · exact fun _ _ => trivial
  · exact fun _ _ => trivial
  · intro _
    refine Collector.intact_collectFor trusts 0 false _ fun idle => ?_
    exact regular_recorded (steady idle) slot

theorem spotless_storeNotified (slot : Address) (word : Word)
    : Spotless (do store slot word; notifyStore host slot) :=
  .bind (lasting_store slot word) (.of_intact (intact_store slot word))
    fun _ => spotless_notifyStore trusts slot

theorem spotless_write (slot : Address) (value : Value) : Spotless (write host slot value) := by
  apply Spotless.bind (lasting_store slot value.raw) (.of_intact (intact_store slot value.raw))
  intro _
  split_ifs
  · exact spotless_notifyStore trusts slot
  · exact .of_intact (.pure ())

end Operations

end World

/-- No operation on a heap that is steady unless a collection runs finds a corrupt slot, if its host
reports none.
-/
theorem Operation.spotless_run {host : Host σ δ} (trusts : host.Trusts) (operation : Operation δ)
    : World.Spotless (operation.run host) := by
  cases operation with
  | allocate size =>
      exact .map (.bind World.lasting_ensureIdle (.of_intact World.intact_ensureIdle)
        fun _ => World.spotless_reserve trusts size 1) _
  | allocateAligned size align => exact (World.spotless_allocateAligned trusts size align).map _
  | allocateFixed size destructor executable =>
      refine .map (.of_intact (.bind World.intact_ensureIdle fun _ => .heapNow_bind fun _ => ?_)) _
      refine .bind (.onSite (.modify _)) fun _ => .bind (.modify _) fun _ => ?_
      refine .heapNow_bind fun _ => ?_
      dsimp only
      split_ifs
      · exact .bind (.modify _) fun _ => .pure _
      · exact .pure _
  | forgetFixed object =>
      exact .of_intact (.heapNow_bind fun _ => .bind (.onSite (.require _ rfl)) fun _ =>
        .onSite (.modify _))
  | requestFull reason => exact .of_intact (.modify _)
  | load addr => exact .map (.of_intact (.heapNow_bind fun _ => .onSite (.require _ rfl))) _
  | store addr word => exact .of_intact (World.intact_store addr word)
  | notifyStore slot => exact World.spotless_notifyStore trusts slot
  | storeNotified slot value => exact World.spotless_storeNotified trusts slot value.raw
  | write slot value => exact World.spotless_write trusts slot value
  | enterFrame descriptor params =>
      refine .map (.of_intact (.heapNow_bind fun _ => .bind (.check fun violation refused => ?_)
        fun _ => .bind (.modify _) fun _ => .pure _)) _
      unfold FrameStack.push at refused
      split_ifs at refused
      cases refused
      rfl
  | exitFrame id =>
      exact .of_intact (.heapNow_bind fun _ => .bind (.check fun _ => World.isCorrupt_pop)
        fun _ => .modify _)
  | frameDescriptor id =>
      exact .map (.of_intact (.heapNow_bind fun _ =>
        .check fun _ refused => World.isCorrupt_frame (World.error_of_map refused))) _
  | frameSlot id kind index =>
      exact .map (.of_intact (.heapNow_bind fun _ =>
        .check fun _ refused => World.isCorrupt_position (World.error_of_map refused))) _
  | setFrameSlot id kind index value =>
      exact .of_intact (.heapNow_bind fun _ =>
        .bind (.check fun _ refused => World.isCorrupt_position (World.error_of_map refused))
          fun _ => .modify _)
  | openBlock => exact .map (.of_intact (.heapNow_bind fun _ => .bind (.modify _) fun _ => .pure _)) _
  | closeBlock block result => exact .map (.of_intact (World.intact_closeBlock block result)) _
  | throwException code payload =>
      exact .map (.of_intact (.heapNow_bind fun _ => .bind (.onSite (.require _ rfl)) fun _ =>
        .bind (.modify _) fun _ => .pure _)) _
  | loadModule loader name searchPath wanted =>
      refine .map (.of_intact (.heapNow_bind fun _ => ?_)) _
      dsimp only
      split
      · exact .pure _
      · split
        · exact .bind (.onSite (.modify _)) fun _ => .pure _
        · exact .bind (.onSite (.modify _)) fun _ => .bind (.modify _) fun _ => .pure _
  | unloadModule rank =>
      refine .map (.of_intact (.heapNow_bind fun _ => ?_)) _
      split
      · exact .pure _
      · exact .bind (.onSite (.modify _)) fun _ => .bind (.modify _) fun _ => .pure _
  | setModuleConstant rank value =>
      exact .map (.of_intact (.heapNow_bind fun _ => World.intact_updateModules _)) _
  | setModuleExtra rank extra =>
      exact .map (.of_intact (.heapNow_bind fun _ => World.intact_updateModules _)) _
  | setConstant index value => exact .of_intact (.modify _)
  | collect size wantsFull => exact World.spotless_collectFor trusts _ wantsFull _
  | collectMinor => exact World.spotless_collectFor trusts 0 false _
  | collectFull => exact World.spotless_collectFor trusts 0 true _

end MovingHeap
