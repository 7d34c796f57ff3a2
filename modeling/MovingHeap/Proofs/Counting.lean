import MovingHeap.Proofs.Recording

/-! Hosts whose scans are counted.
Whatever host is given, it can be made to keep a list of the objects it is asked to scan, and its
collections do the same as before but for that list.
-/

namespace MovingHeap

variable {ω ω' σ δ α β γ : Type}

-----------------------------------------------------------------------------------------
-- Hosts that count
-----------------------------------------------------------------------------------------

/-- A request to visit what an object refers to. -/
inductive Scan where
  | minor (object : Address)
  | full (object : Address)
  | fixedMinor (object : Address)
  | fixedFull (object : Address)
  deriving DecidableEq, Repr

namespace Scan

/-- Whether a moving object is scanned in a minor collection. -/
def isMinor : Scan → Bool
  | minor _ => true
  | _ => false

/-- Whether a moving object is scanned in a full collection. -/
def isFull : Scan → Bool
  | full _ => true
  | _ => false

/-- The fixed object that is scanned in a minor collection. -/
def fixedMinor? : Scan → Option Address
  | fixedMinor object => some object
  | _ => none

/-- The fixed object that is scanned in a full collection. -/
def fixedFull? : Scan → Option Address
  | fixedFull object => some object
  | _ => none

end Scan

/-- The visit with a scan put on the list first. -/
def Visit.counted (visit : Visit σ α) (scan : Scan) : Visit (σ × List Scan) α :=
  getHost fun state => setHost (state.1, scan :: state.2) visit.beside

/-- The host with a list of its scans beside its state, the newest first. -/
def Host.counting (host : Host σ δ) : Host (σ × List Scan) δ where
  mapper := host.mapper
  copy destination source state := (host.copy destination source state.1).beside state.2
  scanMinor object := (host.scanMinor object).counted (.minor object)
  scanFull object := (host.scanFull object).counted (.full object)
  scanFixedMinor object words := (host.scanFixedMinor object words).counted (.fixedMinor object)
  scanFixedFull object words := (host.scanFixedFull object words).counted (.fixedFull object)
  extraMinorRoots := host.extraMinorRoots.beside
  extraFullRoots := host.extraFullRoots.beside
  beforeFull state := (host.beforeFull state.1).beside state.2
  afterFull state := (host.afterFull state.1).beside state.2
  destroy destructor object words state :=
    (host.destroy destructor object words state.1).beside state.2

/-- The site without what is beside the state of the host. -/
def Site.aside (site : Site (σ × β) δ) : Site σ δ := ⟨site.regions, site.host.1, site.log⟩

/-- The world without what is beside the state of the host. -/
def World.aside (world : World (σ × β) δ) : World σ δ := ⟨world.heap, world.host.1, world.log⟩

/-- The world with something beside the state of the host. -/
def World.beside (world : World σ δ) (kept : β) : World (σ × β) δ :=
  ⟨world.heap, (world.host, kept), world.log⟩

-----------------------------------------------------------------------------------------
-- Actions that do the same
-----------------------------------------------------------------------------------------

/-- The first action does what the second one does, with more in its state. -/
def Reflects (forget : ω' → ω) (fine : Action ω' α) (coarse : Action ω α) : Prop :=
  ∀ state,
    Runs fine state (fun result final => coarse (forget state) = .ok result (forget final))
      fun violation final => coarse (forget state) = .error violation (forget final)

namespace Reflects

variable {forget : ω' → ω}

theorem pure (result : α) : Reflects forget (Pure.pure result) (Pure.pure result) := fun _ => rfl

theorem throw (violation : Violation)
    : Reflects (α := α) forget (MonadExcept.throw violation) (MonadExcept.throw violation) :=
  fun _ => rfl

/-- A change of the state. -/
theorem changes {change : ω' → ω'} {changed : ω → ω}
    (same : ∀ state, forget (change state) = changed (forget state))
    : Reflects forget (modify change) (modify changed) := fun state =>
  congrArg (EStateM.Result.ok ()) (same state).symm

/-- One action after another. -/
theorem bind {fine : Action ω' α} {coarse : Action ω α} {next : α → Action ω' β}
    {rest : α → Action ω β} (first : Reflects forget fine coarse)
    (second : ∀ result, Reflects forget (next result) (rest result))
    : Reflects forget (fine >>= next) (coarse >>= rest) := by
  intro state
  apply runs_bind.mpr
  refine (first state).mono ?_ ?_
  · intro result middle done
    have onward : (coarse >>= rest) (forget state) = rest result (forget middle) := by
      change EStateM.bind coarse rest (forget state) = _
      simp only [EStateM.bind, done]
    rw [onward]
    exact second result middle
  · intro violation final stopped
    change EStateM.bind coarse rest (forget state) = _
    simp only [EStateM.bind, stopped]

/-- Looking at the state first. -/
theorem get_bind {next : ω' → Action ω' α} {rest : ω → Action ω α}
    (second : ∀ state, Reflects forget (next state) (rest (forget state)))
    : Reflects forget (get >>= next) (get >>= rest) :=
  fun state => second state state

/-- Looking at what is more in the state. -/
theorem look {next : ω' → Action ω' α} {coarse : Action ω α}
    (second : ∀ state, Reflects forget (next state) coarse)
    : Reflects forget (get >>= next) coarse :=
  fun state => second state state

/-- Choosing between two actions. -/
theorem ite {condition : Prop} [Decidable condition] {fine other : Action ω' α}
    {coarse another : Action ω α} (first : Reflects forget fine coarse)
    (second : Reflects forget other another)
    : Reflects forget (if condition then fine else other)
        (if condition then coarse else another) := by
  split_ifs
  · exact first
  · exact second

theorem map {fine : Action ω' α} {coarse : Action ω α} (same : Reflects forget fine coarse)
    (change : α → β)
    : Reflects forget (change <$> fine) (change <$> coarse) := by
  rw [map_eq_pure_bind, map_eq_pure_bind]
  exact same.bind fun _ => pure _

end Reflects

namespace Site

theorem reflects_report (event : Event)
    : Reflects (aside (σ := σ) (β := β) (δ := δ)) (report event) (report event) :=
  .changes fun _ => rfl

theorem reflects_stop (violation : Violation)
    : Reflects (α := α) (aside (σ := σ) (β := β) (δ := δ)) (stop violation) (stop violation) :=
  .bind (reflects_report _) fun _ => .throw violation

theorem reflects_require (found : Option α) (violation : Violation)
    : Reflects (aside (σ := σ) (β := β) (δ := δ)) (require found violation)
        (require found violation) := by
  cases found with
  | none => exact reflects_stop violation
  | some result => exact .pure result

theorem reflects_modifyRegions (change : Regions δ → Regions δ)
    : Reflects (aside (σ := σ) (β := β)) (modifyRegions change) (modifyRegions change) :=
  .changes fun _ => rfl

/-- A reply that is the same but for what is beside the state. -/
theorem reflects_accept (reply : Reply σ α) (kept : β)
    : Reflects (aside (δ := δ)) (accept (reply.beside kept)) (accept reply) :=
  .bind (.changes fun _ => rfl) fun _ => .pure _

end Site

-----------------------------------------------------------------------------------------
-- Tracing
-----------------------------------------------------------------------------------------

namespace Collector

variable (host : Host σ δ)

theorem reflects_relocate (object : Address) (young : Bool)
    : Reflects Site.aside (relocate host.counting object young) (relocate host object young) := by
  refine .get_bind fun site => .bind (Site.reflects_accept _ _) fun copied => ?_
  refine .bind (Site.reflects_modifyRegions _) fun _ => .bind (Site.reflects_require _ _) fun _ => ?_
  exact .bind (Site.reflects_modifyRegions _) fun _ => .pure _

theorem reflects_evacuate (object : Address) (young : Bool)
    : Reflects Site.aside (evacuate host.counting object young) (evacuate host object young) := by
  refine .get_bind fun site => .ite (Site.reflects_stop _) ?_
  exact .ite (Site.reflects_require _ _) (reflects_relocate host object young)

theorem reflects_markFixed (addr : Address)
    : Reflects (Site.aside (σ := σ) (β := β) (δ := δ)) (markFixed addr) (markFixed addr) := by
  refine .get_bind fun site => .bind (Site.reflects_require _ _) fun found => ?_
  obtain ⟨mark, fixed⟩ := found
  refine .bind (Site.reflects_modifyRegions _) fun _ => ?_
  cases mark with
  | fresh start => exact .bind (Site.reflects_modifyRegions _) fun _ => .pure _
  | already => exact .pure _
  | forgotten => exact .pure _

theorem reflects_forward (value : Value)
    : Reflects Site.aside (forward host.counting value) (forward host value) := by
  unfold forward
  split
  next => exact .pure _
  next addr _ =>
    refine .get_bind fun site => ?_
    dsimp only
    split
    · exact (reflects_evacuate host addr true).map _
    · exact .ite (reflects_markFixed addr) (.pure _)
    · exact .ite ((reflects_evacuate host addr false).map _) (.pure _)

theorem reflects_loadWord (addr : Address)
    : Reflects (Site.aside (σ := σ) (β := β) (δ := δ)) (loadWord addr) (loadWord addr) :=
  .get_bind fun _ => Site.reflects_require _ _

theorem reflects_visitSlot (slot : Address)
    : Reflects Site.aside (visitSlot host.counting slot) (visitSlot host slot) := by
  refine .bind (reflects_loadWord slot) fun word => .bind (reflects_forward host _) fun moved => ?_
  split_ifs
  · refine .get_bind fun _ => .bind (Site.reflects_require _ _) fun _ => ?_
    exact Site.reflects_modifyRegions _
  · exact .pure _

/-- A visit, by induction over its steps. -/
theorem reflects_beside (phase : Phase) (visit : Visit σ α)
    : Reflects Site.aside (runVisit host.counting phase visit.beside)
        (runVisit host phase visit) := by
  induction visit with
  | done result => exact .pure result
  | getHost next ih => exact .get_bind fun site => ih site.host.1
  | setHost state next ih =>
      exact .look fun site => .bind (.changes fun _ => rfl) fun _ => ih
  | note line next ih => exact .bind (Site.reflects_report _) fun _ => ih
  | isFull next ih => exact .get_bind fun site => ih site.regions.isFull
  | load addr next ih => exact .bind (reflects_loadWord addr) ih
  | words addr count next ih =>
      exact .get_bind fun _ => .bind (Site.reflects_require _ _) ih
  | visitSlot slot next ih => exact .bind (reflects_visitSlot host slot) fun _ => ih
  | visitValue value next ih => exact .bind (reflects_forward host value) ih
  | allocate => exact Site.reflects_stop _
  | collect => exact Site.reflects_stop _
  | fail violation => exact Site.reflects_stop violation

/-- A visit that was put on the list first. -/
theorem reflects_counted (phase : Phase) (visit : Visit σ α) (scan : Scan)
    : Reflects Site.aside (runVisit host.counting phase (visit.counted scan))
        (runVisit host phase visit) := by
  intro site
  exact reflects_beside host phase visit
    { site with host := (site.host.1, scan :: site.host.2) }

/-- Recorded slots, one after another. -/
theorem reflects_visitRemembered (words : List Word)
    : Reflects Site.aside (visitRemembered host.counting words) (visitRemembered host words) := by
  induction words with
  | nil => exact .pure ()
  | cons raw words ih =>
      exact .bind (Site.reflects_require _ _) fun slot =>
        .bind (reflects_visitSlot host slot) fun _ => ih

/-- A fixed object that is scanned by visits that were put on the list. -/
theorem reflects_scanFixed (phase : Phase) (scan : Address → Nat → Visit σ Unit)
    (named : Address → Scan) (start : Nat)
    : Reflects Site.aside
        (scanFixed host.counting phase
          (fun object words => (scan object words).counted (named object)) start)
        (scanFixed host phase scan start) := by
  refine .get_bind fun site => ?_
  dsimp only [Site.aside]
  split
  · exact reflects_counted host phase _ _
  · exact .pure ()

/-- Fixed objects, one after another. -/
theorem reflects_scanFixedList (phase : Phase) (scan : Address → Nat → Visit σ Unit)
    (named : Address → Scan) (starts : List Nat)
    : Reflects Site.aside
        (scanFixedList host.counting phase
          (fun object words => (scan object words).counted (named object)) starts)
        (scanFixedList host phase scan starts) := by
  induction starts with
  | nil => exact .pure ()
  | cons start starts ih =>
      exact .bind (reflects_scanFixed host phase scan named start) fun _ => ih

theorem reflects_checkNext (space : Space) (limit : Nat) (object next : Address)
    : Reflects (Site.aside (σ := σ) (β := β) (δ := δ)) (checkNext space limit object next)
        (checkNext space limit object next) :=
  .ite (.pure _) (Site.reflects_stop _)

/-- Promoted objects, by induction over the number of steps. -/
theorem reflects_scanPromoted (phase : Phase) (space : Space) (objects scan : Nat)
    : Reflects Site.aside (scanPromoted host.counting phase space objects scan)
        (scanPromoted host phase space objects scan) := by
  induction objects generalizing scan with
  | zero => exact .pure ()
  | succ objects ih =>
      refine .get_bind fun _ => .ite ?_ (.pure ())
      refine .bind (reflects_counted host phase _ _) fun next => .get_bind fun _ => ?_
      exact .bind (reflects_checkNext _ _ _ _) ih

/-- Survivors, by induction over the number of steps. -/
theorem reflects_scanSurvivors (phase : Phase) (space : Space) (steps scan : Nat)
    : Reflects Site.aside (scanSurvivors host.counting phase space steps scan)
        (scanSurvivors host phase space steps scan) := by
  induction steps generalizing scan with
  | zero => exact .pure ()
  | succ steps ih =>
      refine .get_bind fun site => .ite ?_ ?_
      · refine .bind (reflects_counted host phase _ _) fun next => .get_bind fun _ => ?_
        exact .bind (reflects_checkNext _ _ _ _) ih
      · dsimp only [Site.aside]
        split
        · exact .pure ()
        · refine .bind (Site.reflects_modifyRegions _) fun _ => ?_
          exact .bind (reflects_scanFixed host phase _ _ _) fun _ => ih scan

end Collector

-----------------------------------------------------------------------------------------
-- Collections
-----------------------------------------------------------------------------------------

namespace World

/-- A part of the world that callbacks see. -/
theorem reflects_onSite {fine : Action (Site (σ × β) δ) α} {coarse : Action (Site σ δ) α}
    (same : Reflects Site.aside fine coarse)
    : Reflects aside (onSite fine) (onSite coarse) := by
  intro world
  apply runs_onSite.mpr
  refine (same world.site).mono ?_ ?_
  · intro result final done
    have there : coarse world.aside.site = .ok result final.aside := done
    simp only [onSite, there]
    rfl
  · intro violation final stopped
    have there : coarse world.aside.site = .error violation final.aside := stopped
    simp only [onSite, there]
    rfl

/-- Looking at the heap first. -/
theorem reflects_heapNow_bind {next : Heap δ → Action (World (σ × β) δ) α}
    {rest : Heap δ → Action (World σ δ) α}
    (second : ∀ heap, Reflects aside (next heap) (rest heap))
    : Reflects aside (heapNow >>= next) (heapNow >>= rest) :=
  fun world => second world.heap world

theorem reflects_modifyHeap (change : Heap δ → Heap δ)
    : Reflects (aside (σ := σ) (β := β)) (modifyHeap change) (modifyHeap change) :=
  .changes fun _ => rfl

theorem reflects_report (event : Event)
    : Reflects (aside (σ := σ) (β := β) (δ := δ)) (report event) (report event) :=
  reflects_onSite (Site.reflects_report event)

theorem reflects_modifyRegions (change : Regions δ → Regions δ)
    : Reflects (aside (σ := σ) (β := β)) (modifyRegions change) (modifyRegions change) :=
  reflects_onSite (Site.reflects_modifyRegions change)

theorem reflects_enterPhase (phase : Phase)
    : Reflects (aside (σ := σ) (β := β) (δ := δ)) (enterPhase phase) (enterPhase phase) :=
  reflects_heapNow_bind fun _ => .bind (reflects_report _) fun _ => reflects_modifyHeap _

end World

namespace Collector

variable (host : Host σ δ)

/-- A visit of the host. -/
theorem reflects_visit (visit : Visit σ α)
    : Reflects World.aside (Collector.visit host.counting visit.beside)
        (Collector.visit host visit) :=
  World.reflects_heapNow_bind fun _ => World.reflects_onSite (reflects_beside host _ visit)

/-- Roots, one after another. -/
theorem reflects_visitRoots (roots : List Root)
    : Reflects World.aside (visitRoots host.counting roots) (visitRoots host roots) := by
  induction roots with
  | nil => exact .pure ()
  | cons root roots ih =>
      refine .bind (World.reflects_heapNow_bind fun heap => ?_) fun _ => ih
      refine .bind (World.reflects_onSite (reflects_forward host _)) fun forwarded => ?_
      exact .ite (World.reflects_modifyHeap _) (.pure ())

theorem reflects_visitMinorRoots
    : Reflects World.aside (visitMinorRoots host.counting) (visitMinorRoots host) := by
  have roots := reflects_visitRoots host
  refine World.reflects_heapNow_bind fun _ => .bind (roots _) fun _ => ?_
  refine World.reflects_heapNow_bind fun _ => .bind (roots _) fun _ => ?_
  refine World.reflects_heapNow_bind fun _ =>
    .bind (World.reflects_onSite (reflects_visitRemembered host _)) fun _ => ?_
  refine World.reflects_heapNow_bind fun _ => .bind (roots _) fun _ => ?_
  refine World.reflects_heapNow_bind fun _ => .bind (roots _) fun _ => ?_
  refine World.reflects_heapNow_bind fun _ => .bind (World.reflects_modifyRegions _) fun _ => ?_
  refine World.reflects_heapNow_bind fun _ =>
    .bind (World.reflects_onSite (reflects_scanFixedList host _ _ _ _)) fun _ => ?_
  exact reflects_visit host _

theorem reflects_visitFullRoots
    : Reflects World.aside (visitFullRoots host.counting) (visitFullRoots host) := by
  have roots := reflects_visitRoots host
  refine World.reflects_heapNow_bind fun _ => .bind (roots _) fun _ => ?_
  refine World.reflects_heapNow_bind fun _ => .bind (roots _) fun _ => ?_
  refine World.reflects_heapNow_bind fun _ => .bind (roots _) fun _ => ?_
  refine World.reflects_heapNow_bind fun _ => .bind (roots _) fun _ => ?_
  exact reflects_visit host _

theorem reflects_nextId
    : Reflects (World.aside (σ := σ) (β := β) (δ := δ)) nextId nextId :=
  World.reflects_heapNow_bind fun _ => .bind (World.reflects_modifyHeap _) fun _ => .pure _

/-- A minor collection of a host that counts is one of the host itself. -/
theorem reflects_minor (reason : Reason)
    : Reflects World.aside (minor host.counting reason) (minor host reason) := by
  refine .bind reflects_nextId fun id => World.reflects_heapNow_bind fun heap => ?_
  refine .bind (World.reflects_modifyRegions _) fun _ => ?_
  refine .bind (World.reflects_enterPhase _) fun _ => ?_
  refine .bind (reflects_visitMinorRoots host) fun _ => ?_
  refine .bind (World.reflects_enterPhase _) fun _ => ?_
  refine .bind (World.reflects_onSite (reflects_scanPromoted host _ _ _ _)) fun _ => ?_
  refine .bind (World.reflects_enterPhase _) fun _ => World.reflects_heapNow_bind fun _ => ?_
  refine .bind (World.reflects_modifyHeap _) fun _ => ?_
  refine .bind (World.reflects_enterPhase _) fun _ => ?_
  refine .bind (World.reflects_modifyHeap _) fun _ => ?_
  refine .bind (World.reflects_report _) fun _ => World.reflects_heapNow_bind fun _ => ?_
  exact .ite (World.reflects_report _) (.pure ())

/-- The destructors of a host that counts do what those of the host itself do, one by one. -/
theorem runDestructors_counting (slots : List (FixedSlot δ)) (arena : Arena)
    (state : σ × List Scan)
    : FixedSpace.runDestructors host.counting.destroy slots arena state
      = ((FixedSpace.runDestructors host.destroy slots arena state.1).1,
          ((FixedSpace.runDestructors host.destroy slots arena state.1).2.1, state.2),
          (FixedSpace.runDestructors host.destroy slots arena state.1).2.2) := by
  induction slots generalizing arena state with
  | nil => rfl
  | cons slot slots ih =>
      simp only [FixedSpace.runDestructors]
      split
      · exact ih arena state
      · simp only [ih]
        rfl

theorem reflects_sweepFixed
    : Reflects Site.aside (sweepFixed host.counting) (sweepFixed host) := by
  refine .get_bind fun site => ?_
  dsimp only [Site.aside]
  simp only [FixedSpace.sweep, runDestructors_counting]
  cases site.regions.fixed.slots.find? fun slot => !slot.isValid site.regions.fixed.arena.size with
  | some slot => exact Site.reflects_stop _
  | none => exact .bind (Site.reflects_modifyRegions _) fun _ => Site.reflects_accept _ _

theorem reflects_callHook {hook : σ → Reply σ Unit}
    : Reflects (Site.aside (β := β) (δ := δ))
        (callHook fun state => (hook state.1).beside state.2) (callHook hook) :=
  .get_bind fun _ => Site.reflects_accept _ _

/-- A full collection of a host that counts is one of the host itself. -/
theorem reflects_full (reason : Reason)
    : Reflects World.aside (full host.counting reason) (full host reason) := by
  refine .bind reflects_nextId fun id => ?_
  refine .bind (World.reflects_onSite reflects_callHook) fun _ => ?_
  refine World.reflects_heapNow_bind fun _ => .bind (World.reflects_enterPhase _) fun _ => ?_
  refine .bind ?_ fun target => ?_
  · refine World.reflects_heapNow_bind fun heap => ?_
    refine .bind (World.reflects_onSite (Site.reflects_require _ _)) fun words => ?_
    exact .bind (World.reflects_modifyRegions _) fun _ => .pure _
  refine .bind (reflects_visitFullRoots host) fun _ => ?_
  refine .bind (World.reflects_enterPhase _) fun _ => ?_
  refine .bind (World.reflects_onSite (reflects_scanSurvivors host _ _ _ _)) fun _ => ?_
  refine .bind (World.reflects_enterPhase _) fun _ => World.reflects_heapNow_bind fun _ => ?_
  refine .bind (World.reflects_onSite (reflects_sweepFixed host)) fun outcome => ?_
  refine .bind (World.reflects_modifyRegions _) fun _ => ?_
  refine .bind (World.reflects_modifyHeap _) fun _ => World.reflects_heapNow_bind fun _ => ?_
  refine .bind (World.reflects_enterPhase _) fun _ => ?_
  refine .bind (World.reflects_modifyHeap _) fun _ => ?_
  refine .bind (World.reflects_modifyHeap _) fun _ => ?_
  refine .bind (World.reflects_onSite reflects_callHook) fun _ => ?_
  refine .bind (World.reflects_report _) fun _ => World.reflects_heapNow_bind fun _ => ?_
  exact .ite (World.reflects_report _) (.pure ())

end Collector

end MovingHeap
