import MovingHeap.Proofs.CollectionSteps

/-! What every step of tracing keeps, tracing keeps, whatever its host does.
Tracing changes memory in few ways only: it copies an object, buries what it copied, marks a fixed
object, takes one off the list of those to scan and writes a slot. The state of the host changes where
objects are copied and where visits say so.
-/

namespace MovingHeap

variable {σ δ α β : Type}

/-- Each way in which tracing changes memory keeps the property. -/
structure Regions.Invariant (holds : Regions δ → Prop) : Prop where
  fill
    : ∀ (regions : Regions δ) (words : List Word),
        holds regions → holds (regions.setDestination (regions.destination.fillTail words))
  relocate
    : ∀ (regions : Regions δ) (words : List Word) (extended : Semispace) (count : Nat)
        (object : Address) (young : Bool),
        object.offset + 1 < (regions.origin young).2 →
        Regions.admit? (regions.destination.fillTail words) count = some extended →
        holds regions →
        holds
          (Collector.relocated regions (regions.destination.fillTail words) extended object young
            count)
  mark
    : ∀ (regions : Regions δ) (offset : Nat) (mark : Mark) (fixed : FixedSpace δ),
        regions.isFull →
        regions.fixed.mark? offset = some (mark, fixed) →
        holds regions →
        holds (regions.marked mark fixed)
  pop
    : ∀ (regions : Regions δ) (start : Nat) (rest : List Nat),
        regions.unscanned = start :: rest →
        holds regions →
        holds { regions with unscanned := rest }
  store
    : ∀ (regions next : Regions δ) (addr : Address) (word : Word),
        regions.setWord? addr word = some next → holds regions → holds next

/-- Copying keeps a property of the host's state. -/
def Host.CopyKeeps (host : Host σ δ) (kept : σ → Prop) : Prop :=
  ∀ destination source state, kept state → kept (host.copy destination source state).host

/-- The program puts no state of the host in place that lacks the property, if it finds none. -/
def Visit.Keeps (kept : σ → Prop) : Visit σ α → Prop
  | done _ => True
  | getHost next => ∀ state, kept state → (next state).Keeps kept
  | setHost state next => kept state ∧ next.Keeps kept
  | note _ next => next.Keeps kept
  | isFull next => ∀ full, (next full).Keeps kept
  | load _ next => ∀ word, (next word).Keeps kept
  | words _ _ next => ∀ list, (next list).Keeps kept
  | visitSlot _ next => next.Keeps kept
  | visitValue _ next => ∀ moved, (next moved).Keeps kept
  | allocate => True
  | collect => True
  | fail _ => True

/-- Programs keep what always holds, by induction over their steps. -/
theorem Visit.keeps_true (visit : Visit σ α) : visit.Keeps fun _ => True := by
  induction visit with
  | isFull next ih => exact ih
  | _ => simp_all [Visit.Keeps]

/-- All that a host does in a collection before the sweep keeps a property of its state. -/
structure Host.Keeps (host : Host σ δ) (kept : σ → Prop) : Prop where
  copy : host.CopyKeeps kept
  scanMinor : ∀ object, (host.scanMinor object).Keeps kept
  scanFull : ∀ object, (host.scanFull object).Keeps kept
  scanFixedMinor : ∀ object words, (host.scanFixedMinor object words).Keeps kept
  scanFixedFull : ∀ object words, (host.scanFixedFull object words).Keeps kept
  extraMinorRoots : host.extraMinorRoots.Keeps kept
  extraFullRoots : host.extraFullRoots.Keeps kept

theorem Host.keeps_true (host : Host σ δ) : host.Keeps fun _ => True :=
  ⟨fun _ _ _ _ => trivial, fun _ => Visit.keeps_true _, fun _ => Visit.keeps_true _,
    fun _ _ => Visit.keeps_true _, fun _ _ => Visit.keeps_true _, Visit.keeps_true _,
    Visit.keeps_true _⟩

/-- Wherever the action ends or is stopped, memory and the host still have their properties. -/
def Maintains (holds : Regions δ → Prop) (kept : σ → Prop) (action : Action (Site σ δ) α) : Prop :=
  ∀ site,
    holds site.regions →
    kept site.host →
    Runs action site (fun _ final => holds final.regions ∧ kept final.host)
      fun _ final => holds final.regions ∧ kept final.host

variable {holds : Regions δ → Prop} {kept : σ → Prop}

namespace Maintains

theorem pure (result : α) : Maintains holds kept (Pure.pure result) :=
  fun _ here there => ⟨here, there⟩

theorem stop (violation : Violation) : Maintains (α := α) holds kept (Site.stop violation) :=
  fun _ here there => Site.runs_stop.mpr ⟨here, there⟩

theorem report (event : Event) : Maintains holds kept (Site.report event) :=
  fun _ here there => ⟨here, there⟩

/-- One action after another. -/
theorem bind {action : Action (Site σ δ) α} {next : α → Action (Site σ δ) β}
    (first : Maintains holds kept action) (second : ∀ result, Maintains holds kept (next result))
    : Maintains holds kept (action >>= next) := by
  intro site here there
  apply runs_bind.mpr
  refine (first site here there).mono (fun result middle reached => ?_) fun _ _ => id
  exact second result middle reached.1 reached.2

/-- Looking at the site first. -/
theorem get_bind {next : Site σ δ → Action (Site σ δ) α}
    (second
      : ∀ site : Site σ δ, holds site.regions → kept site.host → Maintains holds kept (next site))
    : Maintains holds kept (get >>= next) :=
  fun site here there => second site here there site here there

theorem map {action : Action (Site σ δ) α} (maintains : Maintains holds kept action)
    (change : α → β)
    : Maintains holds kept (change <$> action) :=
  fun site here there => runs_map.mpr (maintains site here there)

theorem require (found : Option α) (violation : Violation)
    : Maintains holds kept (Site.require found violation) := by
  cases found with
  | none => exact stop violation
  | some result => exact pure result

end Maintains

namespace Collector

variable {host : Host σ δ} (invariant : Regions.Invariant holds) (copies : host.CopyKeeps kept)

include invariant copies

/-- An object is copied only if it lies in allocated words. -/
theorem maintains_evacuate (object : Address) (young : Bool)
    : Maintains holds kept (evacuate host object young) := by
  intro site here there
  have copied := copies site.regions.destination.tail
    ((site.regions.origin young).1.window object.offset
      ((site.regions.origin young).2 - object.offset)) site.host there
  simp only [evacuate, relocate, runs_bind, runs_get, runs_ite, Site.runs_stop, Site.runs_accept,
    Site.runs_modifyRegions, Site.runs_require]
  split_ifs with outside
  · exact ⟨here, there⟩
  · split
    · exact ⟨here, there⟩
    · exact ⟨here, there⟩
  · split
    next extended admitted =>
      exact ⟨invariant.relocate _ _ _ _ object young (by omega) admitted here, copied⟩
    next refused => exact ⟨invariant.fill _ _ here, copied⟩

theorem maintains_forward (value : Value) : Maintains holds kept (forward host value) := by
  unfold forward
  split
  next => exact .pure _
  next addr _ =>
    intro site here there
    simp only [runs_bind, runs_get]
    split
    · exact (maintains_evacuate invariant copies addr true).map _ site here there
    · split_ifs with full
      · simp only [markFixed, runs_bind, runs_get, Site.runs_require]
        split
        next found done =>
          obtain ⟨mark, fixed⟩ := found
          have marked := invariant.mark _ _ mark fixed full done here
          cases mark <;>
            simp only [runs_bind, Site.runs_modifyRegions, runs_pure] <;>
            exact ⟨marked, there⟩
        next => exact ⟨here, there⟩
      · exact ⟨here, there⟩
    · split_ifs
      · exact (maintains_evacuate invariant copies addr false).map _ site here there
      · exact ⟨here, there⟩

omit invariant copies in
theorem maintains_loadWord (addr : Address)
    : Maintains (σ := σ) holds kept (loadWord addr) :=
  .get_bind fun _ _ _ => .require _ _

theorem maintains_visitSlot (slot : Address) : Maintains holds kept (visitSlot host slot) := by
  refine .bind (maintains_loadWord slot) fun word => ?_
  refine .bind (maintains_forward invariant copies _) fun forwarded => ?_
  split_ifs
  · intro site here there
    simp only [runs_bind, runs_get, Site.runs_require, Site.runs_modifyRegions]
    split
    next regions done => exact ⟨invariant.store _ _ _ _ done here, there⟩
    next => exact ⟨here, there⟩
  · exact .pure _

/-- A visit, by induction over its steps. -/
theorem maintains_runVisit (phase : Phase) {program : Visit σ α} (keeps : program.Keeps kept)
    : Maintains holds kept (runVisit host phase program) := by
  induction program with
  | done result => exact .pure result
  | getHost next ih => exact .get_bind fun site _ there => ih site.host (keeps site.host there)
  | setHost state next ih =>
      exact .bind (fun site here _ => runs_modify.mpr ⟨here, keeps.1⟩) fun _ => ih keeps.2
  | note line next ih => exact .bind (.report _) fun _ => ih keeps
  | isFull next ih => exact .get_bind fun site _ _ => ih _ (keeps _)
  | load addr next ih =>
      exact .bind (maintains_loadWord addr) fun word => ih word (keeps word)
  | words addr count next ih =>
      exact .get_bind fun _ _ _ => .bind (.require _ _) fun list => ih list (keeps list)
  | visitSlot slot next ih =>
      exact .bind (maintains_visitSlot invariant copies slot) fun _ => ih keeps
  | visitValue value next ih =>
      exact .bind (maintains_forward invariant copies value) fun moved => ih moved (keeps moved)
  | allocate => exact .stop _
  | collect => exact .stop _
  | fail violation => exact .stop violation

/-- Recorded slots, one after another. -/
theorem maintains_visitRemembered (words : List Word)
    : Maintains holds kept (visitRemembered host words) := by
  induction words with
  | nil => exact .pure ()
  | cons raw words ih =>
      exact .bind (.require _ _) fun slot =>
        .bind (maintains_visitSlot invariant copies slot) fun _ => ih

theorem maintains_scanFixed (phase : Phase) {scan : Address → Nat → Visit σ Unit}
    (keeps : ∀ object words, (scan object words).Keeps kept) (start : Nat)
    : Maintains holds kept (scanFixed host phase scan start) := by
  refine .get_bind fun site _ _ => ?_
  split
  · exact maintains_runVisit invariant copies phase (keeps _ _)
  · exact .pure ()

/-- Fixed objects, one after another. -/
theorem maintains_scanFixedList (phase : Phase) {scan : Address → Nat → Visit σ Unit}
    (keeps : ∀ object words, (scan object words).Keeps kept) (starts : List Nat)
    : Maintains holds kept (scanFixedList host phase scan starts) := by
  induction starts with
  | nil => exact .pure ()
  | cons start starts ih =>
      exact .bind (maintains_scanFixed invariant copies phase keeps start) fun _ => ih

omit invariant copies in
theorem maintains_checkNext (space : Space) (limit : Nat) (object next : Address)
    : Maintains (σ := σ) holds kept (checkNext space limit object next) := by
  unfold checkNext
  split_ifs
  · exact .pure _
  · exact .stop _

/-- Promoted objects, by induction over the number of steps. -/
theorem maintains_scanPromoted (phase : Phase)
    (keeps : ∀ object, (host.scanMinor object).Keeps kept) (space : Space) (objects scan : Nat)
    : Maintains holds kept (scanPromoted host phase space objects scan) := by
  induction objects generalizing scan with
  | zero => exact .pure ()
  | succ objects ih =>
      refine .get_bind fun site _ _ => ?_
      split_ifs
      · refine .bind (maintains_runVisit invariant copies phase (keeps _)) fun next => ?_
        exact .get_bind fun site _ _ => .bind (maintains_checkNext _ _ _ next) ih
      · exact .pure ()

/-- Survivors, by induction over the number of steps. -/
theorem maintains_scanSurvivors (phase : Phase)
    (keeps : ∀ object, (host.scanFull object).Keeps kept)
    (keepsFixed : ∀ object words, (host.scanFixedFull object words).Keeps kept) (space : Space)
    (steps scan : Nat)
    : Maintains holds kept (scanSurvivors host phase space steps scan) := by
  induction steps generalizing scan with
  | zero => exact .pure ()
  | succ steps ih =>
      intro site here there
      have scans : Maintains holds kept (do
          let next ← runVisit host phase (host.scanFull (.pack space scan))
          let scan ← checkNext space (← get).regions.destination.cursor (.pack space scan) next
          scanSurvivors host phase space steps scan) :=
        .bind (maintains_runVisit invariant copies phase (keeps _)) fun next =>
          .get_bind fun site _ _ => .bind (maintains_checkNext _ _ _ next) ih
      simp only [scanSurvivors, runs_bind, runs_get, runs_ite]
      split_ifs
      · simpa only [runs_bind, runs_get] using scans site here there
      · split
        next => exact ⟨here, there⟩
        next start rest listed =>
          have popped := invariant.pop site.regions start rest listed here
          simp only [runs_bind, Site.runs_modifyRegions]
          refine (maintains_scanFixed invariant copies phase keepsFixed start
            { site with regions := { site.regions with unscanned := rest } } popped there).mono
              (fun _ middle reached => ?_) fun _ _ => id
          exact ih scan middle reached.1 reached.2

/-- Roots, one after another. -/
theorem maintains_visitRoots (roots : List Root) {world : World σ δ}
    (here : holds world.heap.regions) (there : kept world.host)
    : Runs (visitRoots host roots) world
        (fun _ final => holds final.heap.regions ∧ kept final.host)
        fun _ final => holds final.heap.regions ∧ kept final.host := by
  induction roots generalizing world with
  | nil => exact ⟨here, there⟩
  | cons root roots ih =>
      simp only [visitRoots, visitRoot, runs_bind, World.runs_heapNow, World.runs_onSite]
      refine (maintains_forward invariant copies _ world.site here there).mono
        (fun forwarded site reached => ?_) fun _ _ => id
      split_ifs
      · exact ih (by simpa [World.withSite] using reached.1) reached.2
      · exact ih reached.1 reached.2

omit invariant copies

/-- A part of the world that callbacks see. -/
theorem maintains_onSite {action : Action (Site σ δ) α} (maintains : Maintains holds kept action)
    {world : World σ δ} (here : holds world.heap.regions) (there : kept world.host)
    : Runs (World.onSite action) world
        (fun _ final => holds final.heap.regions ∧ kept final.host)
        fun _ final => holds final.heap.regions ∧ kept final.host :=
  World.runs_onSite.mpr (maintains world.site here there)

include invariant

/-- All that a minor collection traces, if the property does not depend on which objects are fresh. -/
theorem maintains_traceMinor (keeps : host.Keeps kept)
    (clears
      : ∀ regions : Regions δ,
          holds regions → holds { regions with fixed := regions.fixed.clearFresh })
    (start : Semispace) {world : World σ δ} (here : holds world.heap.regions)
    (there : kept world.host)
    : Runs (traceMinor host start) world
        (fun _ final => holds final.heap.regions ∧ kept final.host)
        fun _ final => holds final.heap.regions ∧ kept final.host := by
  have roots := fun list (world : World σ δ) (here : holds world.heap.regions) there =>
    maintains_visitRoots invariant keeps.copy list here there
  simp only [traceMinor, visitMinorRoots, visit, runs_bind, World.runs_heapNow,
    World.runs_modifyRegions, World.runs_enterPhase]
  refine (roots _ _ here there).mono (fun _ _ first => ?_) fun _ _ => id
  refine (roots _ _ first.1 first.2).mono (fun _ _ second => ?_) fun _ _ => id
  refine (maintains_onSite (maintains_visitRemembered invariant keeps.copy _) second.1
    second.2).mono (fun _ _ third => ?_) fun _ _ => id
  refine (roots _ _ third.1 third.2).mono (fun _ _ fourth => ?_) fun _ _ => id
  refine (roots _ _ fourth.1 fourth.2).mono (fun _ middle fifth => ?_) fun _ _ => id
  have fresh := maintains_scanFixedList invariant keeps.copy middle.heap.phase keeps.scanFixedMinor
    middle.heap.regions.fixed.freshObjects
  refine Runs.mono (maintains_onSite fresh ?_ ?_) (fun _ _ sixth => ?_) fun _ _ => id
  · exact clears _ fifth.1
  · exact fifth.2
  · refine (maintains_onSite (maintains_runVisit invariant keeps.copy _ keeps.extraMinorRoots)
      sixth.1 sixth.2).mono (fun _ _ seventh => ?_) fun _ _ => id
    exact maintains_onSite (maintains_scanPromoted invariant keeps.copy _ keeps.scanMinor _ _ _)
      seventh.1 seventh.2

/-- The roots of a full collection. -/
theorem maintains_visitFullRoots (copies : host.CopyKeeps kept)
    (extra : host.extraFullRoots.Keeps kept) {world : World σ δ} (here : holds world.heap.regions)
    (there : kept world.host)
    : Runs (visitFullRoots host) world
        (fun _ final => holds final.heap.regions ∧ kept final.host)
        fun _ final => holds final.heap.regions ∧ kept final.host := by
  have roots := fun list (world : World σ δ) (here : holds world.heap.regions) there =>
    maintains_visitRoots invariant copies list here there
  simp only [visitFullRoots, visit, runs_bind, World.runs_heapNow]
  refine (roots _ _ here there).mono (fun _ _ first => ?_) fun _ _ => id
  refine (roots _ _ first.1 first.2).mono (fun _ _ second => ?_) fun _ _ => id
  refine (roots _ _ second.1 second.2).mono (fun _ _ third => ?_) fun _ _ => id
  refine (roots _ _ third.1 third.2).mono (fun _ _ fourth => ?_) fun _ _ => id
  exact maintains_onSite (maintains_runVisit invariant copies _ extra) fourth.1 fourth.2

/-- All that a full collection traces. -/
theorem maintains_traceFull (keeps : host.Keeps kept) (target : Semispace) (slots : Nat)
    {world : World σ δ} (here : holds world.heap.regions) (there : kept world.host)
    : Runs (traceFull host target slots) world
        (fun _ final => holds final.heap.regions ∧ kept final.host)
        fun _ final => holds final.heap.regions ∧ kept final.host := by
  simp only [traceFull, runs_bind, World.runs_enterPhase]
  refine (maintains_visitFullRoots invariant keeps.copy keeps.extraFullRoots here there).mono
    (fun _ _ reached => ?_) fun _ _ => id
  exact maintains_onSite (maintains_scanSurvivors invariant keeps.copy _ keeps.scanFull
    keeps.scanFixedFull _ _ _) reached.1 reached.2

end Collector

end MovingHeap
