import MovingHeap.Proofs.Maintenance
import MovingHeap.Proofs.Passages

/-! What every step of tracing keeps holds wherever a collection comes through, whatever its host does.
A property is followed into an action along its passage: it holds on the way of each part, and behind the
part, from where the next one goes on.
-/

namespace MovingHeap

variable {ω σ δ α β : Type}

-----------------------------------------------------------------------------------------
-- Properties along a passage
-----------------------------------------------------------------------------------------

namespace Passage

/-- The action comes through states with the property only, and ends in one if it ends. -/
structure Upholds {action : Action ω α} (passage : Passage action) (property : ω → Prop) (start : ω)
    : Prop where
  within : passage.Keeps start fun state _ => property state
  behind : Runs action start (fun _ final => property final) fun _ _ => True

namespace Upholds

variable {property : ω → Prop} {action : Action ω α} {start : ω}

theorem hidden (behind : Runs action start (fun _ final => property final) fun _ _ => True)
    : (Passage.hidden action).Upholds property start :=
  ⟨keeps_hidden, behind⟩

theorem step (here : property start)
    (behind : Runs action start (fun _ final => property final) fun _ _ => True)
    (errand : Option Errand)
    : (Passage.step action errand).Upholds property start :=
  ⟨keeps_step here behind, behind⟩

theorem pure (here : property start) (result : α)
    : (Passage.step (Pure.pure result) none).Upholds property start :=
  .step here (runs_pure.mpr here) none

/-- What holds on the way of the next action, if it does from wherever the first one ends. -/
theorem keeps_bind {next : α → Action ω β} {first : Passage action}
    {second : ∀ result, Passage (next result)} (before : first.Upholds property start)
    (after
      : ∀ result middle,
          property middle → (second result).Keeps middle fun state _ => property state)
    : (first.bind second).Keeps start fun state _ => property state :=
  Passage.keeps_bind before.within (before.behind.mono after fun _ _ => id)

/-- One action after another. -/
theorem bind {next : α → Action ω β} {first : Passage action}
    {second : ∀ result, Passage (next result)} (before : first.Upholds property start)
    (after : ∀ result middle, property middle → (second result).Upholds property middle)
    : (first.bind second).Upholds property start where
  within := before.keeps_bind fun result middle here => (after result middle here).within
  behind :=
    runs_bind.mpr
      (before.behind.mono (fun result middle here => (after result middle here).behind) fun _ _ => id)

/-- Looking at the state first. -/
theorem get_bind {next : ω → Action ω α} {second : ∀ state, Passage (next state)}
    (here : property start) (after : (second start).Upholds property start)
    : ((Passage.step get none).bind second).Upholds property start where
  within := keeps_step_bind here ⟨here, after.within⟩
  behind := runs_bind.mpr after.behind

theorem ite {condition : Prop} [Decidable condition] {other : Action ω α} {yes : Passage action}
    {no : Passage other} (holding : condition → yes.Upholds property start)
    (failing : ¬ condition → no.Upholds property start)
    : (Passage.ite yes no : Passage (if condition then action else other)).Upholds property
        start where
  within := keeps_ite (fun chosen => (holding chosen).within) fun passed => (failing passed).within
  behind := by
    split_ifs with chosen
    · exact (holding chosen).behind
    · exact (failing chosen).behind

/-- What callbacks come through, as the world comes through it. -/
theorem onSite {property : Site σ δ → Prop} {action : Action (Site σ δ) α} {passage : Passage action}
    {start : World σ δ} (upholds : passage.Upholds property start.site)
    : passage.onSite.Upholds (fun world => property world.site) start where
  within := keeps_onSite upholds.within
  behind := World.runs_onSite.mpr upholds.behind

end Upholds

end Passage

-----------------------------------------------------------------------------------------
-- Visits
-----------------------------------------------------------------------------------------

/-- Memory and the host have their properties. -/
def Site.Satisfies (holds : Regions δ → Prop) (kept : σ → Prop) (site : Site σ δ) : Prop :=
  holds site.regions ∧ kept site.host

variable {holds : Regions δ → Prop} {kept : σ → Prop} {site : Site σ δ}

/-- Behind what maintains the properties, memory and the host have them. -/
theorem Maintains.behind {action : Action (Site σ δ) α} (maintains : Maintains holds kept action)
    (here : site.Satisfies holds kept)
    : Runs action site (fun _ final => final.Satisfies holds kept) fun _ _ => True :=
  (maintains site here.1 here.2).mono (fun _ _ => id) fun _ _ _ => trivial

/-- A step that maintains the properties. -/
theorem Maintains.upholds {action : Action (Site σ δ) α} (maintains : Maintains holds kept action)
    (here : site.Satisfies holds kept) (errand : Option Errand)
    : (Passage.step action errand).Upholds (Site.Satisfies holds kept) site :=
  .step here (maintains.behind here) errand

namespace Collector

variable {host : Host σ δ} (invariant : Regions.Invariant holds) (copies : host.CopyKeeps kept)

include invariant copies

theorem upholds_visitSlot (slot : Address) (here : site.Satisfies holds kept)
    : (passVisitSlot host slot).Upholds (Site.Satisfies holds kept) site where
  within := by
    have forwards := fun value => maintains_forward invariant copies value
    refine Passage.keeps_step_bind here (((maintains_loadWord slot).behind here).mono
      (fun word middle loaded => ?_) fun _ _ => id)
    refine ⟨loaded, Passage.keeps_step_bind loaded ?_⟩
    exact ((forwards _).behind loaded).mono
      (fun _ _ forwarded => ⟨forwarded, Passage.keeps_hidden⟩) fun _ _ => id
  behind := (maintains_visitSlot invariant copies slot).behind here

/-- A visit, by induction over its steps. -/
theorem upholds_runVisit (phase : Phase) {program : Visit σ α} (keeps : program.Keeps kept)
    (here : site.Satisfies holds kept)
    : (passRunVisit host phase program).Upholds (Site.Satisfies holds kept) site := by
  induction program generalizing site with
  | done result => exact .pure here result
  | getHost next ih => exact .get_bind here (ih site.host (keeps site.host here.2) here)
  | setHost state next ih =>
      exact .bind (.step here (runs_modify.mpr ⟨here.1, keeps.1⟩) none) fun _ _ => ih keeps.2
  | note line next ih =>
      exact .bind ((Maintains.report _).upholds here none) fun _ _ => ih keeps
  | isFull next ih => exact .get_bind here (ih _ (keeps _) here)
  | load addr next ih =>
      exact .bind ((maintains_loadWord addr).upholds here none) fun word _ => ih word (keeps word)
  | words addr count next ih =>
      exact .get_bind here
        (.bind ((Maintains.require _ _).upholds here none) fun list _ => ih list (keeps list))
  | visitSlot slot next ih =>
      exact .bind (upholds_visitSlot invariant copies slot here) fun _ _ => ih keeps
  | visitValue value next ih =>
      have forwards := maintains_forward invariant copies value
      exact .bind (forwards.upholds here _) fun moved _ => ih moved (keeps moved)
  | allocate => exact (Maintains.stop _).upholds here none
  | collect => exact (Maintains.stop _).upholds here none
  | fail violation => exact (Maintains.stop _).upholds here none

-----------------------------------------------------------------------------------------
-- Loops
-----------------------------------------------------------------------------------------

/-- Recorded slots, one after another. -/
theorem upholds_visitRemembered (words : List Word) (here : site.Satisfies holds kept)
    : (passVisitRemembered host words).Upholds (Site.Satisfies holds kept) site := by
  induction words generalizing site with
  | nil => exact .pure here ()
  | cons raw words ih =>
      exact .bind ((Maintains.require _ _).upholds here none) fun slot _ decoded =>
        .bind (upholds_visitSlot invariant copies slot decoded) fun _ _ => ih

theorem upholds_scanFixed (phase : Phase) {scan : Address → Nat → Visit σ Unit}
    (keeps : ∀ object words, (scan object words).Keeps kept) (start : Nat)
    (here : site.Satisfies holds kept)
    : (passScanFixed host phase scan start).Upholds (Site.Satisfies holds kept) site := by
  refine .get_bind here ?_
  cases site.regions.fixed.occupant? start with
  | some occupant => exact upholds_runVisit invariant copies phase (keeps _ _) here
  | none => exact .pure here ()

/-- Fixed objects, one after another. -/
theorem upholds_scanFixedList (phase : Phase) {scan : Address → Nat → Visit σ Unit}
    (keeps : ∀ object words, (scan object words).Keeps kept) (starts : List Nat)
    (here : site.Satisfies holds kept)
    : (passScanFixedList host phase scan starts).Upholds (Site.Satisfies holds kept) site := by
  induction starts generalizing site with
  | nil => exact .pure here ()
  | cons start starts ih =>
      exact .bind (upholds_scanFixed invariant copies phase keeps start here) fun _ _ => ih

/-- Promoted objects, by induction over the number of steps. -/
theorem upholds_scanPromoted (phase : Phase)
    (keeps : ∀ object, (host.scanMinor object).Keeps kept) (space : Space) (objects scan : Nat)
    (here : site.Satisfies holds kept)
    : (passScanPromoted host phase space objects scan).Upholds (Site.Satisfies holds kept)
        site := by
  induction objects generalizing site scan with
  | zero => exact .pure here ()
  | succ objects ih =>
      refine .get_bind here (.ite (fun _ => ?_) fun _ => .pure here ())
      refine .bind (upholds_runVisit invariant copies phase (keeps _) here) fun next _ scanned => ?_
      exact .get_bind scanned
        (.bind ((maintains_checkNext _ _ _ next).upholds scanned none) fun scan _ => ih scan)

/-- Survivors, by induction over the number of steps. -/
theorem upholds_scanSurvivors (phase : Phase)
    (keeps : ∀ object, (host.scanFull object).Keeps kept)
    (keepsFixed : ∀ object words, (host.scanFixedFull object words).Keeps kept) (space : Space)
    (steps scan : Nat) (here : site.Satisfies holds kept)
    : (passScanSurvivors host phase space steps scan).Upholds (Site.Satisfies holds kept)
        site := by
  induction steps generalizing site scan with
  | zero => exact .pure here ()
  | succ steps ih =>
      refine .get_bind here (.ite (fun _ => ?_) fun _ => ?_)
      · refine .bind (upholds_runVisit invariant copies phase (keeps _) here)
          fun next _ scanned => ?_
        exact .get_bind scanned
          (.bind ((maintains_checkNext _ _ _ next).upholds scanned none) fun scan _ => ih scan)
      · generalize listed : site.regions.unscanned = waiting
        cases waiting with
        | nil => exact .pure here ()
        | cons start rest =>
            have popped : ({ site with regions := { site.regions with unscanned := rest } }
                : Site σ δ).Satisfies holds kept :=
              ⟨invariant.pop site.regions start rest listed here.1, here.2⟩
            exact .bind (.step here (Site.runs_modifyRegions.mpr popped) none) fun _ _ taken =>
              .bind (upholds_scanFixed invariant copies phase keepsFixed start taken) fun _ _ =>
                ih scan

end Collector

-----------------------------------------------------------------------------------------
-- Roots
-----------------------------------------------------------------------------------------

/-- The memory and the host of a world have their properties. -/
def World.Satisfies (holds : Regions δ → Prop) (kept : σ → Prop) (world : World σ δ) : Prop :=
  world.site.Satisfies holds kept

variable {world : World σ δ}

/-- What callbacks come through, and the world with them. -/
theorem World.Satisfies.onSite {action : Action (Site σ δ) α} {passage : Passage action}
    (upholds : passage.Upholds (Site.Satisfies holds kept) world.site)
    : passage.onSite.Upholds (World.Satisfies holds kept) world :=
  Passage.Upholds.onSite upholds

/-- Looking at the heap first. -/
theorem World.Satisfies.heapNow_bind {next : Heap δ → Action (World σ δ) α}
    {second : ∀ heap, Passage (next heap)} (here : world.Satisfies holds kept)
    (after : (second world.heap).Upholds (World.Satisfies holds kept) world)
    : ((Passage.step World.heapNow none).bind second).Upholds (World.Satisfies holds kept)
        world where
  within := Passage.keeps_step_bind here (World.runs_heapNow.mpr ⟨here, after.within⟩)
  behind := runs_bind.mpr (World.runs_heapNow.mpr after.behind)

/-- Moving on to another phase, as far as memory and the host go. -/
theorem World.Satisfies.enterPhase (here : world.Satisfies holds kept) (phase : Phase)
    : (Passage.step (World.enterPhase phase) none).Upholds (World.Satisfies holds kept) world := by
  refine .step here ?_ none
  exact World.runs_enterPhase.mpr here

namespace Collector

variable {host : Host σ δ} (invariant : Regions.Invariant holds)

include invariant

section Roots

variable (copies : host.CopyKeeps kept)

include copies

theorem upholds_visitRoot (root : Root) (here : world.Satisfies holds kept)
    : (passVisitRoot host root).Upholds (World.Satisfies holds kept) world := by
  have forwards := fun value => maintains_forward invariant copies value
  refine here.heapNow_bind ?_
  refine .bind (.step here (World.runs_onSite.mpr ((forwards _).behind here)) none)
    fun forwarded middle reached => .hidden ?_
  rw [runs_ite]
  split_ifs
  · refine World.runs_modifyHeap.mpr ?_
    rw [World.Satisfies, Site.Satisfies, World.site, Heap.regions_setRoot]
    exact reached
  · exact runs_pure.mpr reached

/-- Roots, one after another. -/
theorem upholds_visitRoots (roots : List Root) (here : world.Satisfies holds kept)
    : (passVisitRoots host roots).Upholds (World.Satisfies holds kept) world := by
  induction roots generalizing world with
  | nil => exact .pure here ()
  | cons root roots ih =>
      exact .bind (upholds_visitRoot invariant copies root here) fun _ _ => ih

/-- Roots of one more kind, and what comes behind them. -/
theorem upholds_visitKind (list : Heap δ → List Root) {next : Action (World σ δ) α}
    {rest : Passage next} (here : world.Satisfies holds kept)
    (further
      : ∀ {final : World σ δ},
          final.Satisfies holds kept → rest.Upholds (World.Satisfies holds kept) final)
    : (Passage.bind (.step World.heapNow none) fun heap =>
        .bind (passVisitRoots host (list heap)) fun _ => rest).Upholds (World.Satisfies holds kept)
        world :=
  here.heapNow_bind (.bind (upholds_visitRoots invariant copies _ here) fun _ _ => further)

theorem upholds_visit {program : Visit σ α} (keeps : program.Keeps kept)
    (here : world.Satisfies holds kept)
    : (passVisit host program).Upholds (World.Satisfies holds kept) world :=
  here.heapNow_bind (.onSite (upholds_runVisit invariant copies world.heap.phase keeps here))

end Roots

variable (keeps : host.Keeps kept)

include keeps

/-- The roots of a minor collection, if the property does not depend on which objects are fresh. -/
theorem upholds_visitMinorRoots
    (clears
      : ∀ regions : Regions δ,
          holds regions → holds { regions with fixed := regions.fixed.clearFresh })
    (here : world.Satisfies holds kept)
    : (passVisitMinorRoots host).Upholds (World.Satisfies holds kept) world := by
  have copies := keeps.copy
  refine upholds_visitKind invariant copies _ here fun here => ?_
  refine upholds_visitKind invariant copies _ here fun here => ?_
  refine here.heapNow_bind
    (.bind (.onSite (upholds_visitRemembered invariant copies _ here)) fun _ _ here => ?_)
  refine upholds_visitKind invariant copies _ here fun here => ?_
  refine upholds_visitKind invariant copies _ here fun here => ?_
  refine here.heapNow_bind (.bind ?_ fun _ _ here => ?_)
  · exact .step here (World.runs_modifyRegions.mpr ⟨clears _ here.1, here.2⟩) none
  · refine here.heapNow_bind (.bind (.onSite ?_) fun _ _ here => ?_)
    · exact upholds_scanFixedList invariant copies _ keeps.scanFixedMinor _ here
    · exact upholds_visit invariant copies keeps.extraMinorRoots here

theorem upholds_visitFullRoots (here : world.Satisfies holds kept)
    : (passVisitFullRoots host).Upholds (World.Satisfies holds kept) world := by
  have copies := keeps.copy
  refine upholds_visitKind invariant copies _ here fun here => ?_
  refine upholds_visitKind invariant copies _ here fun here => ?_
  refine upholds_visitKind invariant copies _ here fun here => ?_
  refine upholds_visitKind invariant copies _ here fun here => ?_
  exact upholds_visit invariant copies keeps.extraFullRoots here

-----------------------------------------------------------------------------------------
-- Collections
-----------------------------------------------------------------------------------------

/-- Wherever a minor collection comes through, memory and the host have the properties that they had where
it started to trace.
-/
theorem keeps_passMinor
    (clears
      : ∀ regions : Regions δ,
          holds regions → holds { regions with fixed := regions.fixed.clearFresh })
    (here : holds (minorStart world.heap).regions) (there : kept world.host) (reason : Reason)
    : (passMinor host reason).Keeps world fun now _ => now.Satisfies holds kept := by
  refine Passage.keeps_bind Passage.keeps_hidden ?_
  simp only [nextId, runs_bind, runs_pure, World.runs_heapNow, World.runs_modifyHeap]
  refine Passage.keeps_bind Passage.keeps_hidden (World.runs_heapNow.mpr ?_)
  refine Passage.keeps_bind Passage.keeps_hidden (World.runs_modifyRegions.mpr ?_)
  refine Passage.keeps_bind Passage.keeps_hidden (World.runs_enterPhase.mpr ?_)
  refine Passage.Upholds.keeps_bind (upholds_visitMinorRoots invariant keeps clears ?_)
    fun _ _ visited => ?_
  · exact ⟨here, there⟩
  refine (visited.enterPhase _).keeps_bind fun _ _ entered => ?_
  have scans := upholds_scanPromoted invariant keeps.copy .relocating keeps.scanMinor
    world.heap.regions.old.space world.heap.regions.old.free world.heap.regions.old.cursor entered
  refine (World.Satisfies.onSite scans).keeps_bind fun _ _ scanned => ?_
  exact (scanned.enterPhase _).keeps_bind fun _ _ _ => Passage.keeps_hidden

/-- So it is for a full collection, which starts to trace where memory for its target was found. -/
theorem keeps_passFull
    (here
      : ∀ words,
          host.mapper.map? (targetWords world.heap) = some words →
          holds (fullStart world.heap words).regions)
    (there : kept (host.beforeFull world.host).host) (reason : Reason)
    : (passFull host reason).Keeps world fun now _ => now.Satisfies holds kept := by
  refine Passage.keeps_bind Passage.keeps_hidden ?_
  simp only [nextId, runs_bind, runs_pure, World.runs_heapNow, World.runs_modifyHeap]
  refine Passage.keeps_bind Passage.keeps_hidden ?_
  simp only [callHook, World.runs_onSite, runs_bind, runs_get, Site.runs_accept]
  refine Passage.keeps_bind Passage.keeps_hidden (World.runs_heapNow.mpr ?_)
  refine Passage.keeps_bind Passage.keeps_hidden (World.runs_enterPhase.mpr ?_)
  refine Passage.keeps_bind Passage.keeps_hidden ?_
  simp only [openTarget, runs_bind, runs_pure, World.runs_heapNow, World.runs_require]
  split
  next words mapped =>
    rw [World.runs_modifyRegions]
    refine Passage.Upholds.keeps_bind (upholds_visitFullRoots invariant keeps ?_)
      fun _ _ visited => ?_
    · exact ⟨here words mapped, there⟩
    refine (visited.enterPhase _).keeps_bind fun _ _ entered => ?_
    have scans := fun space steps =>
      upholds_scanSurvivors invariant keeps.copy .relocating keeps.scanFull keeps.scanFixedFull space
        steps 0 entered
    refine (World.Satisfies.onSite (scans _ _)).keeps_bind fun _ _ scanned => ?_
    exact (scanned.enterPhase _).keeps_bind fun _ _ _ => Passage.keeps_hidden
  next => trivial

end Collector

end MovingHeap
