import Mathlib.Logic.Relation
import MovingHeap.Proofs.MutatorSteps
import MovingHeap.Proofs.Passages

/-! What holds of a collection wherever it ends or is stopped.
Whatever its host does, a collection counts itself, enters and leaves no frame and installs no handler.
What a slot of a frame holds becomes what it is forwarded to where the collection comes through, and
nothing else.
-/

namespace MovingHeap

variable {σ δ α β : Type} {host : Host σ δ}

-----------------------------------------------------------------------------------------
-- Forwarding on the way
-----------------------------------------------------------------------------------------

namespace Passage

variable {action : Action (World σ δ) α} {next : α → Action (World σ δ) β} {first : Passage action}
  {second : ∀ result, Passage (next result)} {start middle : World σ δ} {value forwarded : Value}

/-- A value is forwarded to another one where the action comes through that begins in a world. -/
def Forwards (passage : Passage action) (host : Host σ δ) (start : World σ δ)
    (value forwarded : Value)
    : Prop :=
  ∃ now errand after,
    passage.Through start now errand ∧ Collector.forward host value now.site = .ok forwarded after

/-- What the first of two actions forwards, both do. -/
theorem Forwards.early (forwards : first.Forwards host start value forwarded)
    : (first.bind second).Forwards host start value forwarded := by
  obtain ⟨now, errand, after, through, forwards⟩ := forwards
  exact ⟨now, errand, after, Or.inl through, forwards⟩

/-- What the second one forwards, from where the first one ended, both do. -/
theorem Forwards.late {result : α} (ran : action start = .ok result middle)
    (forwards : (second result).Forwards host middle value forwarded)
    : (first.bind second).Forwards host start value forwarded := by
  obtain ⟨now, errand, after, through, forwards⟩ := forwards
  exact ⟨now, errand, after, Or.inr ⟨result, middle, ran, through⟩, forwards⟩

end Passage

namespace World

-----------------------------------------------------------------------------------------
-- Within a collection
-----------------------------------------------------------------------------------------

/-- No collection began, and frames and handlers are as they were but for values that changed. -/
structure Retains (changes : Value → Value → Prop) (before after : World σ δ) : Prop where
  counted : after.heap.collections = before.heap.collections
  frames : after.heap.frames.outline = before.heap.frames.outline
  handlers : after.heap.handlers.outline = before.heap.handlers.outline
  slots
    : ∀ id position,
        Relation.ReflTransGen changes (before.heap.frames.slotAt id position)
          (after.heap.frames.slotAt id position)

section Retains

variable {changes : Value → Value → Prop} {before middle after : World σ δ}

/-- Where frames and handlers are the same, they are retained. -/
theorem Retains.of_same (counted : after.heap.collections = before.heap.collections)
    (frames : after.heap.frames = before.heap.frames)
    (handlers : after.heap.handlers = before.heap.handlers)
    : before.Retains changes after := by
  refine ⟨counted, ?_, ?_, fun id position => ?_⟩
  · rw [frames]
  · rw [handlers]
  · rw [frames]

theorem Retains.trans (first : before.Retains changes middle)
    (second : middle.Retains changes after)
    : before.Retains changes after where
  counted := second.counted.trans first.counted
  frames := second.frames.trans first.frames
  handlers := second.handlers.trans first.handlers
  slots id position := (first.slots id position).trans (second.slots id position)

/-- What is retained from one heap on is retained from every other one with the same frames. -/
theorem Retains.from_same {other : World σ δ} (retains : before.Retains changes after)
    (counted : before.heap.collections = other.heap.collections)
    (frames : before.heap.frames = other.heap.frames)
    (handlers : before.heap.handlers = other.heap.handlers)
    : other.Retains changes after :=
  .trans (.of_same counted frames handlers) retains

theorem Retains.mono {more : Value → Value → Prop} (retains : before.Retains changes after)
    (weaken : ∀ value changed, changes value changed → more value changed)
    : before.Retains more after where
  counted := retains.counted
  frames := retains.frames
  handlers := retains.handlers
  slots id position := Relation.ReflTransGen.mono weaken _ _ (retains.slots id position)

end Retains

/-- Wherever the action ends or is stopped, frames and handlers are retained but for what was forwarded
on its way.
-/
def Retaining (host : Host σ δ) {action : Action (World σ δ) α} (passage : Passage action) : Prop :=
  ∀ world,
    Runs action world (fun _ final => world.Retains (passage.Forwards host world) final)
      fun _ final => world.Retains (passage.Forwards host world) final

namespace Retaining

theorem bind {action : Action (World σ δ) α} {next : α → Action (World σ δ) β}
    {first : Passage action} {second : ∀ result, Passage (next result)}
    (former : Retaining host first) (latter : ∀ result, Retaining host (second result))
    : Retaining host (first.bind second) := by
  intro world
  rw [runs_bind]
  refine (former world).with_ok.mono (fun result middle reached => ?_) fun _ _ retains => ?_
  · obtain ⟨ran, retains⟩ := reached
    have early : world.Retains ((first.bind second).Forwards host world) middle :=
      retains.mono fun _ _ => .early
    exact (latter result middle).mono
      (fun _ _ later => early.trans (later.mono fun _ _ => .late ran))
      fun _ _ later => early.trans (later.mono fun _ _ => .late ran)
  · exact retains.mono fun _ _ => .early

/-- Looking at the heap changes nothing. -/
theorem heapNow (errand : Option Errand)
    : Retaining host (Passage.step (World.heapNow : Action (World σ δ) (Heap δ)) errand) := by
  intro world
  rw [runs_heapNow]
  exact .of_same rfl rfl rfl

/-- Callbacks have nothing to do with frames and handlers. -/
theorem onSite {action : Action (Site σ δ) α} (passage : Passage (World.onSite action))
    : Retaining host passage := by
  intro world
  rw [runs_onSite]
  exact (runs_anyhow _ _).mono (fun _ _ _ => .of_same rfl rfl rfl) fun _ _ _ => .of_same rfl rfl rfl

end Retaining

/-- Setting a root to what its value becomes retains frames and handlers. -/
theorem retains_setRoot {changes : Value → Value → Prop} {world : World σ δ} {root : Root}
    {changed : Value} (site : Site σ δ) (becomes : changes (world.heap.rootValue root) changed)
    : world.Retains changes
        { world.withSite site with heap := (world.withSite site).heap.setRoot root changed } := by
  have tables := Heap.sameTables_setRoot (world.withSite site).heap root changed
  refine ⟨by cases root <;> rfl, tables.frames, tables.handlers, fun id position => ?_⟩
  cases root with
  | slot frame index =>
      simp only [Heap.setRoot, World.withSite, FrameStack.slotAt_eq, FrameStack.slot?_setSlotAt]
      split_ifs with here
      · obtain ⟨rfl, rfl⟩ := here
        simp only [Heap.rootValue, FrameStack.slotAt_eq] at becomes
        cases held : world.heap.frames.slot? id position with
        | none => exact .refl
        | some value =>
            rw [held] at becomes
            exact .single becomes
      · exact .refl
  | _ => exact .refl

end World

namespace Collector

open World

/-- Visiting a root forwards what it holds. -/
theorem retaining_visitRoot (host : Host σ δ) (root : Root)
    : Retaining host (passVisitRoot host root) := by
  intro world
  simp only [visitRoot, runs_bind, runs_heapNow, runs_onSite]
  unfold Runs
  cases ran : forward host (world.heap.rootValue root) world.site with
  | ok forwarded site =>
      have forwards : (passVisitRoot host root).Forwards host world (world.heap.rootValue root)
          forwarded := ⟨world, none, site, Or.inl (Or.inl ⟨rfl, rfl⟩), ran⟩
      have set := retains_setRoot site forwards
      by_cases same : forwarded = world.heap.rootValue root
      · simp only [same, ne_eq, not_true_eq_false, if_false]
        exact .of_same rfl rfl rfl
      · simp only [ne_eq, same, not_false_eq_true, if_true]
        exact set
  | error violation site => exact .of_same rfl rfl rfl

theorem retaining_visitRoots (host : Host σ δ) (roots : List Root)
    : Retaining host (passVisitRoots host roots) := by
  induction roots with
  | nil => exact fun _ => .of_same rfl rfl rfl
  | cons root roots ih => exact .bind (retaining_visitRoot host root) fun _ => ih

theorem retaining_visitMinorRoots (host : Host σ δ)
    : Retaining host (passVisitMinorRoots host) := by
  refine .bind (.heapNow _) fun _ => .bind (retaining_visitRoots host _) fun _ => ?_
  refine .bind (.heapNow _) fun _ => .bind (retaining_visitRoots host _) fun _ => ?_
  refine .bind (.heapNow _) fun _ => .bind (.onSite _) fun _ => ?_
  refine .bind (.heapNow _) fun _ => .bind (retaining_visitRoots host _) fun _ => ?_
  refine .bind (.heapNow _) fun _ => .bind (retaining_visitRoots host _) fun _ => ?_
  refine .bind (.heapNow _) fun _ => .bind (.onSite _) fun _ => ?_
  refine .bind (.heapNow _) fun _ => .bind (.onSite _) fun _ => ?_
  exact .bind (.heapNow _) fun _ => .onSite _

theorem retaining_visitFullRoots (host : Host σ δ) : Retaining host (passVisitFullRoots host) := by
  refine .bind (.heapNow _) fun _ => .bind (retaining_visitRoots host _) fun _ => ?_
  refine .bind (.heapNow _) fun _ => .bind (retaining_visitRoots host _) fun _ => ?_
  refine .bind (.heapNow _) fun _ => .bind (retaining_visitRoots host _) fun _ => ?_
  refine .bind (.heapNow _) fun _ => .bind (retaining_visitRoots host _) fun _ => ?_
  exact .bind (.heapNow _) fun _ => .onSite _

end Collector

-----------------------------------------------------------------------------------------
-- Whole collections
-----------------------------------------------------------------------------------------

/-- The world after a collection was numbered. -/
def World.numbered (world : World σ δ) : World σ δ :=
  { world with heap := { world.heap with collections := world.heap.collections + 1 } }

namespace Collector

/-- Opening the semispace for survivors where memory for it is granted. -/
theorem openTarget_of_mapped {mapper : Mapper} {world : World σ δ} {words : Arena}
    (mapped : mapper.map? (targetWords world.heap) = some words)
    : openTarget mapper world
      = .ok { space := world.heap.regions.old.space.flipped, words }
          { world with
            heap :=
              { world.heap with
                regions :=
                  { world.heap.regions with
                    target := some { space := world.heap.regions.old.space.flipped, words }
                    copied := 0 } } } := by
  have opens : Ends (openTarget mapper) world fun target final =>
      target = { space := world.heap.regions.old.space.flipped, words }
      ∧ final
        = { world with
            heap :=
              { world.heap with
                regions :=
                  { world.heap.regions with
                    target := some { space := world.heap.regions.old.space.flipped, words }
                    copied := 0 } } } := by
    simp only [Ends, openTarget, runs_bind, World.runs_heapNow, World.runs_require, mapped,
      World.runs_modifyRegions, runs_pure]
    exact ⟨trivial, trivial⟩
  obtain ⟨target, final, ran, rfl, rfl⟩ := opens.exists_ok
  exact ran

/-- A minor collection counts itself first and then forwards what it finds in frames. -/
theorem retains_minor (host : Host σ δ) (reason : Reason) (world : World σ δ)
    : Runs (minor host reason) world
        (fun _ final =>
          world.numbered.Retains ((passMinor host reason).Forwards host world) final)
        fun _ final =>
          world.numbered.Retains ((passMinor host reason).Forwards host world) final := by
  simp only [minor, nextId, runs_bind, runs_pure, World.runs_heapNow, World.runs_modifyHeap,
    World.runs_modifyRegions, World.runs_enterPhase, World.runs_onSite]
  -- nothing is forwarded before the roots are visited
  have onward : ∀ value forwarded, (passVisitMinorRoots host).Forwards host _ value forwarded →
      (passMinor host reason).Forwards host world value forwarded := fun _ _ forwards =>
    .late rfl (.late rfl (.late rfl (.late rfl (.early forwards))))
  refine (retaining_visitMinorRoots host _).mono (fun _ rooted retains => ?_) fun _ _ retains => ?_
  · have retains : world.numbered.Retains ((passMinor host reason).Forwards host world) rooted :=
      (retains.mono onward).from_same rfl rfl rfl
    -- scanning changes nothing but memory and the host
    refine (runs_anyhow _ _).mono (fun _ _ _ => ?_) fun _ _ _ => retains.trans (.of_same rfl rfl rfl)
    simp only [World.runs_count, World.runs_report, runs_ite, runs_pure]
    split_ifs
    · exact retains.trans (.of_same rfl rfl rfl)
    · exact retains.trans (.of_same rfl rfl rfl)
  · exact (retains.mono onward).from_same rfl rfl rfl

/-- A full collection counts itself first and then forwards what it finds in frames. -/
theorem retains_full (host : Host σ δ) (reason : Reason) (world : World σ δ)
    : Runs (full host reason) world
        (fun _ final =>
          world.numbered.Retains ((passFull host reason).Forwards host world) final)
        fun _ final =>
          world.numbered.Retains ((passFull host reason).Forwards host world) final := by
  simp only [full, nextId, openTarget, callHook, runs_bind, runs_pure, runs_get,
    World.runs_heapNow, World.runs_modifyHeap, World.runs_onSite, Site.runs_accept,
    World.runs_enterPhase, World.runs_require]
  split
  next words mapped =>
    simp only [World.runs_modifyRegions]
    -- nothing is forwarded before the roots are visited
    have onward : ∀ value forwarded, (passVisitFullRoots host).Forwards host _ value forwarded →
        (passFull host reason).Forwards host world value forwarded := fun _ _ forwards =>
      .late rfl (.late rfl (.late rfl (.late rfl
        (.late (openTarget_of_mapped mapped) (.early forwards)))))
    refine (retaining_visitFullRoots host _).mono (fun _ rooted retains => ?_) fun _ _ retains => ?_
    · have retains : world.numbered.Retains ((passFull host reason).Forwards host world) rooted :=
        (retains.mono onward).from_same rfl rfl rfl
      -- scanning and sweeping change nothing but memory and the host
      refine (runs_anyhow _ _).mono (fun _ _ _ => ?_)
        fun _ _ _ => retains.trans (.of_same rfl rfl rfl)
      refine (runs_anyhow _ _).mono (fun _ _ _ => ?_)
        fun _ _ _ => retains.trans (.of_same rfl rfl rfl)
      simp only [World.runs_count, World.runs_report, runs_ite, runs_pure]
      split_ifs
      · exact retains.trans (.of_same rfl rfl rfl)
      · exact retains.trans (.of_same rfl rfl rfl)
    · exact (retains.mono onward).from_same rfl rfl rfl
  next => exact .of_same rfl rfl rfl

end Collector

namespace World

/-- A value is forwarded to another one on the way of a collection that runs when memory is collected on
demand in a world: of a minor one or a full one there, or of the full one behind the minor one.
-/
inductive ForwardsTo (host : Host σ δ) (begun : World σ δ) (value forwarded : Value) : Prop where
  | minor {reason : Reason}
      (forwards : (Collector.passMinor host reason).Forwards host begun value forwarded)
  | full {reason : Reason} {launched : World σ δ} (launches : begun.LaunchesFull host launched)
      (forwards : (Collector.passFull host reason).Forwards host launched value forwarded)

/-- Frames and handlers are as they were unless collections began, which forwarded what frames hold. If
they did, they were demanded in `begun`.
-/
structure Forwards (host : Host σ δ) (begun before after : World σ δ) : Prop where
  counted : before.heap.collections ≤ after.heap.collections
  frames : after.heap.frames.outline = before.heap.frames.outline
  handlers : after.heap.handlers.outline = before.heap.handlers.outline
  slots
    : ∀ id position,
        Relation.ReflTransGen
          (fun value forwarded =>
            before.heap.collections < after.heap.collections
            ∧ begun.ForwardsTo host value forwarded)
          (before.heap.frames.slotAt id position) (after.heap.frames.slotAt id position)

section Forwards

variable {begun before middle after : World σ δ}

/-- Where frames and handlers are the same, nothing was forwarded. -/
theorem Forwards.of_same (counted : after.heap.collections = before.heap.collections)
    (frames : after.heap.frames = before.heap.frames)
    (handlers : after.heap.handlers = before.heap.handlers)
    : begun.Forwards host before after := by
  refine ⟨Nat.le_of_eq counted.symm, ?_, ?_, fun id position => ?_⟩
  · rw [frames]
  · rw [handlers]
  · rw [frames]

/-- What a collection retains it forwards. -/
theorem Retains.forwards (retains : before.numbered.Retains (begun.ForwardsTo host) after)
    : begun.Forwards host before after := by
  have more : before.heap.collections < after.heap.collections :=
    Nat.lt_of_lt_of_eq (Nat.lt_succ_self _) retains.counted.symm
  refine ⟨Nat.le_of_lt more, retains.frames, retains.handlers, fun id position => ?_⟩
  exact Relation.ReflTransGen.mono (fun _ _ forwarded => ⟨more, forwarded⟩) _ _
    (retains.slots id position)

theorem Forwards.trans (first : begun.Forwards host before middle)
    (second : begun.Forwards host middle after)
    : begun.Forwards host before after where
  counted := first.counted.trans second.counted
  frames := second.frames.trans first.frames
  handlers := second.handlers.trans first.handlers
  slots id position := by
    refine Relation.ReflTransGen.trans
      (Relation.ReflTransGen.mono (fun _ _ step => ?_) _ _ (first.slots id position))
      (Relation.ReflTransGen.mono (fun _ _ step => ?_) _ _ (second.slots id position))
    · exact ⟨Nat.lt_of_lt_of_le step.1 second.counted, step.2⟩
    · exact ⟨Nat.lt_of_le_of_lt first.counted step.1, step.2⟩

end Forwards

/-- Wherever the action ends or is stopped that begins in `world`, frames and handlers are as they were,
but for what collections forwarded that were demanded in `begun`.
-/
def Forwarding (host : Host σ δ) (begun : World σ δ) (action : Action (World σ δ) α)
    (world : World σ δ)
    : Prop :=
  Runs action world (fun _ final => begun.Forwards host world final)
    fun _ final => begun.Forwards host world final

namespace Forwarding

variable {begun world : World σ δ}

theorem bind {action : Action (World σ δ) α} {next : α → Action (World σ δ) β}
    (first : Forwarding host begun action world)
    (second
      : ∀ result middle,
          action world = .ok result middle →
          Forwarding host begun (next result) middle)
    : Forwarding host begun (action >>= next) world := by
  unfold Forwarding
  rw [runs_bind]
  refine (Runs.with_ok first).mono (fun result middle reached => ?_) fun _ _ => id
  obtain ⟨ran, forwards⟩ := reached
  exact (second result middle ran).mono (fun _ _ => forwards.trans) fun _ _ => forwards.trans

theorem heapNow_bind {next : Heap δ → Action (World σ δ) α}
    (forwarding : Forwarding host begun (next world.heap) world)
    : Forwarding host begun (World.heapNow >>= next) world := by
  unfold Forwarding
  rw [runs_bind, runs_heapNow]
  exact forwarding

theorem map {action : Action (World σ δ) α} (forwarding : Forwarding host begun action world)
    (change : α → β)
    : Forwarding host begun (change <$> action) world := by
  unfold Forwarding
  rw [runs_map]
  exact forwarding

theorem pure (result : α) : Forwarding host begun (Pure.pure result) world :=
  .of_same rfl rfl rfl

/-- Callbacks have nothing to do with frames and handlers. -/
theorem onSite (action : Action (Site σ δ) α)
    : Forwarding host begun (World.onSite action) world := by
  unfold Forwarding
  rw [runs_onSite]
  exact (runs_anyhow _ _).mono (fun _ _ _ => .of_same rfl rfl rfl) fun _ _ _ => .of_same rfl rfl rfl

/-- Nor have changes to the other parts of a heap. -/
theorem modifyHeap {change : Heap δ → Heap δ}
    (counted : ∀ heap, (change heap).collections = heap.collections)
    (frames : ∀ heap, (change heap).frames = heap.frames)
    (handlers : ∀ heap, (change heap).handlers = heap.handlers)
    : Forwarding host begun (World.modifyHeap change) world :=
  .of_same (counted world.heap) (frames world.heap) (handlers world.heap)

theorem check (result : Except Violation α)
    : Forwarding host begun (World.check result) world := by
  unfold Forwarding
  rw [runs_check]
  cases result <;> exact .of_same rfl rfl rfl

end Forwarding

/-- What collections forward that are demanded in a world, they forward there. -/
theorem forwarding_collectFor (host : Host σ δ) (words : Nat) (wantsFull : Bool) (reason : Reason)
    (world : World σ δ)
    : Forwarding host world (Collector.collectFor host words wantsFull reason) world := by
  have fulls : ∀ reason (launched : World σ δ), world.LaunchesFull host launched →
      Runs (Collector.full host reason) launched
        (fun _ final => world.Forwards host launched final)
        fun _ final => world.Forwards host launched final := fun reason launched launches =>
    (Collector.retains_full host reason launched).mono
      (fun _ _ retains => (retains.mono fun _ _ => .full launches).forwards)
      fun _ _ retains => (retains.mono fun _ _ => .full launches).forwards
  refine Collector.runs_collectFor (fun _ _ => .of_same rfl rfl rfl)
    (fun _ _ => .of_same rfl rfl rfl) (fun _ _ reason => fulls reason world .here) fun _ _ => ?_
  refine (Collector.retains_minor host reason world).with_ok.mono (fun _ middle first => ?_)
    fun _ _ retains => (retains.mono fun _ _ => .minor).forwards
  obtain ⟨ends, retains⟩ := first
  have first : world.Forwards host world middle := (retains.mono fun _ _ => .minor).forwards
  split_ifs
  · exact (fulls _ middle (.promoted ends)).mono (fun _ _ => first.trans) fun _ _ => first.trans
  · exact first

theorem forwarding_reserve (host : Host σ δ) (size stride : Nat) (world : World σ δ)
    : Forwarding host world (reserve host size stride) world := by
  refine runs_reserve (fun _ => .of_same rfl rfl rfl) (fun _ => .of_same rfl rfl rfl) ?_
  intro wantsFull reason _
  refine (forwarding_collectFor host _ wantsFull reason world).mono (fun _ middle first => ?_)
    fun _ _ => id
  exact first.trans (.of_same rfl rfl rfl)

theorem forwarding_notifyStore (host : Host σ δ) (slot : Address) (world : World σ δ)
    : Forwarding host (world.recorded slot) (notifyStore host slot) world := by
  have recorded : (world.recorded slot).Forwards host world (world.recorded slot) :=
    .of_same rfl rfl rfl
  refine runs_notifyStore (fun _ => .of_same rfl rfl rfl) (fun _ _ => .of_same rfl rfl rfl)
    (fun _ _ => recorded) fun _ => ?_
  exact (forwarding_collectFor host _ _ _ _).mono (fun _ _ => recorded.trans)
    fun _ _ => recorded.trans

end World

namespace Collector

/-- Where no collection runs and so many words fit, collecting on demand begins a collection. -/
theorem begun_collectFor (host : Host σ δ) {words : Nat} (wantsFull : Bool) (reason : Reason)
    {world : World σ δ} (idle : world.heap.phase = .idle)
    (small : words ≤ world.heap.regions.birth.maxObjectWords)
    : Runs (collectFor host words wantsFull reason) world
        (fun _ final => world.heap.collections < final.heap.collections)
        fun _ final => world.heap.collections < final.heap.collections := by
  have begun : ∀ {changes : Value → Value → Prop} {before after : World σ δ},
      before.numbered.Retains changes after →
      before.heap.collections < after.heap.collections := fun retains =>
    Nat.lt_of_lt_of_eq (Nat.lt_succ_self _) retains.counted.symm
  refine runs_collectFor (fun busy => absurd idle busy) (fun large => by omega)
    (fun _ _ reason => ?_) fun _ _ => ?_
  · exact (retains_full host reason world).mono (fun _ _ => begun) fun _ _ => begun
  · refine (retains_minor host reason world).mono (fun _ middle first => ?_) fun _ _ => begun
    have first := begun first
    split_ifs
    · refine (retains_full host _ middle).mono (fun _ _ last => ?_) fun _ _ last => ?_
      · exact first.trans (begun last)
      · exact first.trans (begun last)
    · exact first

end Collector

end MovingHeap
